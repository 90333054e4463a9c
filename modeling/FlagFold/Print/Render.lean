/-
  FlagFold.Print.Render

  The edits that a tree asks for, and the text of a node with the edits inside it
  carried out.  Nodes made by a pass take the place of what they stand for,
  removed statements are cut out, and comments are put next to their nodes.
-/

import FlagFold.Print.Edit
import FlagFold.Tree.Basic
import FlagFold.Tree.StringLiteral

namespace FlagFold

namespace Comment

/-- The comment up to the end of a line. -/
def line (c : Comment) : Text := text "//" ++ c.content

/-- The comment inside a line. -/
def block (c : Comment) : Text := text "/*" ++ c.content ++ text " */"

/-- Comments inside a line, before something. -/
def blocksBefore (cs : List Comment) : Text := cs.flatMap fun c => c.block ++ text " "

/-- Comments inside a line, after something. -/
def blocksAfter (cs : List Comment) : Text := cs.flatMap fun c => text " " ++ c.block

/-- Comments on lines of their own, each after `indent`. -/
def lines (indent newline : Text) (cs : List Comment) : Text :=
  cs.flatMap fun c => indent ++ c.line ++ newline

end Comment

namespace Sheet

/-- Comments before the node at `offset`: on lines of their own if it begins its line. -/
def leadingText (sheet : Sheet) (offset : Nat) (cs : List Comment) : Text :=
  if sheet.source.startsLine offset then
    let indent := sheet.source.slice (sheet.source.lineStart offset) offset
    cs.flatMap fun c => c.line ++ sheet.newline ++ indent
  else Comment.blocksBefore cs

/-- The edit that puts comments before a node. -/
def leadingEdit (sheet : Sheet) (info : Info) : List Edit :=
  let cs := info.comments.filter (·.leading)
  if cs.isEmpty then [] else [⟨info.start, info.start, sheet.leadingText info.start cs, false⟩]

/-- The edit that puts comments after a node; in a list in braces they come before the closing
one, indented like the last node of the list. -/
def trailingEdit (sheet : Sheet) (info : Info) (shape : Shape Node) : List Edit :=
  let cs := info.comments.filter (!·.leading)
  if cs.isEmpty then []
  else if shape.kind.isBracedList && info.start < info.stop then
    let close := info.stop - 1
    if sheet.source.startsLine close then
      -- The closing brace has its own line, and the comments come on lines before it.
      let indent := match shape.nodes.getLast? with
        | some last => sheet.source.lineIndent last.info.start
        | none => sheet.source.lineIndent close ++ text "\t"
      let place := sheet.source.lineStart close
      [⟨place, place, Comment.lines indent sheet.newline cs, false⟩]
    else [⟨close, close, Comment.blocksBefore cs, false⟩]
  else [⟨info.stop, info.stop, Comment.blocksAfter cs, false⟩]

/-- The edit that cuts out a removed statement and leaves its comments. -/
def removalEdit (sheet : Sheet) (info : Info) : Except PrintError Edit := do
  let cut ← sheet.source.removal info.start info.stop
  -- On lines of their own, after what is left of the line, or before it.
  let left :=
    if info.comments.isEmpty then []
    else if cut.wholeLine then
      Comment.lines (sheet.source.lineIndent info.start) sheet.newline info.comments
    else if cut.start < info.start then Comment.blocksAfter info.comments
    else Comment.blocksBefore info.comments
  return ⟨cut.start, cut.stop, left, false⟩

/-- The text of a chunk list. -/
def write (sheet : Sheet) (chunks : List Chunk) : Text := Chunk.outputs sheet.source chunks

mutual

/-- The edits that a node and what is below it ask for. -/
def edits (sheet : Sheet) : Node → Except PrintError (List Edit)
  | .mk info shape =>
    if info.synthetic then
      match shape with
      | .removed => do return [← sheet.removalEdit info]
      | shape => do
        -- The nodes below it are rendered as parts of this text and ask for no edits.
        let made ← sheet.generate shape
        let before := Comment.blocksBefore (info.comments.filter (·.leading))
        let after := Comment.blocksAfter (info.comments.filter (!·.leading))
        return [⟨info.start, info.stop, before ++ made ++ after, false⟩]
    else do
      return sheet.leadingEdit info ++ sheet.trailingEdit info shape ++ (← sheet.innerEdits shape)

/-- The edits that the nodes of a form ask for. -/
def innerEdits (sheet : Sheet) : Shape Node → Except PrintError (List Edit)
  | .program body _ => sheet.listEdits body
  | .expressionStatement expression => sheet.optionEdits expression
  | .variableDeclaration _ declarations => sheet.listEdits declarations
  | .variableDeclarator target init => do
    return (← sheet.optionEdits target) ++ (← sheet.optionEdits init)
  | .importDeclaration specifiers source => do
    return (← sheet.listEdits specifiers) ++ (← sheet.optionEdits source)
  | .importDefault binding => sheet.optionEdits binding
  | .importNamespace binding => sheet.optionEdits binding
  | .importSpecifier _ binding => sheet.optionEdits binding
  | .call callee arguments _ => do
    return (← sheet.optionEdits callee) ++ (← sheet.listEdits arguments)
  | .member object property _ => do
    return (← sheet.optionEdits object) ++ (← sheet.optionEdits property)
  | .template _ expressions => sheet.listEdits expressions
  | .generic _ children => sheet.listEdits children
  | .identifier _ | .string _ _ | .boolean _ | .removed => .ok []

/-- The edits that a node asks for, if there is one. -/
def optionEdits (sheet : Sheet) : Option Node → Except PrintError (List Edit)
  | none => .ok []
  | some node => sheet.edits node

/-- The edits that several nodes ask for. -/
def listEdits (sheet : Sheet) : List Node → Except PrintError (List Edit)
  | [] => .ok []
  | node :: rest => do return (← sheet.edits node) ++ (← sheet.listEdits rest)

/-- The text of a form that a pass has made. -/
def generate (sheet : Sheet) : Shape Node → Except PrintError Text
  | .removed => .ok []
  | .boolean value => .ok (if value then text "true" else text "false")
  | .identifier name => .ok name
  | .string value raw => .ok (if raw.isEmpty then StringLiteral.encode value else raw)
  | .member object property optional => do
    let object ← sheet.renderOption object
    let property ← sheet.renderOption property
    return object ++ (if optional then text "?." else text ".") ++ property
  | .call callee arguments optional => do
    let arguments ← sheet.renderList arguments
    let callee ← sheet.renderOption callee
    return callee ++ (if optional then text "?." else []) ++ text "(" ++
      Text.join (text ", ") arguments ++ text ")"
  | .program _ _ => .error (.noText Kind.program.name)
  | .expressionStatement _ => .error (.noText Kind.expressionStatement.name)
  | .variableDeclaration _ _ => .error (.noText Kind.variableDeclaration.name)
  | .variableDeclarator _ _ => .error (.noText Kind.variableDeclarator.name)
  | .importDeclaration _ _ => .error (.noText Kind.importDeclaration.name)
  | .importDefault _ => .error (.noText Kind.importDefault.name)
  | .importNamespace _ => .error (.noText Kind.importNamespace.name)
  | .importSpecifier _ _ => .error (.noText Kind.importSpecifier.name)
  | .template _ _ => .error (.noText Kind.template.name)
  | .generic kind _ => .error (.noText kind)

/-- The text of a node with the edits inside it carried out. -/
def render (sheet : Sheet) : Node → Except PrintError Text
  | .mk info shape =>
    if info.synthetic then sheet.generate shape
    else do
      let inner ← sheet.innerEdits shape
      return sheet.write (← sheet.splice info.start info.stop inner)

/-- The text of a node that has to be there. -/
def renderOption (sheet : Sheet) : Option Node → Except PrintError Text
  | none => .error .missingPart
  | some node => sheet.render node

/-- The texts of several nodes. -/
def renderList (sheet : Sheet) : List Node → Except PrintError (List Text)
  | [] => .ok []
  | node :: rest => do
    let t ← sheet.render node
    return t :: (← sheet.renderList rest)

end

end Sheet
end FlagFold
