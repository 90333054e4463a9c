/-
  FlagFold.Tree.OfConcrete

  The tree of a concrete syntax tree without faults.  Tokens and comments are
  left out; offsets are turned from bytes into code points.
-/

import FlagFold.Concrete.Basic
import FlagFold.Tree.Basic
import FlagFold.Tree.StringLiteral

namespace FlagFold

open StringLiteral (NoCodePoint)

namespace Concrete

/-- The place of a node. -/
def info (index : SourceIndex) (node : Concrete) : Info where
  start := index.toChar node.start
  stop := index.toChar node.stop
  line := (index.bytePosition node.start).line + 1
  column := index.column node.start

/-- Is the node a part of its parent, and no token and no comment? -/
def isPart (node : Concrete) : Bool := !node.anonymous && !node.isComment

/-! ## Leaves -/

/-- A name. -/
def identifier (index : SourceIndex) (node : Concrete) : Node :=
  .mk (node.info index) (.identifier (index.slice node))

/-- A string literal. -/
def stringLiteral (index : SourceIndex) (node : Concrete) : Except NoCodePoint Node := do
  let raw := index.slice node
  return .mk (node.info index) (.string (← StringLiteral.decode raw) raw)

/-! ## Imports -/

/-- `b as c` among the names of an import. -/
def importSpecifier (index : SourceIndex) (node : Concrete) : Except NoCodePoint Node := do
  let name := node.child? "name"
  let imported ← match name with
    | none => pure []
    | some n =>
      if n.kind = "string" then StringLiteral.decode (index.slice n) else pure (index.slice n)
  let binding := match (node.child? "alias").orElse fun _ => name with
    | none => none
    -- A name in quotes binds nothing.
    | some n => if n.kind = "string" then none else some (n.identifier index)
  return .mk (node.info index) (.importSpecifier imported binding)

/-- One part of an import clause. -/
def importPart (index : SourceIndex) (node : Concrete) : Except NoCodePoint (List Node) :=
  if node.kind = "identifier" then
    .ok [.mk (node.info index) (.importDefault (some (node.identifier index)))]
  else if node.kind = "namespace_import" then
    .ok <| match node.namedChildren.find? (·.kind = "identifier") with
      | none => []
      | some n => [.mk (node.info index) (.importNamespace (some (n.identifier index)))]
  else if node.kind = "named_imports" then
    (node.parts.filter (·.kind = "import_specifier")).mapM (importSpecifier index)
  else .ok []

/-- The names that an import binds. -/
def importSpecifiers (index : SourceIndex) (node : Concrete) : Except NoCodePoint (List Node) := do
  let clauses := node.parts.filter (·.kind = "import_clause")
  return (← (clauses.flatMap (·.parts)).mapM (importPart index)).flatten

/-! ## Templates -/

/-- The texts between the substitutions of a template, the first starting at `cursor` and the
last ending at `stop`. -/
def templateChunks (index : SourceIndex) (cursor stop : Nat) : List Concrete → List Text
  | [] => [index.between cursor stop]
  | node :: rest =>
    if node.kind = "template_substitution" && !node.anonymous then
      index.between cursor (index.toChar node.start) ::
        templateChunks index (index.toChar node.stop) stop rest
    else templateChunks index cursor stop rest

/-! ## All nodes -/

/-- Does a child with these properties begin an optional chain? -/
def isOptional (node : Concrete) : Bool := node.children.any (·.kind = "optional_chain")

mutual

/-- The node of the tree for a node of the concrete one. -/
def toNode (index : SourceIndex) : Concrete → Except NoCodePoint Node
  | ⟨kind, start, stop, field, anonymous, missing, children⟩ =>
    let node : Concrete := ⟨kind, start, stop, field, anonymous, missing, children⟩
    let generic (_ : Unit) : Except NoCodePoint Node := do
      return .mk (node.info index) (.generic kind (← partsToNodes index children))
    match kind with
    | "expression_statement" => do
      return .mk (node.info index) (.expressionStatement (← firstPartToNode index children))
    | "lexical_declaration" | "variable_declaration" => do
      let keyword := (node.child? "kind").orElse fun _ => children.head?
      return .mk (node.info index)
        (.variableDeclaration ((keyword.map index.slice).getD [])
          (← declaratorsToNodes index children))
    | "variable_declarator" => do
      let target ← fieldToNode index "name" children
      let init ← fieldToNode index "value" children
      return .mk (node.info index) (.variableDeclarator target init)
    | "import_statement" =>
      match node.child? "source" with
      | none => generic ()
      | some source =>
        if source.kind = "string" then do
          let specifiers ← node.importSpecifiers index
          return .mk (node.info index)
            (.importDeclaration specifiers (some (← source.stringLiteral index)))
        else generic ()
    | "call_expression" =>
      match node.child? "function", node.child? "arguments" with
      | some _, some arguments =>
        -- A call whose argument is a template is no call of the tree.
        if arguments.kind = "arguments" then do
          let callee ← fieldToNode index "function" children
          let arguments ← argumentsToNodes index children
          return .mk (node.info index) (.call callee arguments node.isOptional)
        else generic ()
      | _, _ => generic ()
    | "member_expression" =>
      match node.child? "object", node.child? "property" with
      | some _, some _ => do
        let object ← fieldToNode index "object" children
        let property ← fieldToNode index "property" children
        return .mk (node.info index) (.member object property node.isOptional)
      | _, _ => generic ()
    | "identifier" | "property_identifier" => .ok (node.identifier index)
    | "string" => node.stringLiteral index
    | "template_string" => do
      let info := node.info index
      let chunks := templateChunks index (info.start + 1) (info.stop - 1) children
      return .mk info (.template chunks (← substitutionsToNodes index children))
    | "true" => .ok (.mk (node.info index) (.boolean true))
    | "false" => .ok (.mk (node.info index) (.boolean false))
    | _ => generic ()

/-- The nodes of all parts. -/
def partsToNodes (index : SourceIndex) : List Concrete → Except NoCodePoint (List Node)
  | [] => .ok []
  | node :: rest =>
    if node.isPart then do
      let n ← node.toNode index
      return n :: (← partsToNodes index rest)
    else partsToNodes index rest

/-- The node of the first part. -/
def firstPartToNode (index : SourceIndex) : List Concrete → Except NoCodePoint (Option Node)
  | [] => .ok none
  | node :: rest =>
    if node.isPart then do return some (← node.toNode index) else firstPartToNode index rest

/-- The node of the first child that plays a part. -/
def fieldToNode (index : SourceIndex) (field : String) :
    List Concrete → Except NoCodePoint (Option Node)
  | [] => .ok none
  | node :: rest =>
    if node.field = some field then do return some (← node.toNode index)
    else fieldToNode index field rest

/-- The nodes of the declarators of a declaration. -/
def declaratorsToNodes (index : SourceIndex) : List Concrete → Except NoCodePoint (List Node)
  | [] => .ok []
  | node :: rest =>
    if node.isPart && node.kind = "variable_declarator" then do
      let n ← node.toNode index
      return n :: (← declaratorsToNodes index rest)
    else declaratorsToNodes index rest

/-- The nodes of the arguments of a call. -/
def argumentsToNodes (index : SourceIndex) : List Concrete → Except NoCodePoint (List Node)
  | [] => .ok []
  | ⟨_, _, _, field, _, _, children⟩ :: rest =>
    if field = some "arguments" then partsToNodes index children
    else argumentsToNodes index rest

/-- The nodes of the expressions that are substituted in a template. -/
def substitutionsToNodes (index : SourceIndex) : List Concrete → Except NoCodePoint (List Node)
  | [] => .ok []
  | ⟨kind, _, _, _, anonymous, _, children⟩ :: rest =>
    if kind = "template_substitution" && !anonymous then do
      let inner ← firstPartToNode index children
      return inner.toList ++ (← substitutionsToNodes index rest)
    else substitutionsToNodes index rest

end

/-- The program of a concrete syntax tree of `source`. -/
def toProgram (source : Text) (root : Concrete) : Except NoCodePoint Node := do
  let index := SourceIndex.ofText source
  let body ← partsToNodes index root.children
  return .mk { start := 0, stop := source.length, line := 1, column := 1 } (.program body source)

end Concrete
end FlagFold
