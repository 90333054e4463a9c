/-
  FlagFold.Grammar.Expression

  Expressions: operands with what is attached to them, operators between
  operands, conditions, and lists of expressions.
-/

import FlagFold.Grammar.Function
import FlagFold.Grammar.Operator
import FlagFold.Grammar.Pattern

namespace FlagFold.Grammar

/-! ## Literals -/

/-- `...e` -/
private def spread (self : Rules) : Parse Concrete :=
  node "spread_element" do
    symbol "..."
    return [← self (.assignment true)]

/-- `[a, b]`; it can only be a pattern if an item can. -/
private def array (self : Rules) : Parse Concrete := do
  let items ← node "array" do
    symbol "["
    listUpTo "]" (spread self <|> self .item)
  return if items.children.any (·.isPattern) then { items with kind := "array_pattern" } else items

/-- One property of an object. -/
private def property (self : Rules) : Parse Concrete := do
  match ← peek with
  | .symbol "..." => spread self
  | _ =>
    let start ← nextOffset
    let found ← modifiers methodModifiers
    let first ← peek
    let key ← propertyName self
    match ← peek with
    | .symbol ":" =>
      require found.isEmpty
      symbol ":"
      let value ← self .item
      nodeFrom start "pair" [key.asPart "key", value.asPart "value"]
    | .symbol "(" | .symbol "<" => method self start [key.asPart "name"]
    | _ =>
      require (first.isName && found.isEmpty)
      match ← optional (initializer self true) with
      | none => return { key with kind := "shorthand_property_identifier" }
      | some value =>
        let left := { key with kind := "shorthand_property_identifier_pattern" }
        nodeFrom start "object_assignment_pattern" [left.asPart "left", value.asPart "right"]

/-- Can the property only be one of a pattern? -/
private def isPatternProperty (property : Concrete) : Bool :=
  property.kind = "object_assignment_pattern" ||
    (property.kind = "pair" && (property.children.getLast?.map (·.isPattern)).getD false)

/-- `{a: b, c}`; it can only be a pattern if a property can. -/
private def object (self : Rules) : Parse Concrete := do
  let object ← node "object" do
    symbol "\x7b"
    listUpTo "\x7d" (property self)
  return if object.children.any isPatternProperty then { object with kind := "object_pattern" }
    else object

/-- Skips the text of a template up to its end or the next substitution. -/
private def templateText : Parse Unit :=
  modify fun c => c.advance (run templateItemSize? c.rest)

/-- A template. -/
def template (self : Rules) : Parse Concrete :=
  node "template_string" do
    symbol "\x60"
    templateText
    let substitutions ← many do
      let start := (← get).offset
      rawText "$\x7b"
      let e ← self (.expression true)
      symbol "\x7d"
      let substitution ← nodeFrom start "template_substitution" [e]
      templateText
      return substitution
    rawText "\x60"
    return substitutions

/-- `(e)` -/
def parenthesized (self : Rules) : Parse Concrete :=
  node "parenthesized_expression" do
    symbol "("
    let e ← self (.expression true)
    let type ← atMostOne (annotatedType self)
    symbol ")"
    return e :: type

/-! ## What is attached to an operand -/

/-- `(a, b)`, the arguments of a call. -/
private def arguments (self : Rules) : Parse Concrete := do
  let arguments ← node "arguments" do
    symbol "("
    listUpTo ")" (spread self <|> self (.assignment true))
  return arguments.asPart "arguments"

/-- The name of a member after its point. -/
private def memberName : Parse Concrete := do
  return (← word "property_identifier" <|> privateName).asPart "property"

/-- `[e]`, as the index of a member. -/
private def index (self : Rules) : Parse Concrete := do
  symbol "["
  let e ← self (.expression true)
  symbol "]"
  return e.asPart "index"

/-- May a token follow the type arguments of an operand that is not called? No operand may
begin there. -/
private def endsInstantiation : Token → Bool
  | .word w => ["in", "instanceof", "as", "satisfies"].contains w
  | .symbol s =>
    !(["(", "[", "\x7b", "<", "+", "-", "!", "~", "++", "--", "@", "#", "/"].contains s)
  | .finish => true
  | _ => false

/-- An operand with one more member attached. -/
private def withMember (self : Rules) (e : Concrete) : Parse Concrete := do
  match ← peek with
  | .symbol "." =>
    symbol "."
    nodeFrom e.start "member_expression" [e.asPart "object", ← memberName]
  | .symbol "[" =>
    nodeFrom e.start "subscript_expression" [e.asPart "object", ← index self]
  | .symbol "\x60" =>
    let text ← template self
    nodeFrom e.start "call_expression" [e.asPart "function", text.asPart "arguments"]
  | .symbol "!" =>
    require ((← hasTypes) && !(← onNewLine))
    symbol "!"
    nodeFrom e.start "non_null_expression" [e]
  | _ => failure

/-- `?.` -/
private def chainMark : Parse Concrete :=
  node "optional_chain" do
    symbol "?."
    return []

/-- An operand with one more member or call attached. -/
private def withMemberOrCall (self : Rules) (e : Concrete) : Parse Concrete := do
  match ← peek with
  | .symbol "(" =>
    nodeFrom e.start "call_expression" [e.asPart "function", ← arguments self]
  | .symbol "?." =>
    let mark ← chainMark
    match ← peek with
    | .symbol "(" =>
      nodeFrom e.start "call_expression" [e.asPart "function", mark, ← arguments self]
    | .symbol "[" =>
      nodeFrom e.start "subscript_expression" [e.asPart "object", mark, ← index self]
    | .symbol "<" =>
      let types ← typeArguments self
      nodeFrom e.start "call_expression" [e.asPart "function", mark, types, ← arguments self]
    | _ => nodeFrom e.start "member_expression" [e.asPart "object", mark, ← memberName]
  | .symbol "<" | .symbol "<<" =>
    let types ← typeArguments self
    match ← peek with
    | .symbol "(" =>
      nodeFrom e.start "call_expression" [e.asPart "function", types, ← arguments self]
    | .symbol "\x60" =>
      let text ← template self
      nodeFrom e.start "call_expression" [e.asPart "function", types, text.asPart "arguments"]
    | next =>
      require (endsInstantiation next || (← onNewLine))
      nodeFrom e.start "instantiation_expression" [e, types]
  | _ => withMember self e

/-! ## Operands -/

/-- `import` before the arguments of a call, or `import.meta`. -/
private def importExpression : Parse Concrete := do
  match ← peekSecond with
  | .symbol "." =>
    node "meta_property" do
      keyword "import"
      symbol "."
      keyword "meta"
      return []
  | .symbol "(" | .symbol "<" => word "import"
  | _ => failure

/-- The words that are operands. -/
private def literalWords : List String := ["this", "super", "null", "true", "false", "undefined"]

/-- An operand to which nothing is attached yet, other than one with `new`. -/
private def primary (self : Rules) (hasIn : Bool) : Parse Concrete := do
  match ← peek with
  | .number => number
  | .string => string
  | .symbol "\x60" => template self
  | .symbol "(" => arrowFunction self hasIn <|> parenthesized self
  | .symbol "[" => array self
  | .symbol "\x7b" => object self
  -- Where an operand begins, a slash begins a regular expression.
  | .symbol "/" | .symbol "/=" => leaf "regex" regexSize?
  | .symbol "@" => classExpression self
  | .symbol "#" =>
    let name ← privateName
    require ((← peek) = .word "in")
    return name
  | .symbol "<" =>
    match (← read).language with
    | .javascript => self .element
    | .typescript => arrowFunction self hasIn
    | .tsx => arrowFunction self hasIn <|> self .element
  | .word "function" => functionExpression self
  | .word "class" => classExpression self
  | .word "import" => importExpression
  | .word w =>
    if literalWords.contains w then word w
    else
      match w, ← peekSecond with
      | _, .symbol "=>" => arrowFunction self hasIn
      | "async", .word "function" => functionExpression self
      | "async", .word _ | "async", .symbol "(" | "async", .symbol "<" =>
        arrowFunction self hasIn <|> name "identifier"
      | _, _ => name "identifier"
  | _ => failure

/-- `new C(a)`. Of several `new`s in a row the last takes the first arguments. -/
private def construction (self : Rules) : Parse Concrete := do
  match ← peekSecond with
  | .symbol "." =>
    node "meta_property" do
      keyword "new"
      symbol "."
      keyword "target"
      return []
  | _ =>
    -- The words are read first, and the last of them is met first from within.
    let starts ← iterate (fun starts => do
      let start ← nextOffset
      keyword "new"
      return start :: starts) []
    starts.foldlM (fun e start => do
      let e ← iterate (withMember self) e
      let types ← atMostOne do
        let types ← typeArguments self
        require ((← peek) = .symbol "(")
        return types
      let arguments ← atMostOne (arguments self)
      nodeFrom start "new_expression" (e.asPart "constructor" :: (types ++ arguments)))
      (← primary self true)

/-- Is the node an arrow function to which nothing can be attached, since its body is an
expression? -/
private def isOpenEnded (e : Concrete) : Bool :=
  e.kind = "arrow_function" && (e.children.getLast?.map (·.kind)) ≠ some "statement_block"

/-- The operators that change their left side. -/
private def changing : List String :=
  ["+=", "-=", "*=", "/=", "%=", "**=", "<<=", ">>=", ">>>=", "&=", "|=", "^=", "&&=", "||=", "??="]

/-- An operand as the target of an assignment, if an operator for that follows. -/
private def assigned (self : Rules) (hasIn : Bool) (e : Concrete) : Parse Concrete := do
  match ← peek with
  | .symbol s =>
    if s = "=" then
      match e.toTarget? with
      | none => failure
      | some target =>
        symbol "="
        let right ← self (.assignment hasIn)
        nodeFrom e.start "assignment_expression" [target.asPart "left", right.asPart "right"]
    else if changing.contains s && e.isChangeable then
      symbol s
      let right ← self (.assignment hasIn)
      nodeFrom e.start "augmented_assignment_expression" [e.asPart "left", right.asPart "right"]
    else if (s = "++" || s = "--") && !(← onNewLine) then
      symbol s
      nodeFrom e.start "update_expression" [e.asPart "argument"]
    else return e
  | _ => return e

/-- An operand with all that is attached to it. -/
private def extended (self : Rules) (hasIn : Bool) : Parse Concrete := do
  let e ← match ← peek with
    | .word "new" => construction self
    | _ => primary self hasIn
  if isOpenEnded e then return e
  -- To a pattern nothing can be attached.
  let e ← if e.isPattern then pure e else iterate (withMemberOrCall self) e
  assigned self hasIn e

/-- The node, which must not be a mere pattern. -/
private def complete (e : Concrete) : Parse Concrete := do
  require (!e.isPattern)
  return e

/-- An operand after an operator for it alone. -/
private def argument (self : Rules) (hasIn : Bool) : Parse Concrete := do
  return (← complete (← self (.operand hasIn))).asPart "argument"

/-- `yield e`; the operand may be missing, and stands on the same line. -/
private def yieldExpression (self : Rules) (hasIn : Bool) : Parse Concrete :=
  node "yield_expression" do
    keyword "yield"
    if ← symbol? "*" then return [← self (.assignment hasIn)]
    if ← onNewLine then return []
    atMostOne (self (.assignment hasIn))

/-- `<T>e`, in a language with types and without elements of markup. -/
private def typeAssertion (self : Rules) (hasIn : Bool) : Parse Concrete :=
  node "type_assertion" do
    require ((← read).language = .typescript)
    let types ← typeArguments self
    return [types, ← argument self hasIn]

/-- May an operand begin with the token? -/
private def beginsOperand : Token → Bool
  | .word w => !(["in", "instanceof", "of", "as", "satisfies"].contains w)
  | .symbol s =>
    ["(", "[", "\x7b", "\x60", "!", "~", "+", "-", "++", "--", "/", "/=", "<", "@", "#"].contains s
  | .number | .string => true
  | .finish => false

/-- An operand, with the operators for it alone. -/
def operand (self : Rules) (hasIn : Bool) : Parse Concrete := do
  skipMarkupComments
  let start ← nextOffset
  match ← peek with
  | .symbol s =>
    if ["!", "~", "+", "-"].contains s then
      symbol s
      nodeFrom start "unary_expression" [← argument self hasIn]
    else if s = "++" || s = "--" then
      symbol s
      nodeFrom start "update_expression" [← argument self hasIn]
    else if s = "<" then extended self hasIn <|> typeAssertion self hasIn
    else extended self hasIn
  | .word w =>
    if ["typeof", "void", "delete"].contains w then
      keyword w
      nodeFrom start "unary_expression" [← argument self hasIn]
    else if w = "yield" then yieldExpression self hasIn
    -- Without an operand behind it the word is a name.
    else if w = "await" && beginsOperand (← peekSecond) then
      keyword w
      nodeFrom start "await_expression" [← argument self hasIn]
    else extended self hasIn
  | _ => extended self hasIn

/-! ## Operators between operands -/

/-- An operator and the operand after it. -/
private def operation (self : Rules) (hasIn : Bool) : Parse (Operator × Concrete) := do
  match ← peek with
  | .symbol s =>
    match Operator.ofSymbol? s with
    | some op =>
      symbol s
      return (op, ← complete (← self (.operand hasIn)))
    | none => failure
  | .word w =>
    match Operator.ofWord? w with
    | some op =>
      require (hasIn || w ≠ "in")
      keyword w
      return (op, ← complete (← self (.operand hasIn)))
    | none =>
      match Operator.ofTypeWord? w with
      | some op =>
        require ((← hasTypes) && !(← onNewLine))
        keyword w
        if (← peek) = .word "const" then return (op, ← word "const")
        return (op, ← self .typing)
      | none => failure
  | _ => failure

/-- Operands with operators between them, and the choice that they may be the condition of. It
may also be a pattern. -/
def item (self : Rules) (hasIn : Bool) : Parse Concrete := do
  let start ← nextOffset
  let first ← self (.operand hasIn)
  if first.isPattern then return first
  let more ← iterate (fun more => do return (← operation self hasIn) :: more) []
  let condition := Operator.ofChain first more.reverse
  if !(← symbol? "?") then return condition
  let consequence ← self (.assignment true)
  symbol ":"
  let alternative ← self (.assignment hasIn)
  nodeFrom start "ternary_expression"
    [condition.asPart "condition", consequence.asPart "consequence",
     alternative.asPart "alternative"]

/-- An expression without commas. -/
def assignment (self : Rules) (hasIn : Bool) : Parse Concrete := do
  complete (← item self hasIn)

/-- An expression, which may be several with commas between them. -/
def expression (self : Rules) (hasIn : Bool) : Parse Concrete := do
  let start ← nextOffset
  match ← separated "," (self (.assignment hasIn)) with
  | [one] => return one
  | several => nodeFrom start "sequence_expression" several

end FlagFold.Grammar
