/-
  FlagFold.Grammar.TypeExpression

  Types, of the languages that have them.
-/

import FlagFold.Grammar.Expression

namespace FlagFold.Grammar

/-! ## Members of object types -/

/-- The words before a member of an object type. -/
private def typeMemberModifiers : List String := ["get", "set", "readonly", "static"]

/-- `[K in T]`, `[key: K]` or a computed name. -/
private def bracketedKey (self : Rules) : Parse Concrete :=
  (node "mapped_type_clause" do
    symbol "["
    let name ← name "type_identifier"
    keyword "in"
    let keys ← self .typing
    let newName ← atMostOne (do keyword "as"; self .typing)
    symbol "]"
    return name :: keys :: newName) <|>
  (node "index_signature" do
    symbol "["
    let name ← name "identifier"
    symbol ":"
    let key ← self .typing
    symbol "]"
    return [name, key]) <|>
  propertyName self

/-- Skips a sign before a modifier or a mark, as in `-readonly` and `+?`. -/
private def skipSign : Parse Unit := do
  let _ ← optional (symbol "+" <|> symbol "-")

/-- One member of an object type. -/
private def typeMember (self : Rules) : Parse Concrete := do
  let start ← nextOffset
  match ← peek with
  | .symbol "(" | .symbol "<" => nodeFrom start "call_signature" (← signature self)
  | _ =>
    let construct := do
      let _ ← keyword? "abstract"
      keyword "new"
      nodeFrom start "construct_signature" (← signature self)
    construct <|> do
      skipSign
      let _ ← modifiers typeMemberModifiers
      let key ← bracketedKey self
      skipSign
      let _ ← symbol? "?"
      match ← optional (signature self) with
      | some signature => nodeFrom start "method_signature" (key.asPart "name" :: signature)
      | none =>
        let type ← atMostOne (annotatedType self)
        nodeFrom start "property_signature" (key.asPart "name" :: type)

/-- Members of an object type in braces, with commas, semicolons or ends of lines between. -/
def typeBody (self : Rules) (kind : String) : Parse Concrete :=
  node kind do
    symbol "\x7b"
    let members ← iterate (fun members => do
      match ← peek with
      | .symbol "," => symbol ","; return members
      | .symbol ";" => symbol ";"; return members
      | _ => return (← typeMember self) :: members) []
    symbol "\x7d"
    return members.reverse

/-! ## Types of one operand -/

/-- A name, which may be one in several spaces of names. -/
def qualifiedName (kind : String) : Parse Concrete := do
  let first ← name "identifier"
  let qualified ← iterate (fun left => do
    symbol "."
    nodeFrom left.start "nested_identifier" [left, ← word "property_identifier"]) first
  return if qualified.kind = "identifier" then { qualified with kind } else qualified

/-- The words that are types. -/
private def typeWords : List String :=
  ["any", "number", "boolean", "string", "symbol", "unique", "void", "unknown", "never", "object",
   "bigint"]

/-- A type with a name, and its arguments. -/
private def namedType (self : Rules) : Parse Concrete := do
  let start ← nextOffset
  let name ← qualifiedName "type_identifier"
  match ← optional (typeArguments self) with
  | some arguments => nodeFrom start "generic_type" [name, arguments]
  | none => return name

/-- `typeof a.b`, the type of a value. -/
private def valueType (self : Rules) : Parse Concrete :=
  node "type_query" do
    keyword "typeof"
    let start ← nextOffset
    let first ← name "identifier" <|> (do require ((← peek) = .word "this"); word "this") <|>
      (do
        let callee ← (do require ((← peek) = .word "import"); word "import")
        symbol "("
        let module ← string
        symbol ")"
        let arguments ← nodeFrom module.start "arguments" [module]
        nodeFrom start "call_expression"
          [callee.asPart "function", arguments.asPart "arguments"])
    let value ← iterate (fun value => do
      symbol "."
      let property ← word "property_identifier" <|> privateName
      nodeFrom start "member_expression" [value.asPart "object", property.asPart "property"]) first
    return value :: (← atMostOne (typeArguments self))

/-- `import('a').B` -/
private def importedType (self : Rules) : Parse Concrete :=
  node "import_type" do
    keyword "import"
    symbol "("
    let module ← string
    symbol ")"
    let _ ← many do
      symbol "."
      word "type_identifier"
    return module :: (← atMostOne (typeArguments self))

/-- The element of a tuple: it may have a name, be optional, or stand for several. -/
private def tupleElement (self : Rules) : Parse Concrete :=
  node "tuple_element" do
    let _ ← symbol? "..."
    let named ← optional do
      let name ← name "identifier"
      let _ ← symbol? "?"
      symbol ":"
      return name
    let type ← self .typing
    let _ ← symbol? "?"
    return named.toList ++ [type]

/-- A template whose substitutions are types. -/
private def templateType (self : Rules) : Parse Concrete :=
  node "template_literal_type" do
    symbol "\x60"
    let skipText : Parse Unit := modify fun c => c.advance (run templateItemSize? c.rest)
    skipText
    let types ← many do
      let start := (← get).offset
      rawText "$\x7b"
      let type ← self .typing
      symbol "\x7d"
      let substitution ← nodeFrom start "template_type" [type]
      skipText
      return substitution
    rawText "\x60"
    return types

/-- `(a: T) => U` or `new (a: T) => U` -/
private def functionType (self : Rules) : Parse Concrete :=
  node "function_type" do
    let _ ← keyword? "abstract"
    let _ ← keyword? "new"
    let types ← atMostOne (typeParameters self)
    let parameters ← parameters self
    symbol "=>"
    return types ++ [parameters, ← self .typing]

/-- A type that stands for itself. -/
private def primaryType (self : Rules) : Parse Concrete := do
  match ← peek with
  | .string => node "literal_type" do return [← string]
  | .number => leaf "literal_type" numberSize?
  | .symbol "-" => node "literal_type" do symbol "-"; return [← number]
  | .symbol "\x60" => templateType self
  | .symbol "\x7b" => typeBody self "object_type"
  | .symbol "[" =>
    node "tuple_type" do
      symbol "["
      listUpTo "]" (tupleElement self)
  | .symbol "<" => functionType self
  | .symbol "(" =>
    functionType self <|>
      node "parenthesized_type" do
        symbol "("
        let type ← self .typing
        symbol ")"
        return [type]
  | .word w =>
    if w = "typeof" then valueType self
    else if w = "import" then importedType self
    else if w = "new" then functionType self
    else if ["true", "false", "null", "undefined"].contains w then
      node "literal_type" do return [← word w]
    else if w = "this" then word "this_type"
    else if typeWords.contains w then
      match ← peekSecond with
      | .symbol "." | .symbol "<" => namedType self
      | _ => word "predefined_type"
    else if w = "void" then word "predefined_type"
    else if w = "abstract" then functionType self <|> namedType self
    else namedType self
  | _ => failure

/-- A type as an element of an array, or as what has members. -/
private def withIndex (self : Rules) (type : Concrete) : Parse Concrete := do
  require !(← onNewLine)
  symbol "["
  let key ← atMostOne (self .typing)
  symbol "]"
  nodeFrom type.start (if key.isEmpty then "array_type" else "lookup_type") (type :: key)

/-- The words before a type that make another one of it. -/
private def typeOperatorKind? : String → Option String
  | "keyof" => some "index_type_query"
  | "readonly" => some "readonly_type"
  | "unique" => some "unique_type"
  | _ => none

/-- `infer T`, a type that a condition finds. -/
private def inferredType (self : Rules) : Parse Concrete :=
  node "infer_type" do
    keyword "infer"
    let name ← name "type_identifier"
    return name :: (← atMostOne (do keyword "extends"; self .typeOperand))

/-- A type with the words before it and the brackets after it. -/
def typeOperand (self : Rules) : Parse Concrete := do
  let prefixed : Parse Concrete := do
    match ← peek with
    | .word w =>
      match typeOperatorKind? w with
      | some kind => node kind do keyword w; return [← self .typeOperand]
      | none => failure
    | _ => failure
  prefixed <|> inferredType self <|> do iterate (withIndex self) (← primaryType self)

/-! ## Types of several operands -/

/-- Types with a symbol between them, which may also stand before the first. -/
private def joined (sign kind : String) (operand : Parse Concrete) : Parse Concrete := do
  let start ← nextOffset
  let _ ← symbol? sign
  match ← separated sign operand with
  | [one] => return one
  | several => nodeFrom start kind several

/-- `x is T`, `asserts x` or `asserts x is T`, as the type of what a function gives. -/
private def predicateType (self : Rules) : Parse Concrete :=
  node "type_predicate" do
    let asserts ← (do
      require ((← peek) = .word "asserts")
      match ← peekSecond with
      | .word w => require (w ≠ "is")
      | _ => failure
      keyword "asserts"
      return true) <|> pure false
    let subject ← name "identifier" <|> (do require ((← peek) = .word "this"); word "this")
    let type ← optional do
      require !(← onNewLine)
      keyword "is"
      self .typing
    require (asserts || type.isSome)
    return subject :: type.toList

/-- A type. -/
def typing (self : Rules) : Parse Concrete := do
  predicateType self <|> do
    let start ← nextOffset
    let type ← joined "|" "union_type" (joined "&" "intersection_type" (self .typeOperand))
    let conditional : Parse Concrete := do
      require !(← onNewLine)
      keyword "extends"
      let bound ← joined "|" "union_type" (joined "&" "intersection_type" (self .typeOperand))
      symbol "?"
      let consequence ← self .typing
      symbol ":"
      nodeFrom start "conditional_type" [type, bound, consequence, ← self .typing]
    conditional <|> pure type

end FlagFold.Grammar
