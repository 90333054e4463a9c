/-
  FlagFold.Grammar.Function

  Bindings, parameters, functions and classes.
-/

import FlagFold.Grammar.Rule

namespace FlagFold.Grammar

/-! ## Types beside names -/

/-- `: T`, in a language with types. -/
def annotatedType (self : Rules) : Parse Concrete :=
  node "type_annotation" do
    require (← hasTypes)
    symbol ":"
    return [← self .typing]

/-- `extends T` and `= T` after a parameter that stands for a type. -/
private def typeParameter (self : Rules) : Parse Concrete :=
  node "type_parameter" do
    for modifier in ["const", "in", "out"] do
      if (← peek) = .word modifier then
        if let .word _ := ← peekSecond then keyword modifier
    let name ← name "type_identifier"
    let constraint ← atMostOne (node "constraint" do keyword "extends"; return [← self .typing])
    let standard ← atMostOne (node "default_type" do symbol "="; return [← self .typing])
    return name :: (constraint ++ standard)

/-- `<T, U>`, in a language with types. -/
def typeParameters (self : Rules) : Parse Concrete :=
  node "type_parameters" do
    require (← hasTypes)
    symbol "<"
    let parameters ← separated "," (typeParameter self)
    let _ ← symbol? ","
    splitSymbol ">"
    return parameters

/-- `<T, U>` as arguments, in a language with types. -/
def typeArguments (self : Rules) : Parse Concrete :=
  node "type_arguments" do
    require (← hasTypes)
    splitSymbol "<"
    let types ← separated "," (self .typing)
    let _ ← symbol? ","
    splitSymbol ">"
    return types

/-! ## Bindings -/

/-- `= e`, as the given part. -/
def initializer (self : Rules) (hasIn : Bool) : Parse Concrete := do
  symbol "="
  return (← self (.assignment hasIn)).asPart "value"

/-- A binding with what it stands for when there is no value. -/
private def bindingWithDefault (self : Rules) : Parse Concrete := do
  let start ← nextOffset
  let left ← self .binding
  match ← optional (initializer self true) with
  | some right => nodeFrom start "assignment_pattern" [left.asPart "left", right.asPart "right"]
  | none => return left

/-- `...b` -/
private def restBinding (self : Rules) : Parse Concrete :=
  node "rest_pattern" do
    symbol "..."
    return [← self .binding]

/-- The name of a property or of a member of a class. -/
def propertyName (self : Rules) : Parse Concrete := do
  match ← peek with
  | .word _ => word "property_identifier"
  | .string => string
  | .number => number
  | .symbol "[" =>
    node "computed_property_name" do
      symbol "["
      let e ← self (.assignment true)
      symbol "]"
      return [e]
  | _ => privateName

/-- One property of an object that is taken apart. -/
private def propertyBinding (self : Rules) : Parse Concrete := do
  match ← peek with
  | .symbol "..." => restBinding self
  | _ =>
    let start ← nextOffset
    let first ← peek
    let key ← propertyName self
    if ← symbol? ":" then
      let value ← bindingWithDefault self
      nodeFrom start "pair_pattern" [key.asPart "key", value.asPart "value"]
    else
      require first.isName
      let left := { key with kind := "shorthand_property_identifier_pattern" }
      match ← optional (initializer self true) with
      | some right =>
        nodeFrom start "object_assignment_pattern" [left.asPart "left", right.asPart "right"]
      | none => return left

/-- What a declaration gives names to: a name, or an array or an object taken apart. -/
def binding (self : Rules) : Parse Concrete := do
  match ← peek with
  | .symbol "[" =>
    node "array_pattern" do
      symbol "["
      listUpTo "]" (restBinding self <|> bindingWithDefault self)
  | .symbol "\x7b" =>
    node "object_pattern" do
      symbol "\x7b"
      listUpTo "\x7d" (propertyBinding self)
  | _ => name "identifier"

/-! ## Decorators -/

/-- `@d`, `@a.b`, `@f(x)` or `@(e)` -/
private def decorator (self : Rules) : Parse Concrete :=
  node "decorator" do
    symbol "@"
    return [← self (.operand true)]

/-- The decorators before a class or one of its members. -/
def decorators (self : Rules) : Parse (List Concrete) := many (decorator self)

/-! ## Parameters -/

/-- Reads words before a name, and tells which. A word is itself the name if none comes after
it. -/
def modifiers (words : List String) : Parse (List String) :=
  iterate (fun found => do
    match ← peek with
    | .symbol s =>
      require (s = "*")
      symbol "*"
      return s :: found
    | .word w =>
      require (words.contains w)
      match ← peekSecond with
      | .word _ | .string | .number | .symbol "[" | .symbol "#" | .symbol "*"
      | .symbol "\x7b" => keyword w; return w :: found
      | _ => failure
    | _ => failure) []

/-- The words before a parameter that make it a field of the object. -/
private def parameterModifiers : List String :=
  ["public", "private", "protected", "readonly", "override"]

/-- One parameter of a function. -/
private def parameter (self : Rules) : Parse Concrete := do
  let start ← nextOffset
  let decorations ← decorators self
  if ← hasTypes then
    let _ ← modifiers parameterModifiers
    let pattern ← restBinding self <|> self .binding <|> this
    let mark ← symbol? "?"
    let type ← atMostOne (annotatedType self)
    let value ← atMostOne (initializer self true)
    nodeFrom start (if mark then "optional_parameter" else "required_parameter")
      (decorations ++ pattern.asPart "pattern" :: (type ++ value))
  else
    restBinding self <|> bindingWithDefault self
where
  /-- `this`, the type of which a function may tell. -/
  this : Parse Concrete := do
    require ((← peek) = .word "this")
    word "this"

/-- `(a, b)`, the parameters of a function. -/
def parameters (self : Rules) : Parse Concrete :=
  node "formal_parameters" do
    symbol "("
    itemsUpTo ")" (parameter self)

/-- What a function takes and gives. -/
def signature (self : Rules) : Parse (List Concrete) := do
  let types ← atMostOne (typeParameters self)
  let parameters ← parameters self
  let result ← atMostOne (annotatedType self)
  return types ++ parameters.asPart "parameters" :: result

/-- The body of a function. `inExpression` tells that an operator could follow. -/
def functionBody (self : Rules) (inExpression : Bool) : Parse Concrete := do
  return (← upToLeftOutSemicolon inExpression (← self .block)).asPart "body"

/-! ## Functions -/

/-- The words `async function` and the mark of a generator, which is told. -/
private def functionHead : Parse Bool := do
  let _ ← keyword? "async"
  keyword "function"
  symbol? "*"

/-- Does a function with a name begin here? -/
def beginsNamedFunction : Parse Bool :=
  succeeds do
    let _ ← functionHead
    name "identifier"

/-- A function as an expression. -/
def functionExpression (self : Rules) : Parse Concrete := do
  let start ← nextOffset
  let isGenerator ← functionHead
  let name ← atMostOne (name "identifier")
  let signature ← signature self
  let body ← functionBody self true
  nodeFrom start (if isGenerator then "generator_function" else "function_expression")
    (name ++ signature ++ [body])

/-- A function as a declaration; one without a body tells only its type. `inExpression` tells
that an operator could follow. -/
def functionDeclaration (self : Rules) (inExpression : Bool) : Parse Concrete := do
  let start ← nextOffset
  let isGenerator ← functionHead
  let name ← name "identifier"
  let signature ← signature self
  let kind := if isGenerator then "generator_function_declaration" else "function_declaration"
  match ← optional (functionBody self inExpression) with
  | some body => nodeFrom start kind (name.asPart "name" :: (signature ++ [body]))
  | none =>
    require (← hasTypes)
    endStatement false
    nodeFrom start "function_signature" (name.asPart "name" :: signature)

/-- `x => e` or `(x, y) => e` -/
def arrowFunction (self : Rules) (hasIn : Bool) : Parse Concrete :=
  node "arrow_function" do
    if (← peek) = .word "async" then
      if (← peekSecond) ≠ .symbol "=>" then keyword "async"
    let parameters ← match ← peek with
      | .word _ => do pure [← name "identifier"]
      | _ => signature self
    symbol "=>"
    match ← peek with
    | .symbol "\x7b" => return parameters ++ [← functionBody self true]
    | _ => return parameters ++ [(← self (.assignment hasIn)).asPart "body"]

/-! ## Classes -/

/-- What stands before a method alone. -/
def methodModifiers : List String := ["async", "get", "set", "*"]

/-- The words before a member of a class. -/
private def memberModifiers (hasTypes : Bool) : List String :=
  "static" :: methodModifiers ++
    if hasTypes then
      ["public", "private", "protected", "readonly", "override", "abstract", "declare", "accessor"]
    else []

/-- `static { … }` -/
private def staticBlock (self : Rules) : Parse Concrete :=
  node "class_static_block" do
    keyword "static"
    require ((← peek) = .symbol "\x7b")
    return [← functionBody self false]

/-- A method, from what follows its name on; `head` holds its decorators and its name. -/
def method (self : Rules) (start : Nat) (head : List Concrete) : Parse Concrete := do
  let signature ← signature self
  let body ← functionBody self false
  nodeFrom start "method_definition" (head ++ signature ++ [body])

/-- A member of a class without a body: a field, or in a language with types a method of which
only the type is told. -/
private def field (self : Rules) (start : Nat) (head : List Concrete) : Parse Concrete := do
  let hasTypes ← hasTypes
  if hasTypes then
    match ← optional (signature self) with
    | some signature =>
      return ← nodeFrom start "method_signature" (head ++ signature)
    | none => let _ ← symbol? "!"
  let type ← atMostOne (annotatedType self)
  let value ← atMostOne (initializer self true)
  let field ← nodeFrom start (if hasTypes then "public_field_definition" else "field_definition")
    (head ++ type ++ value)
  endStatement (!value.isEmpty)
  return field

/-- `[key: K]: T` among the members of a class. -/
private def indexSignature (self : Rules) : Parse Concrete :=
  node "index_signature" do
    require (← hasTypes)
    let _ ← modifiers (memberModifiers true)
    symbol "["
    let name ← name "identifier"
    symbol ":"
    let key ← self .typing
    symbol "]"
    return [name, key, ← annotatedType self]

/-- One member of a class. -/
private def classMember (self : Rules) : Parse Concrete := do
  let start ← nextOffset
  staticBlock self <|> indexSignature self <|> do
    let decorations ← decorators self
    let found ← modifiers (memberModifiers (← hasTypes))
    let head := decorations ++ [(← propertyName self).asPart "name"]
    if ← hasTypes then
      let _ ← symbol? "?"
    if found.any methodModifiers.contains && !(← hasTypes) then method self start head
    else method self start head <|> field self start head

/-- The members of a class in braces. -/
private def classBody (self : Rules) : Parse Concrete :=
  node "class_body" do
    symbol "\x7b"
    let members ← iterate (fun members => do
      skipMarkupComments
      match ← peek with
      | .symbol ";" => symbol ";"; return members
      | _ => return (← classMember self) :: members) []
    skipMarkupComments
    symbol "\x7d"
    return members.reverse

/-- `extends e` and, in a language with types, `implements T`. -/
private def heritage (self : Rules) : Parse Concrete :=
  node "class_heritage" do
    let base ← atMostOne (do keyword "extends"; self (.operand true))
    let arguments ← if base.isEmpty then pure [] else atMostOne (typeArguments self)
    let types ← optional do
      require (← hasTypes)
      keyword "implements"
      separated "," (self .typing)
    require (!(base.isEmpty && types.isNone))
    return base ++ arguments ++ types.getD []

/-- The parts of a class after its decorators. -/
private def classParts (self : Rules) (named : Bool) : Parse (List Concrete) := do
  keyword "class"
  let nameKind := if ← hasTypes then "type_identifier" else "identifier"
  let name ← match ← peek with
    | .word "implements" => pure []
    | _ => atMostOne (name nameKind)
  require (!(named && name.isEmpty))
  let types ← atMostOne (typeParameters self)
  let heritage ← atMostOne (heritage self)
  return name ++ types ++ heritage ++ [(← classBody self).asPart "body"]

/-- Does a class with a name begin here, its decorators aside? -/
def beginsNamedClass : Parse Bool :=
  succeeds do
    keyword "class"
    name "identifier"

/-- A class as an expression. -/
def classExpression (self : Rules) : Parse Concrete :=
  node "class" do
    let decorations ← decorators self
    return decorations ++ (← classParts self false)

/-- A class as a declaration. `inExpression` tells that an operator could follow. -/
def classDeclaration (self : Rules) (inExpression : Bool) : Parse Concrete := do
  let declaration ← node "class_declaration" do
    let decorations ← decorators self
    if ← hasTypes then
      let _ ← keyword? "abstract"
    return decorations ++ (← classParts self true)
  upToLeftOutSemicolon inExpression declaration

end FlagFold.Grammar
