/-
  FlagFold.Grammar.Statement

  Statements and the declarations that may stand among them.
-/

import FlagFold.Grammar.TypeExpression

namespace FlagFold.Grammar

/-! ## Lists of statements -/

/-- Statements as long as there are any. -/
def statements (self : Rules) : Parse (List Concrete) := do
  let statements ← many (self .statement)
  skipMarkupComments
  return statements

/-- Statements in braces. -/
def block (self : Rules) : Parse Concrete :=
  node "statement_block" do
    symbol "\x7b"
    let statements ← statements self
    symbol "\x7d"
    return statements

/-- A block that is a statement or a part of one. -/
private def plainBlock (self : Rules) : Parse Concrete := do
  upToLeftOutSemicolon false (← self .block)

/-! ## Expressions and declarations of variables -/

/-- An expression as a statement. -/
private def expressionStatement (self : Rules) : Parse Concrete :=
  node "expression_statement" do
    let e ← self (.expression true)
    endStatement true
    return [e]

/-- One of the variables of a declaration, and its value. -/
private def declarator (self : Rules) (hasIn : Bool) : Parse Concrete :=
  node "variable_declarator" do
    let target ← self .binding
    if ← hasTypes then
      let _ ← symbol? "!"
    let type ← atMostOne (annotatedType self)
    let value ← atMostOne (initializer self hasIn)
    return target.asPart "name" :: (type ++ value)

/-- The word that begins a declaration of variables. -/
private def declarationWord : Parse Concrete := do
  match ← peek with
  | .word w =>
    require (["var", "let", "const"].contains w)
    return { (← word w) with field := some "kind", anonymous := true }
  | _ => failure

/-- The kind of a declaration that begins with a word. -/
private def declarationKind (word : Concrete) : String :=
  if word.kind = "var" then "variable_declaration" else "lexical_declaration"

/-- Does the last variable of a declaration have a value? -/
private def endsInValue (declarators : List Concrete) : Bool :=
  (declarators.getLast?.map fun d => d.children.any (·.field = some "value")).getD false

/-- A declaration of variables. -/
def variableDeclaration (self : Rules) (hasIn : Bool) : Parse Concrete := do
  let start ← nextOffset
  let word ← declarationWord
  let declarators ← separated "," (declarator self hasIn)
  endStatement (endsInValue declarators)
  nodeFrom start (declarationKind word) (word :: declarators)

/-! ## Choices -/

/-- `if (e) … else …` -/
private def ifStatement (self : Rules) : Parse Concrete :=
  node "if_statement" do
    keyword "if"
    let condition ← parenthesized self
    let consequence ← self .statement
    let alternative ← atMostOne (node "else_clause" do keyword "else"; return [← self .statement])
    return condition.asPart "condition" :: consequence.asPart "consequence" :: alternative

/-- One case of a switch. -/
private def switchCase (self : Rules) : Parse Concrete := do
  skipMarkupComments
  match ← peek with
  | .word "case" =>
    node "switch_case" do
      keyword "case"
      let value ← self (.expression true)
      symbol ":"
      return value.asPart "value" :: (← statements self)
  | _ =>
    node "switch_default" do
      keyword "default"
      symbol ":"
      statements self

/-- `switch (e) …` -/
private def switchStatement (self : Rules) : Parse Concrete :=
  node "switch_statement" do
    keyword "switch"
    let value ← parenthesized self
    let body ← node "switch_body" do
      symbol "\x7b"
      let cases ← many (switchCase self)
      skipMarkupComments
      symbol "\x7d"
      return cases
    return [value.asPart "value", body.asPart "body"]

/-! ## Loops -/

/-- `;` -/
private def emptyStatement : Parse Concrete :=
  node "empty_statement" do
    symbol ";"
    return []

/-- The variable that takes the items of a loop. -/
private def loopTarget (self : Rules) : Parse (List Concrete) := do
  match ← optional declarationWord with
  | some word =>
    let target ← self .binding
    let type ← atMostOne (annotatedType self)
    let value ← atMostOne (initializer self false)
    return word :: target.asPart "left" :: (type ++ value)
  | none =>
    match (← self (.operand false)).toTarget? with
    | some target => return [target.asPart "left"]
    | none => failure

/-- `for (x of e) …` or `for (x in e) …` -/
private def itemLoop (self : Rules) : Parse Concrete :=
  node "for_in_statement" do
    keyword "for"
    let _ ← keyword? "await"
    symbol "("
    let target ← (do
        let target ← loopTarget self
        keyword "of" <|> keyword "in"
        return target) <|>
      (do
        -- a name that is also the word of a declaration
        let target ← name "identifier"
        keyword "of" <|> keyword "in"
        return [target.asPart "left"])
    let items ← self (.expression true)
    symbol ")"
    return target ++ [items.asPart "right", (← self .statement).asPart "body"]

/-- `for (a; b; c) …` -/
private def countedLoop (self : Rules) : Parse Concrete :=
  node "for_statement" do
    keyword "for"
    symbol "("
    let part (hasIn : Bool) : Parse Concrete := do
      let e ← self (.expression hasIn)
      symbol ";"
      return e
    let first ← emptyStatement <|> variableDeclaration self false <|> part false
    let condition ← emptyStatement <|> part true
    let step ← atMostOne (self (.expression true))
    symbol ")"
    return first.asPart "initializer" :: condition.asPart "condition" ::
      (step ++ [(← self .statement).asPart "body"])

/-- `while (e) …` or `with (e) …` -/
private def guarded (self : Rules) (spelling : String) : Parse Concrete :=
  node (spelling ++ "_statement") do
    keyword spelling
    let condition ← parenthesized self
    return [condition.asPart "condition", (← self .statement).asPart "body"]

/-- `do … while (e)`, after which a semicolon may always be missing. -/
private def doStatement (self : Rules) : Parse Concrete :=
  node "do_statement" do
    keyword "do"
    let body ← self .statement
    keyword "while"
    let condition ← parenthesized self
    let _ ← optional (endStatement false)
    return [body.asPart "body", condition.asPart "condition"]

/-! ## Jumps -/

/-- `break`, `continue` and the like, and the label that may follow. -/
private def jump (spelling : String) : Parse Concrete :=
  node (spelling ++ "_statement") do
    keyword spelling
    if let some _ ← leftOutSemicolon? false then
      endStatement false
      return []
    let label ← atMostOne (name "statement_identifier")
    endStatement false
    return label

/-- `return e` -/
private def returnStatement (self : Rules) : Parse Concrete :=
  node "return_statement" do
    keyword "return"
    if let some _ ← leftOutSemicolon? false then
      endStatement false
      return []
    let e ← atMostOne (self (.expression true))
    endStatement (!e.isEmpty)
    return e

/-- `throw e` -/
private def throwStatement (self : Rules) : Parse Concrete :=
  node "throw_statement" do
    keyword "throw"
    let e ← self (.expression true)
    endStatement true
    return [e]

/-- `try … catch (e) … finally …` -/
private def tryStatement (self : Rules) : Parse Concrete :=
  node "try_statement" do
    keyword "try"
    let body ← plainBlock self
    let handler ← atMostOne do
      node "catch_clause" do
        keyword "catch"
        let parameter ← optional do
          symbol "("
          let target ← self .binding
          let type ← atMostOne (annotatedType self)
          symbol ")"
          return target.asPart "parameter" :: type
        return parameter.getD [] ++ [(← plainBlock self).asPart "body"]
    let finalizer ← atMostOne do
      node "finally_clause" do
        keyword "finally"
        return [(← plainBlock self).asPart "body"]
    return body.asPart "body" :: (handler ++ finalizer)

/-- `l: …` -/
private def labeledStatement (self : Rules) : Parse Concrete :=
  node "labeled_statement" do
    let label ← name "statement_identifier"
    symbol ":"
    return [label.asPart "label", (← self .statement).asPart "body"]

/-! ## Declarations of types -/

/-- `type A<T> = U` -/
private def typeAlias (self : Rules) : Parse Concrete :=
  node "type_alias_declaration" do
    keyword "type"
    let name ← name "type_identifier"
    let types ← atMostOne (typeParameters self)
    symbol "="
    let type ← self .typing
    endStatement false
    return name.asPart "name" :: (types ++ [type.asPart "value"])

/-- `interface A<T> extends B …` -/
private def interface (self : Rules) : Parse Concrete :=
  node "interface_declaration" do
    keyword "interface"
    let name ← name "type_identifier"
    let types ← atMostOne (typeParameters self)
    let bases ← optional do
      keyword "extends"
      separated "," (self .typing)
    return name.asPart "name" :: (types ++ bases.getD [] ++ [← typeBody self "interface_body"])

/-- `enum E …` -/
private def enumeration (self : Rules) : Parse Concrete :=
  node "enum_declaration" do
    let _ ← keyword? "const"
    keyword "enum"
    let name ← name "identifier"
    let body ← node "enum_body" do
      symbol "\x7b"
      itemsUpTo "\x7d" do
        let start ← nextOffset
        let key ← propertyName self
        match ← optional (initializer self true) with
        | some value => nodeFrom start "enum_assignment" [key.asPart "name", value]
        | none => return key
    return [name.asPart "name", body.asPart "body"]

/-- What follows the word that begins a space of names. -/
private def nameSpaceParts (self : Rules) : Parse (List Concrete) := do
  let name ← string <|> qualifiedName "identifier"
  return name.asPart "name" :: (← atMostOne (plainBlock self))

/-- `namespace N …` -/
private def nameSpace (self : Rules) : Parse Concrete :=
  node "internal_module" do
    keyword "namespace"
    nameSpaceParts self

/-- `namespace N …` as a statement: where a semicolon may end it, it is an expression. -/
private def nameSpaceStatement (self : Rules) : Parse Concrete := do
  let inner ← nameSpace self
  match ← optional (endStatement true) with
  | some () => nodeFrom inner.start "expression_statement" [inner]
  | none => return inner

/-- `module M …` -/
private def externalModule (self : Rules) : Parse Concrete :=
  node "module" do
    keyword "module"
    nameSpaceParts self

/-- A declaration that only languages with types have. -/
private def typeLevelDeclaration (self : Rules) (inExpression : Bool) : Parse Concrete := do
  match ← peek with
  | .word "type" => typeAlias self
  | .word "interface" => interface self
  | .word "enum" | .word "const" => enumeration self
  | .word "module" => externalModule self
  | .word "abstract" => classDeclaration self inExpression
  | _ => failure

/-! ## All declarations and statements -/

/-- A declaration that begins as one in every language does. `inExpression` tells that an
operator could follow a function or a class. -/
private def wordDeclaration (self : Rules) (inExpression : Bool) : Parse Concrete := do
  match ← peek with
  | .word "function" | .word "async" => functionDeclaration self inExpression
  | .word "class" | .symbol "@" => classDeclaration self inExpression
  | .word "var" | .word "const" | .word "let" => variableDeclaration self true
  | _ => failure

/-- Is what comes next a declaration in every language? Functions and classes without a name are
expressions, and `let` may be a name. -/
private def beginsDeclaration : Parse Bool := do
  match ← peek with
  | .word "function" | .word "async" => beginsNamedFunction
  | .word "class" => beginsNamedClass
  | .word "var" | .word "const" | .symbol "@" => return true
  | .word "let" =>
    match ← peekSecond with
    | .word w => return !reservedWords.contains w
    | second => return second = .symbol "[" || second = .symbol "\x7b"
  | _ => return false

/-- A declaration. `inExpression` tells that an operator could follow a function or a class. -/
def declaration (self : Rules) (inExpression : Bool) : Parse Concrete :=
  (do
    require (← hasTypes)
    typeLevelDeclaration self inExpression) <|>
  (do
    require (← beginsDeclaration)
    wordDeclaration self inExpression)

/-- `declare …` -/
private def ambientDeclaration (self : Rules) : Parse Concrete :=
  node "ambient_declaration" do
    keyword "declare"
    let global := node "global" do
      keyword "global"
      return [← plainBlock self]
    return [← global <|> nameSpace self <|> declaration self false]

/-- A declaration that an export may hold. -/
def exportedDeclaration (self : Rules) : Parse Concrete :=
  (do
    require (← hasTypes)
    ambientDeclaration self <|> nameSpace self) <|>
  declaration self false

/-- A statement that begins with a certain word. -/
private def statementOf? (self : Rules) : String → Option (Parse Concrete)
  | "if" => some (ifStatement self)
  | "switch" => some (switchStatement self)
  | "for" => some (itemLoop self <|> countedLoop self)
  | "while" => some (guarded self "while")
  | "with" => some (guarded self "with")
  | "do" => some (doStatement self)
  | "try" => some (tryStatement self)
  | "break" => some (jump "break")
  | "continue" => some (jump "continue")
  | "debugger" => some (jump "debugger")
  | "return" => some (returnStatement self)
  | "throw" => some (throwStatement self)
  | _ => none

/-- A statement that only languages with types have. -/
private def typedStatement (self : Rules) : Parse Concrete := do
  require (← hasTypes)
  nameSpaceStatement self <|> ambientDeclaration self <|> typeLevelDeclaration self true

/-- A statement other than an import or an export. -/
def plainStatement (self : Rules) : Parse Concrete := do
  match ← peek with
  | .symbol "\x7b" => plainBlock self
  | .symbol ";" => emptyStatement
  | .word w =>
    if (← peekSecond) = .symbol ":" then labeledStatement self
    else
      match statementOf? self w with
      | some statement => statement
      | none =>
        typedStatement self <|> do
          if ← beginsDeclaration then wordDeclaration self true else expressionStatement self
  | _ =>
    if ← beginsDeclaration then wordDeclaration self true else expressionStatement self

end FlagFold.Grammar
