/-
  FlagFold.Grammar.ModuleItem

  Imports and exports, and the statements of a module.
-/

import FlagFold.Grammar.Statement

namespace FlagFold.Grammar

/-! ## Names across modules -/

/-- The name of what a module gives: it may be a string. -/
private def moduleName : Parse Concrete := do
  match ← peek with
  | .string => string
  | _ => word "identifier"

/-- The word that marks an import or an export of types alone. -/
private def skipTypeWord : Parse Unit := do
  require (← hasTypes)
  keyword "type" <|> keyword "typeof"

/-- A part that may have the mark of types before it. -/
private def typeMarked (part : Parse Concrete) : Parse Concrete :=
  (do skipTypeWord; part) <|> part

/-- `from 'm'` -/
private def sourceClause : Parse Concrete := do
  keyword "from"
  return (← string).asPart "source"

/-- `with …` after the source of an import or an export. -/
private def importAttribute (self : Rules) : Parse Concrete :=
  node "import_attribute" do
    keyword "with" <|> keyword "assert"
    return [← self (.operand true)]

/-! ## Imports -/

/-- `a as b` among the names of an import. -/
private def importedName : Parse Concrete :=
  node "import_specifier" do
    let renamed : Parse (List Concrete) := do
      let source ← moduleName
      keyword "as"
      return [source.asPart "name", (← name "identifier").asPart "alias"]
    let plain : Parse (List Concrete) := do
      return [(← name "identifier").asPart "name"]
    let either := renamed <|> plain
    let followed (p : Parse (List Concrete)) : Parse (List Concrete) := do
      let parts ← p
      match ← peek with
      | .symbol "," | .symbol "\x7d" => return parts
      | _ => failure
    followed either <|> (do skipTypeWord; followed either)

/-- `* as n` -/
private def namespaceImport : Parse Concrete :=
  node "namespace_import" do
    symbol "*"
    keyword "as"
    return [← name "identifier"]

/-- The names of an import in braces. -/
private def namedImports : Parse Concrete :=
  node "named_imports" do
    symbol "\x7b"
    itemsUpTo "\x7d" importedName

/-- What an import gives names to. -/
private def importClause : Parse Concrete :=
  node "import_clause" do
    let group := namespaceImport <|> namedImports
    match ← peek with
    | .word _ =>
      let main ← name "identifier"
      if ← symbol? "," then return [main, ← group]
      return [main]
    | _ => return [← group]

/-- `a = require('m')`, in a language with types. -/
private def requireClause : Parse Concrete :=
  node "import_require_clause" do
    require (← hasTypes)
    let name ← name "identifier"
    symbol "="
    keyword "require"
    symbol "("
    let source ← string
    symbol ")"
    return [name, source.asPart "source"]

/-- An import. -/
private def importStatement (self : Rules) : Parse Concrete :=
  node "import_statement" do
    keyword "import"
    let fromModule : Parse (List Concrete) := do
      let clause ← importClause
      return [clause, ← sourceClause]
    let forEffect : Parse (List Concrete) := do return [(← string).asPart "source"]
    let whole := fromModule <|> forEffect <|> (do return [← requireClause])
    let parts ← (do skipTypeWord; whole) <|> whole
    let attributes ← atMostOne (importAttribute self)
    endStatement false
    return parts ++ attributes

/-- `import a = b.c`, in a language with types. -/
private def importAlias : Parse Concrete :=
  node "import_alias" do
    require (← hasTypes)
    keyword "import"
    let _ ← optional skipTypeWord
    let name ← name "identifier"
    symbol "="
    let target ← qualifiedName "identifier"
    endStatement false
    return [name, target]

/-! ## Exports -/

/-- `a as b` among the names of an export. -/
private def exportedName : Parse Concrete :=
  typeMarked do
    node "export_specifier" do
      let source ← moduleName
      let newName ← atMostOne (do keyword "as"; return (← moduleName).asPart "alias")
      match ← peek with
      | .symbol "," | .symbol "\x7d" => return source.asPart "name" :: newName
      | _ => failure

/-- The names of an export in braces. -/
private def exportClause : Parse Concrete :=
  node "export_clause" do
    symbol "\x7b"
    itemsUpTo "\x7d" (exportedName <|> node "export_specifier" do return [← moduleName])

/-- Names that an export passes on. -/
private def exportOfNames (self : Rules) : Parse (List Concrete) := do
  let _ ← optional do
    skipTypeWord
    match ← peek with
    | .symbol "*" | .symbol "\x7b" => pure ()
    | _ => failure
  let all : Parse (List Concrete) := do
    let renamed := node "namespace_export" do
      symbol "*"
      keyword "as"
      return [← moduleName]
    let clause ← (do return [← renamed]) <|> (do symbol "*"; return [])
    return clause ++ [← sourceClause]
  let chosen : Parse (List Concrete) := do
    let clause ← exportClause
    return clause :: (← atMostOne sourceClause)
  let parts ← all <|> chosen
  let attributes ← atMostOne (importAttribute self)
  endStatement false
  return parts ++ attributes

/-- The main export of a module. -/
private def exportOfDefault (self : Rules) : Parse (List Concrete) := do
  keyword "default"
  let value : Parse Concrete := do
    let e ← self (.assignment true)
    endStatement true
    return e.asPart "value"
  let declared : Parse Concrete := do
    match ← peek with
    | .word "var" | .word "let" | .word "const" | .word "type" | .word "enum" => failure
    | _ => return (← declaration self true).asPart "declaration"
  return [← declared <|> value]

/-- Exports that only languages with types have. -/
private def typedExport (self : Rules) : Parse (List Concrete) := do
  require (← hasTypes)
  match ← peek with
  | .symbol "=" =>
    symbol "="
    let e ← self (.expression true)
    endStatement true
    return [e]
  | .word "as" =>
    keyword "as"
    keyword "namespace"
    let name ← name "identifier"
    endStatement false
    return [name]
  | .word "import" => return [(← importAlias).asPart "declaration"]
  | _ => failure

/-- An export. -/
private def exportStatement (self : Rules) : Parse Concrete :=
  node "export_statement" do
    let decorations ← decorators self
    keyword "export"
    let declared : Parse (List Concrete) := do
      return [(← exportedDeclaration self).asPart "declaration"]
    let parts ← exportOfDefault self <|> exportOfNames self <|> typedExport self <|> declared
    return decorations ++ parts

/-! ## Statements of a module -/

/-- A statement. -/
def statement (self : Rules) : Parse Concrete := do
  skipMarkupComments
  match ← peek with
  | .word "import" =>
    match ← peekSecond with
    | .symbol "(" | .symbol "." | .symbol "<" => plainStatement self
    | _ => importStatement self <|> importAlias
  | .word "export" => exportStatement self
  | .symbol "@" => plainStatement self <|> exportStatement self
  | _ => plainStatement self

/-- The line at the start of a source that names what runs it. -/
private def firstLine : Parse Concrete := do
  let c ← get
  require (c.goesOn "#!")
  set (c.advance (c.rest.takeWhile (· ≠ '\n')).length)
  nodeFrom c.offset "hash_bang_line" []

/-- A whole source. -/
def program (self : Rules) : Parse Concrete :=
  node "program" do
    let line ← atMostOne firstLine
    let statements ← statements self
    require ((← peek) = .finish)
    return line ++ statements

end FlagFold.Grammar
