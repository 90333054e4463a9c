/-
  FlagFold.Grammar.Markup

  Elements of markup within expressions.
-/

import FlagFold.Grammar.Expression

namespace FlagFold.Grammar

/-- The number of characters of a word in which hyphens may stand. -/
private def hyphenatedSize? (chars : List Char) : Option Nat :=
  (wordSize? chars).map fun _ => (chars.takeWhile fun c => inName c || c = '-').length

/-- The name of an element or of an attribute: it may have a space of names before a colon. -/
private def markupName (kind : String) : Parse Concrete := do
  let first ← leaf kind hyphenatedSize?
  match ← optional (do symbol ":"; leaf kind hyphenatedSize?) with
  | some second => nodeFrom first.start "jsx_namespace_name" [first, second]
  | none => return first

/-- The name of an element, which may be a member of something. -/
private def elementName : Parse Concrete := do
  let name ← iterate (fun e => do
    symbol "."
    let property ← word "property_identifier"
    nodeFrom e.start "member_expression" [e.asPart "object", property.asPart "property"])
    (← markupName "identifier")
  return name.asPart "name"

/-- The number of characters of a string in markup, where nothing is escaped. -/
private def markupStringSize? : List Char → Option Nat
  | quote :: rest =>
    let size := (rest.takeWhile (· ≠ quote)).length
    if (quote = '\'' || quote = '"') && size < rest.length then some (size + 2) else none
  | [] => none

/-- `{e}`, where the expression may be missing or be spread. -/
private def substitution (self : Rules) : Parse Concrete :=
  node "jsx_expression" do
    symbol "\x7b"
    let spread := node "spread_element" do
      symbol "..."
      return [← self (.assignment true)]
    let e ← atMostOne (spread <|> self (.expression true))
    symbol "\x7d"
    return e

/-- One attribute of an element. -/
private def elementProperty (self : Rules) : Parse Concrete := do
  let property ← substitution self <|> node "jsx_attribute" do
    let name ← markupName "property_identifier"
    let value ← atMostOne do
      symbol "="
      leaf "string" markupStringSize? <|> substitution self <|> self .element
    return name :: value
  return property.asPart "attribute"

/-- Text between elements: up to a brace or an angle, and at least one character. -/
private def markupText : Parse Concrete := do
  let start := (← get).offset
  let size := ((← get).rest.takeWhile fun c => !"<>\x7b\x7d".toList.contains c).length
  require (size ≠ 0)
  modify (·.advance size)
  nodeFrom start "jsx_text" []

/-- `</a>` -/
private def closingTag : Parse Concrete :=
  node "jsx_closing_element" do
    splitSymbol "<"
    splitSymbol "/"
    let name ← atMostOne elementName
    splitSymbol ">"
    return name

/-- An element of markup. -/
def element (self : Rules) : Parse Concrete := do
  let start ← nextOffset
  splitSymbol "<"
  let name ← atMostOne elementName
  let types ← atMostOne (typeArguments self)
  let properties ← many (elementProperty self)
  if ← symbol? "/" then
    require !name.isEmpty
    splitSymbol ">"
    nodeFrom start "jsx_self_closing_element" (name ++ types ++ properties)
  else
    splitSymbol ">"
    let opening ← nodeFrom start "jsx_opening_element" (name ++ types ++ properties)
    let contents ← many (markupText <|> substitution self <|> self .element)
    let closing ← closingTag
    nodeFrom start "jsx_element" (opening :: (contents ++ [closing]))

end FlagFold.Grammar
