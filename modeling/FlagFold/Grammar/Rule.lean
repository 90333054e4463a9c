/-
  FlagFold.Grammar.Rule

  Rules of a grammar.  A rule reads a node from a cursor on, or nothing at all;
  rules that need each other are named by nonterminals, and each is written
  over the rules of all of them.
-/

import FlagFold.Concrete.Basic
import FlagFold.Grammar.LeftOut
import FlagFold.Grammar.Token
import FlagFold.Language

namespace FlagFold.Grammar

/-- What rules go by: the language, and a bound on how often something can be repeated in the
source. -/
structure Setting where
  language : Language
  limit : Nat

/-- Reads something from a cursor on; without success the cursor stays. -/
abbrev Parse := ReaderT Setting (StateT Cursor Option)

/-- The rules that others need. `hasIn` tells that `in` is an operator here: it is not where it
would end the head of a loop. -/
inductive Nonterminal where
  | statement
  | block
  | expression (hasIn : Bool)
  | assignment (hasIn : Bool)
  | item
  | operand (hasIn : Bool)
  | binding
  | typing
  | typeOperand
  | element

/-- A rule for each nonterminal. -/
abbrev Rules := Nonterminal → Parse Concrete

/-! ## Looking at what comes next -/

/-- The next token, which is not read. -/
def peek : Parse Token := do return Token.ofChars (← get).skipTrivia.rest

/-- The token after the next, if the next is a word or punctuation. -/
def peekSecond : Parse Token := do
  let c := (← get).skipTrivia
  match Token.ofChars c.rest with
  | .word s | .symbol s => return Token.ofChars (c.advance s.length).skipTrivia.rest
  | _ => return .finish

/-- Does a new line begin before the next token? -/
def onNewLine : Parse Bool := do
  let c ← get
  return (c.rest.take (triviaSize c.rest)).any endsLine

/-- Where the next token starts. -/
def nextOffset : Parse Nat := do return (← get).skipTrivia.offset

/-- Is the language one with types? -/
def hasTypes : Parse Bool := do return (← read).language ≠ .javascript

/-- Would something be read here? Nothing is. -/
def succeeds {α : Type} (item : Parse α) : Parse Bool := do
  let c ← get
  let read ← optional item
  set c
  return read.isSome

/-- Fails unless a condition holds. -/
def require (holds : Bool) : Parse Unit := if holds then pure () else failure

/-! ## Reading tokens -/

/-- Reads a given word. -/
def keyword (spelling : String) : Parse Unit := do
  require ((← peek) = .word spelling)
  modify fun c => c.skipTrivia.advance spelling.length

/-- Reads given punctuation. -/
def symbol (spelling : String) : Parse Unit := do
  require ((← peek) = .symbol spelling)
  modify fun c => c.skipTrivia.advance spelling.length

/-- Reads given characters, with nothing before them. -/
def rawText (spelling : String) : Parse Unit := do
  require ((← get).goesOn spelling)
  modify (·.advance spelling.length)

/-- Reads given characters that may begin longer punctuation. -/
def splitSymbol (spelling : String) : Parse Unit := do
  modify Cursor.skipTrivia
  rawText spelling

/-- Reads a given word if it comes next. -/
def keyword? (spelling : String) : Parse Bool := do
  return (← optional (keyword spelling)).isSome

/-- Reads given punctuation if it comes next. -/
def symbol? (spelling : String) : Parse Bool := do
  return (← optional (symbol spelling)).isSome

/-! ## Nodes -/

/-- A node from `start` up to here. -/
def nodeFrom (start : Nat) (kind : String) (children : List Concrete) : Parse Concrete := do
  return { kind, start, stop := (← get).offset, children }

/-- A node whose children are read. -/
def node (kind : String) (children : Parse (List Concrete)) : Parse Concrete := do
  let start ← nextOffset
  nodeFrom start kind (← children)

/-- A node without children, the size of which is known from the characters. -/
def leaf (kind : String) (size? : List Char → Option Nat) : Parse Concrete :=
  node kind do
    let c := (← get).skipTrivia
    match size? c.rest with
    | some size => set (c.advance size)
    | none => failure
    return []

/-- A node of a word. -/
def word (kind : String) : Parse Concrete := leaf kind wordSize?

/-- A name: a word that is not reserved. -/
def name (kind : String) : Parse Concrete := do
  require (← peek).isName
  word kind

/-- A name that nothing outside a class can see. -/
def privateName : Parse Concrete :=
  leaf "private_property_identifier" fun chars =>
    match chars with
    | '#' :: rest => (wordSize? rest).map (· + 1)
    | _ => none

/-- A string. -/
def string : Parse Concrete := leaf "string" stringSize?

/-- A number. -/
def number : Parse Concrete := leaf "number" numberSize?

/-! ## Repetition -/

/-- Applies `step` as often as it succeeds, at most `limit` times. -/
def iterateWithin {α : Type} (step : α → Parse α) : (limit : Nat) → α → Parse α
  | 0, a => pure a
  | limit + 1, a => do
    match ← optional (step a) with
    | some b => iterateWithin step limit b
    | none => pure a

/-- Applies `step` as often as it succeeds. -/
def iterate {α : Type} (step : α → Parse α) (a : α) : Parse α := do
  iterateWithin step (← read).limit a

/-- Reads items as long as there are any. -/
def many (item : Parse Concrete) : Parse (List Concrete) := do
  let items ← iterate (fun items => do return (← item) :: items) []
  return items.reverse

/-- Reads an item and further ones after a separator. -/
def separated (separator : String) (item : Parse Concrete) : Parse (List Concrete) := do
  let first ← item
  return first :: (← many (do symbol separator; item))

/-- Reads items between commas up to `close`; items may be left out. -/
def listUpTo (close : String) (item : Parse Concrete) : Parse (List Concrete) := do
  let items ← iterate (fun items => do
      match ← peek with
      | .symbol s =>
        require (s ≠ close)
        if s = "," then
          symbol ","
          return items
      | _ => pure ()
      let one ← item
      if (← peek) ≠ .symbol close then symbol ","
      return one :: items) []
  symbol close
  return items.reverse

/-- Reads items with commas between them up to `close`, before which one more comma may stand. -/
def itemsUpTo (close : String) (item : Parse Concrete) : Parse (List Concrete) := do
  if ← symbol? close then return []
  let items ← separated "," item
  let _ ← symbol? ","
  symbol close
  return items

/-- An optional item as a list. -/
def atMostOne (item : Parse Concrete) : Parse (List Concrete) := do return (← optional item).toList

/-! ## Ends of statements -/

/-- Where a semicolon that is left out here stands, if one may be. `inExpression` tells that an
operator could follow. -/
def leftOutSemicolon? (inExpression : Bool) : Parse (Option Cursor) := do
  return (← get).leftOutSemicolon? (← hasTypes) inExpression

/-- The end of a statement: a semicolon, or a place where one may be left out. -/
def endStatement (inExpression : Bool) : Parse Unit := do
  match ← leftOutSemicolon? inExpression with
  | some c => set c
  | none => symbol ";"

/-- The node reaches up to a semicolon that is left out after it, if there is such a place. -/
def upToLeftOutSemicolon (inExpression : Bool) (node : Concrete) : Parse Concrete := do
  match ← leftOutSemicolon? inExpression with
  | some c =>
    set c
    return { node with stop := c.offset }
  | none => return node

/-- Skips comments written like those of markup: they are none where an operator could follow. -/
def skipMarkupComments : Parse Unit :=
  iterate (fun _ => do
    let c := (← get).skipTrivia
    require (c.goesOn "<!--" || c.goesOn "-->")
    set (c.advance (c.rest.takeWhile (!endsLine ·)).length)) ()

end FlagFold.Grammar
