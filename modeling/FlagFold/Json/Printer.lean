/-
  FlagFold.Json.Printer

  Writes JSON values: on one line, or with each member and item on a line of its
  own.  What is not printable ASCII is escaped, beyond U+FFFF as a surrogate
  pair.  A third form shows a value inside a message.
-/

import FlagFold.Json.Basic
import FlagFold.Text.Quoted

namespace FlagFold.Json

/-- One UTF-16 code unit, escaped. -/
private def escapedUnit (n : Nat) : Text := text "\\u" ++ Text.hex 4 n

/-- One code point inside a string. -/
def escaped (c : CodePoint) : Text :=
  if c = '"' ∨ c = '\\' then ['\\', c]
  else if c = '\n' then text "\\n"
  else if c = '\r' then text "\\r"
  else if c = '\t' then text "\\t"
  else if c = '\x0c' then text "\\f"
  else if c = '\x08' then text "\\b"
  else if 0x20 ≤ c.value ∧ c.value ≤ 0x7E then [c]
  else if c.value < 0x10000 then escapedUnit c.value
  else escapedUnit (0xD800 + (c.value - 0x10000) / 0x400) ++
    escapedUnit (0xDC00 + (c.value - 0x10000) % 0x400)

/-- A string between double quotes. -/
def string (t : Text) : Text := text "\"" ++ t.flatMap escaped ++ text "\""

/-- How the parts of arrays and objects are set out. -/
inductive Layout where
  | oneLine
  | indented
  deriving DecidableEq

/-- A line break and the indentation of a level, where the layout has them. -/
private def Layout.break (layout : Layout) (level : Nat) : Text :=
  match layout with
  | .oneLine => []
  | .indented => text "\n" ++ List.replicate (2 * level) (CodePoint.ofChar ' ')

/-- What stands between two parts. -/
private def Layout.comma (layout : Layout) : Text :=
  match layout with
  | .oneLine => text ", "
  | .indented => text ","

mutual

/-- The text of a value at an indentation level. -/
def printAt (layout : Layout) (level : Nat) : Json → Text
  | null => text "null"
  | bool b => if b then text "true" else text "false"
  | int i => Text.ofInt i
  | real x => text x.toString
  | str t => string t
  | arr [] => text "[]"
  | arr (item :: items) =>
    text "[" ++ layout.break (level + 1) ++ printAt layout (level + 1) item ++
      printItems layout (level + 1) items ++ layout.break level ++ text "]"
  | obj [] => text "\x7b\x7d"
  | obj ((name, v) :: members) =>
    text "\x7b" ++ layout.break (level + 1) ++ string name ++ text ": " ++
      printAt layout (level + 1) v ++
      printMembers layout (level + 1) members ++ layout.break level ++ text "\x7d"

/-- The items of an array after its first. -/
def printItems (layout : Layout) (level : Nat) : List Json → Text
  | [] => []
  | item :: items =>
    layout.comma ++ layout.break level ++ printAt layout level item ++
      printItems layout level items

/-- The members of an object after its first. -/
def printMembers (layout : Layout) (level : Nat) : List (Text × Json) → Text
  | [] => []
  | (name, v) :: members =>
    layout.comma ++ layout.break level ++ string name ++ text ": " ++ printAt layout level v ++
      printMembers layout level members

end

/-- A value on one line. -/
def compact (j : Json) : Text := j.printAt .oneLine 0

/-- A value with two spaces for each level. -/
def pretty (j : Json) : Text := j.printAt .indented 0

/-! ## Values inside messages -/

private def shownReal : Binary64 → Text
  | .nan => text "nan"
  | .infinite negative => if negative then text "-inf" else text "inf"
  | x => text x.toString

mutual

/-- A value as messages show it. -/
def shown : Json → Text
  | null => text "None"
  | bool b => if b then text "True" else text "False"
  | int i => Text.ofInt i
  | real x => shownReal x
  | str t => t.quoted
  | arr items => text "[" ++ shownItems true items ++ text "]"
  | obj members => text "\x7b" ++ shownMembers true members ++ text "\x7d"

/-- The items of an array as messages show them. -/
def shownItems (first : Bool) : List Json → Text
  | [] => []
  | item :: items => (if first then [] else text ", ") ++ shown item ++ shownItems false items

/-- The members of an object as messages show them. -/
def shownMembers (first : Bool) : List (Text × Json) → Text
  | [] => []
  | (name, v) :: members =>
    (if first then [] else text ", ") ++ name.quoted ++ text ": " ++ shown v ++
      shownMembers false members

end

/-- A value as running text: a string stands for itself. -/
def plain : Json → Text
  | str t => t
  | j => j.shown

end FlagFold.Json
