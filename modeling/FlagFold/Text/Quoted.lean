/-
  FlagFold.Text.Quoted

  A text between quotes, as messages show it: single quotes, or double ones when
  the text holds single quotes only; what is not printable is escaped.
-/

import FlagFold.Text.Printable

namespace FlagFold.Text

/-- The hexadecimal digits of a number, filled up with zeros to `width`. -/
def hex (width n : Nat) : Text :=
  let digits := Nat.toDigits 16 n
  (List.replicate (width - digits.length) '0' ++ digits).map CodePoint.ofChar

/-- One code point inside quotes of the kind `quote`. -/
def quotedPoint (quote c : CodePoint) : Text :=
  if c = quote ∨ c = '\\' then ['\\', c]
  else if c = '\n' then text "\\n"
  else if c = '\r' then text "\\r"
  else if c = '\t' then text "\\t"
  else if c.isPrintable then [c]
  else if c.value < 0x100 then text "\\x" ++ hex 2 c.value
  else if c.value < 0x10000 then text "\\u" ++ hex 4 c.value
  else text "\\U" ++ hex 8 c.value

/-- The quote chosen for a text. -/
def quoteFor (t : Text) : CodePoint :=
  if List.elem (CodePoint.ofChar '\'') t && !List.elem (CodePoint.ofChar '"') t then '"' else '\''

/-- The text between quotes. -/
def quoted (t : Text) : Text :=
  let quote := t.quoteFor
  quote :: t.flatMap (quotedPoint quote) ++ [quote]

end FlagFold.Text
