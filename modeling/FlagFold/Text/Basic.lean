/-
  FlagFold.Text.Basic

  Text as a list of code points.  Values of JavaScript string literals may hold
  lone surrogates, and such values reach the printed code by way of inserted
  comments, so one text type that admits every code point serves sources,
  decoded values and output alike.  All offsets in the library count code points
  of such a list unless a name says bytes.
-/

namespace FlagFold

/-- A code point: any number below `0x110000`, surrogates included. -/
structure CodePoint where
  value : Nat
  isLt : value < 0x110000 := by decide
  deriving DecidableEq

namespace CodePoint

/-- The code point of a character. -/
def ofChar (c : Char) : CodePoint :=
  ⟨c.toNat, (by rcases c.valid with h | h <;> (simp only [← Char.toNat_val]; omega) :
    c.toNat < 0x110000)⟩

instance : Coe Char CodePoint := ⟨ofChar⟩
instance : Inhabited CodePoint := ⟨'\x00'⟩

@[simp] theorem value_ofChar (c : Char) : (ofChar c).value = c.toNat := rfl

@[ext] theorem ext {a b : CodePoint} (h : a.value = b.value) : a = b := by
  cases a; cases b; cases h; rfl

/-- The code point of a number, where there is one. -/
def ofNat? (n : Nat) : Option CodePoint :=
  if h : n < 0x110000 then some ⟨n, h⟩ else none

/-- The character of a code point; a surrogate, which is no character, becomes U+FFFD. -/
def toChar (c : CodePoint) : Char :=
  if h : c.value.isValidChar then Char.ofNatAux c.value h else '\uFFFD'

/-- One of the two halves of a UTF-16 surrogate pair. -/
def isSurrogate (c : CodePoint) : Bool := 0xD800 ≤ c.value && c.value ≤ 0xDFFF

/-- Letters, digits and the rest of ASCII. -/
def isAscii (c : CodePoint) : Bool := c.value < 0x80

/-- `0` to `9`. -/
def isDigit (c : CodePoint) : Bool := 0x30 ≤ c.value && c.value ≤ 0x39

/-- A line feed, which alone ends a line. -/
def isLineFeed (c : CodePoint) : Bool := c = '\n'

/-- A space or a tab: the blanks inside one line. -/
def isBlank (c : CodePoint) : Bool := c = ' ' || c = '\t'

/-- White space in the sense of the Unicode property, line terminators and the four ASCII
separators included; U+FEFF and U+200B are not in it. -/
def isSpace (c : CodePoint) : Bool :=
  (0x09 ≤ c.value && c.value ≤ 0x0D) || (0x1C ≤ c.value && c.value ≤ 0x20) ||
  (0x2000 ≤ c.value && c.value ≤ 0x200A) ||
  [0x85, 0xA0, 0x1680, 0x2028, 0x2029, 0x202F, 0x205F, 0x3000].contains c.value

/-- The value of a hexadecimal digit, in either case. -/
def hexValue? (c : CodePoint) : Option Nat :=
  if 0x30 ≤ c.value ∧ c.value ≤ 0x39 then some (c.value - 0x30)
  else if 0x61 ≤ c.value ∧ c.value ≤ 0x66 then some (c.value - 0x61 + 10)
  else if 0x41 ≤ c.value ∧ c.value ≤ 0x46 then some (c.value - 0x41 + 10)
  else none

/-- ASCII letters in lower case; every other code point as it is. -/
def toLower (c : CodePoint) : CodePoint :=
  if h : 0x41 ≤ c.value ∧ c.value ≤ 0x5A then ⟨c.value + 0x20, by omega⟩ else c

end CodePoint

/-- A text: code points in order. -/
abbrev Text := List CodePoint

/-- The text of a string. -/
def text (s : String) : Text := s.toList.map CodePoint.ofChar

namespace Text

/-- The string of a text, for names that hold characters only. -/
def toString (t : Text) : String := String.ofList (t.map CodePoint.toChar)

/-- A natural number in decimal digits. -/
def ofNat (n : Nat) : Text := text (Nat.repr n)

/-- An integer in decimal digits, after a minus sign where it is negative. -/
def ofInt (n : Int) : Text :=
  if n < 0 then text "-" ++ ofNat n.natAbs else ofNat n.natAbs

/-- The code points at offsets `start ≤ i < stop`, as far as the text goes. -/
def slice (t : Text) (start stop : Nat) : Text := (t.drop start).take (stop - start)

@[simp] theorem length_slice (t : Text) (start stop : Nat) :
    (t.slice start stop).length = min stop t.length - start := by
  simp only [slice, List.length_take, List.length_drop]
  omega

/-- The texts with `sep` between each two. -/
def join (sep : Text) : List Text → Text
  | [] => []
  | [t] => t
  | t :: rest => t ++ sep ++ join sep rest

/-- The pieces between occurrences of `sep`; there is always one more piece than separators. -/
def splitOn (sep : CodePoint) : Text → List Text
  | [] => [[]]
  | c :: rest =>
    if c = sep then [] :: splitOn sep rest
    else match splitOn sep rest with
      | [] => [[c]]
      | piece :: pieces => (c :: piece) :: pieces

/-- Does `needle` stand somewhere in the text? -/
def occursIn (needle : Text) : Text → Bool
  | [] => needle.isEmpty
  | c :: rest => needle.isPrefixOf (c :: rest) || occursIn needle rest

/-- Is every code point ASCII? -/
def isAscii (t : Text) : Bool := t.all CodePoint.isAscii

/-- The order of texts by code point. -/
def le : Text → Text → Bool
  | [], _ => true
  | _ :: _, [] => false
  | a :: as, b :: bs => a.value < b.value || (a.value = b.value && le as bs)

/-- ASCII letters in lower case. -/
def toLower (t : Text) : Text := t.map CodePoint.toLower

/-- The first `count` code points; of a negative count, all but that many at the end. -/
def takeTo (count : Int) (t : Text) : Text :=
  if count < 0 then t.take (t.length - count.natAbs) else t.take count.toNat

/-- A text as one line of at most `limit` code points: line feeds are written `\n`, and what
is cut off is shown by three dots. -/
def preview (limit : Int) (t : Text) : Text :=
  let line := t.flatMap fun (c : CodePoint) => if c = '\n' then text "\\n" else [c]
  if (line.length : Int) > limit then takeTo limit line ++ text "..." else line

/-- The width of previews where none is asked for. -/
def previewWidth : Int := 60

end Text
end FlagFold
