/-
  FlagFold.Json.Reader

  Reads JSON documents.  Only space, tab, carriage return and line feed stand
  between tokens; `NaN` and the infinities are numbers; of members with one name
  the last value counts, in the place of the first.  Beside what a document violates
  there are two bounds: on the digits of a whole number, and on how many arrays and
  objects are open at once.
-/

import FlagFold.Json.Basic
import FlagFold.Text.Lines

namespace FlagFold.Json

/-- What a document violates. -/
inductive Violation where
  | expectingValue
  | expectingName
  | expectingColon
  | expectingComma
  | extraData
  | unterminatedString
  | controlCharacter
  | invalidEscape
  | invalidCodeUnit
  | byteOrderMark
  deriving DecidableEq

/-- Why a document is not read. -/
inductive Fault where
  /-- It is no JSON: what it violates, and the offset at which that is found. -/
  | violates (violation : Violation) (offset : Nat)
  /-- A whole number in it has more than `maxDigits` digits. -/
  | tooManyDigits (count : Nat)
  /-- More arrays and objects are open at once than there is stack for. -/
  | tooDeep

/-- The number of digits that a whole number can have. -/
def maxDigits : Nat := 4300

/-- The wording of a violation. -/
def Violation.message : Violation → String
  | expectingValue => "Expecting value"
  | expectingName => "Expecting property name enclosed in double quotes"
  | expectingColon => "Expecting ':' delimiter"
  | expectingComma => "Expecting ',' delimiter"
  | extraData => "Extra data"
  | unterminatedString => "Unterminated string starting at"
  | controlCharacter => "Invalid control character at"
  | invalidEscape => "Invalid \\escape"
  | invalidCodeUnit => "Invalid \\uXXXX escape"
  | byteOrderMark => "Unexpected UTF-8 BOM (decode using utf-8-sig)"

namespace Fault

/-- Is the document no JSON? A document that is some can still be one that is not read. -/
def isViolation : Fault → Bool
  | violates .. => true
  | tooManyDigits _ | tooDeep => false

/-- The wording of a fault in a document: lines and columns count from one here. -/
def message (document : Text) : Fault → Text
  | violates violation offset =>
    let place := document.position offset
    text violation.message ++ text ": line " ++ Text.ofNat (place.line + 1) ++
      text " column " ++ Text.ofNat (place.column + 1) ++ text " (char " ++ Text.ofNat offset ++
      text ")"
  | tooManyDigits count =>
    text "Exceeds the limit (" ++ Text.ofNat maxDigits ++
      text " digits) for integer string conversion: value has " ++ Text.ofNat count ++
      text " digits; use sys.set_int_max_str_digits() to increase the limit"
  | tooDeep => text "maximum recursion depth exceeded"

end Fault

/-- What is left of a document, and the offset at which it starts. -/
structure Rest where
  offset : Nat
  text : Text

private def fail {α : Type} (violation : Violation) (offset : Nat) : Except Fault α :=
  .error (.violates violation offset)

/-- The rest after `n` code points. -/
def Rest.skip (r : Rest) (n : Nat) : Rest := ⟨r.offset + n, r.text.drop n⟩

/-- White space between tokens. -/
private def isGap (c : CodePoint) : Bool := c = ' ' || c = '\t' || c = '\r' || c = '\n'

/-- The rest after white space. -/
def Rest.skipGap (r : Rest) : Rest := r.skip (r.text.takeWhile isGap).length

/-! ## Strings -/

/-- The number that four hexadecimal digits write. -/
private def codeUnit? (t : Text) : Option Nat :=
  let digits := (t.take 4).filterMap CodePoint.hexValue?
  if digits.length = 4 then some (digits.foldl (fun n d => n * 16 + d) 0) else none

private def simpleEscape? (c : CodePoint) : Option CodePoint :=
  if c = '"' ∨ c = '\\' ∨ c = '/' then some c
  else if c = 'b' then some '\x08'
  else if c = 'f' then some '\x0c'
  else if c = 'n' then some '\n'
  else if c = 'r' then some '\r'
  else if c = 't' then some '\t'
  else none

/-- The escape `\u` at `offset`, the digits being the text given: the code point and the number
of code points after the `u` that it takes. Two escapes that make a surrogate pair are one. -/
private def unicodeEscape (offset : Nat) (t : Text) : Except Fault (CodePoint × Nat) :=
  if t.length ≤ 4 then fail .invalidCodeUnit (offset + 1)
  else match codeUnit? t with
    | none => fail .invalidCodeUnit (offset + 1)
    | some high =>
      let alone : CodePoint × Nat := ((CodePoint.ofNat? high).getD default, 4)
      let next := t.drop 4
      -- A first half takes the escape after it along if that is a second half.
      if 0xD800 ≤ high ∧ high ≤ 0xDBFF ∧ next.length > 6 ∧ next.take 2 = text "\\u" then
        match codeUnit? (next.drop 2) with
        | none => fail .invalidCodeUnit (offset + 7)
        | some low =>
          if 0xDC00 ≤ low ∧ low ≤ 0xDFFF then
            let whole := 0x10000 + (high - 0xD800) * 0x400 + (low - 0xDC00)
            .ok ((CodePoint.ofNat? whole).getD default, 10)
          else .ok alone
      else .ok alone

/-- Reads a string whose opening quote, at `opened`, has been read; `done` holds what has been
read of it, last code point first. -/
private def stringBody (opened : Nat) : Nat → Text → Rest → Except Fault (Text × Rest)
  | 0, _, _ => fail .unterminatedString opened
  | fuel + 1, done, r =>
    match r.text with
    | [] => fail .unterminatedString opened
    | c :: after =>
      if c = '"' then .ok (done.reverse, r.skip 1)
      else if c.value < 0x20 then fail .controlCharacter r.offset
      else if c = '\\' then
        match after with
        | [] => fail .unterminatedString opened
        | e :: digits =>
          if e = 'u' then do
            let (point, size) ← unicodeEscape r.offset digits
            stringBody opened fuel (point :: done) (r.skip (2 + size))
          else match simpleEscape? e with
            | some point => stringBody opened fuel (point :: done) (r.skip 2)
            | none => fail .invalidEscape r.offset
      else stringBody opened fuel (c :: done) (r.skip 1)

/-- Reads a string whose opening quote is the first code point. -/
private def readString (r : Rest) : Except Fault (Text × Rest) :=
  stringBody r.offset (r.text.length + 1) [] (r.skip 1)

/-! ## Numbers -/

private def decimal (digits : Text) : Nat :=
  digits.foldl (fun n (d : CodePoint) => n * 10 + (d.value - 0x30)) 0

/-- The fraction after the whole part of a number: its digits and its size. -/
private def fraction (t : Text) : Text × Nat :=
  match t with
  | [] => ([], 0)
  | c :: after =>
    let digits := after.takeWhile CodePoint.isDigit
    if c = '.' ∧ !digits.isEmpty then (digits, digits.length + 1) else ([], 0)

/-- The power of ten after a number: its value and its size. -/
private def power (t : Text) : Int × Nat :=
  match t with
  | [] => (0, 0)
  | c :: after =>
    if c = 'e' ∨ c = 'E' then
      let signed := match after with
        | s :: _ => s = '+' || s = '-'
        | [] => false
      let negative := after.head? = some (CodePoint.ofChar '-')
      let digits := (after.drop signed.toNat).takeWhile CodePoint.isDigit
      if digits.isEmpty then (0, 0)
      else
        let n : Int := decimal digits
        (if negative then -n else n, digits.length + signed.toNat + 1)
    else (0, 0)

/-- The number at the start of a text and its size. -/
private def number? (t : Text) : Option (Json × Nat) :=
  let negative : Bool := t.head? = some (CodePoint.ofChar '-')
  let unsigned := t.drop negative.toNat
  let run := unsigned.takeWhile CodePoint.isDigit
  -- A whole part that begins with zero has no more digits.
  let whole := if run.head? = some (CodePoint.ofChar '0') then run.take 1 else run
  if whole.isEmpty then none
  else
    let (places, placesSize) := fraction (unsigned.drop whole.length)
    let (exponent, powerSize) := power (unsigned.drop (whole.length + placesSize))
    let size := negative.toNat + whole.length + placesSize + powerSize
    if placesSize = 0 ∧ powerSize = 0 then
      let n : Int := decimal whole
      some (.int (if negative then -n else n), size)
    else
      some (.real (.ofDecimal negative (decimal (whole ++ places)) (exponent - places.length)),
        size)

/-! ## Values -/

/-- The words that are values. -/
private def words : List (Text × Json) :=
  [(text "null", .null), (text "true", .bool true), (text "false", .bool false),
   (text "NaN", .real .nan), (text "Infinity", .real (.infinite false)),
   (text "-Infinity", .real (.infinite true))]

/-- The number of digits of a whole number. -/
private def digitCount (i : Int) (size : Nat) : Nat := if i < 0 then size - 1 else size

/-- Reads a word or a number. -/
private def scalar (r : Rest) : Except Fault (Json × Rest) :=
  match words.find? fun (word, _) => word.isPrefixOf r.text with
  | some (word, value) => .ok (value, r.skip word.length)
  | none =>
    match number? r.text with
    | some (.int i, size) =>
      let count := digitCount i size
      if count > maxDigits then .error (.tooManyDigits count) else .ok (.int i, r.skip size)
    | some (value, size) => .ok (value, r.skip size)
    | none => fail .expectingValue r.offset

/-- The first code point of the rest. -/
private def Rest.head? (r : Rest) : Option CodePoint := r.text.head?

mutual

/-- Reads a value, white space before it being skipped. In it `room` arrays and objects can be open
at once. -/
private def value : Nat → (room : Nat) → Rest → Except Fault (Json × Rest)
  | 0, _, r => fail .expectingValue r.offset
  | fuel + 1, room, r =>
    match r.head? with
    | none => fail .expectingValue r.offset
    | some c =>
      if c = '"' then do
        let (t, r) ← readString r
        return (.str t, r)
      else if c = '{' then
        match room with
        | 0 => .error .tooDeep
        | room + 1 =>
          let r := (r.skip 1).skipGap
          if r.head? = some (CodePoint.ofChar '}') then .ok (.obj [], r.skip 1)
          else members fuel room [] r
      else if c = '[' then
        match room with
        | 0 => .error .tooDeep
        | room + 1 =>
          let r := (r.skip 1).skipGap
          if r.head? = some (CodePoint.ofChar ']') then .ok (.arr [], r.skip 1)
          else items fuel room [] r
      else scalar r

/-- Reads the members of an object up to its end, `done` being those read before. -/
private def members : Nat → (room : Nat) → Table Json → Rest → Except Fault (Json × Rest)
  | 0, _, _, r => fail .expectingName r.offset
  | fuel + 1, room, done, r =>
    if r.head? = some (CodePoint.ofChar '"') then do
      let (name, r) ← readString r
      let r := r.skipGap
      if r.head? = some (CodePoint.ofChar ':') then
        let (v, r) ← value fuel room (r.skip 1).skipGap
        let done := done.set name v
        let r := r.skipGap
        if r.head? = some (CodePoint.ofChar '}') then return (.obj done, r.skip 1)
        else if r.head? = some (CodePoint.ofChar ',') then
          members fuel room done (r.skip 1).skipGap
        else fail .expectingComma r.offset
      else fail .expectingColon r.offset
    else fail .expectingName r.offset

/-- Reads the items of an array up to its end, `done` being those read before, last first. -/
private def items : Nat → (room : Nat) → List Json → Rest → Except Fault (Json × Rest)
  | 0, _, _, r => fail .expectingValue r.offset
  | fuel + 1, room, done, r => do
    let (v, r) ← value fuel room r
    let done := v :: done
    let r := r.skipGap
    if r.head? = some (CodePoint.ofChar ']') then return (.arr done.reverse, r.skip 1)
    else if r.head? = some (CodePoint.ofChar ',') then items fuel room done (r.skip 1).skipGap
    else fail .expectingComma r.offset

end

/-- The value that a document holds, if not more than `room` arrays and objects are open at once. -/
def parse (document : Text) (room : Nat := document.length) : Except Fault Json :=
  if document.head? = some ⟨0xFEFF, by decide⟩ then fail .byteOrderMark 0
  else do
    let (v, r) ← value (document.length + 1) room (Rest.mk 0 document).skipGap
    let r := r.skipGap
    if r.text.isEmpty then return v else fail .extraData r.offset

end FlagFold.Json
