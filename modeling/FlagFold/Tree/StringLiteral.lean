/-
  FlagFold.Tree.StringLiteral

  The value of a quoted string literal.  An escape for a code point stands for
  that code point, so that two escapes which make up a surrogate pair give two
  surrogates; an escaped line terminator stands for nothing; any other escaped
  code point that has no meaning of its own stands for itself.
-/

import FlagFold.Text.Basic

namespace FlagFold.StringLiteral

/-- A number in an escape that is no code point. -/
structure NoCodePoint where
  number : Nat
  deriving DecidableEq

/-- The escapes of one letter. -/
def control? (c : CodePoint) : Option CodePoint :=
  if c = 'n' then some '\n'
  else if c = 't' then some '\t'
  else if c = 'r' then some '\r'
  else if c = 'b' then some '\x08'
  else if c = 'f' then some '\x0c'
  else if c = 'v' then some '\x0b'
  else if c = '0' then some '\x00'
  else none

/-- The code points that end a line in a program. -/
def isLineTerminator (c : CodePoint) : Bool :=
  c = '\n' || c = '\r' || c.value = 0x2028 || c.value = 0x2029

/-- The number that hexadecimal digits write. -/
def hexNumber (digits : Text) : Nat :=
  digits.foldl (fun n d => n * 16 + (d.hexValue?).getD 0) 0

/-- An escape: what it stands for, and the number of code points after the backslash. -/
structure Escape where
  value : Except NoCodePoint Text
  size : Nat

/-- What a number stands for. -/
def numbered (n : Nat) : Except NoCodePoint Text :=
  match CodePoint.ofNat? n with
  | some c => .ok [c]
  | none => .error ⟨n⟩

/-- An escape with exactly `count` hexadecimal digits after its letter. -/
def fixedWidth? (count : Nat) (rest : Text) : Option Escape :=
  let digits := rest.take count
  if digits.length = count ∧ digits.all (·.hexValue?.isSome) then
    some ⟨numbered (hexNumber digits), count + 1⟩
  else none

/-- An escape with any number of hexadecimal digits in braces after its letter. -/
def braced? (rest : Text) : Option Escape :=
  match rest with
  | [] => none
  | c :: after =>
    let digits := after.takeWhile (·.hexValue?.isSome)
    if c = '\x7b' ∧ !digits.isEmpty ∧
        (after.drop digits.length).head? = some (CodePoint.ofChar '\x7d')
    then some ⟨numbered (hexNumber digits), digits.length + 3⟩
    else none

/-- The escape whose backslash stands before `c`. -/
def escape (c : CodePoint) (rest : Text) : Escape :=
  let single : Escape :=
    if isLineTerminator c then
      ⟨.ok [], if c = '\r' ∧ rest.head? = some (CodePoint.ofChar '\n') then 2 else 1⟩
    else ⟨.ok [(control? c).getD c], 1⟩
  if c = 'u' then ((braced? rest).orElse fun _ => fixedWidth? 4 rest).getD single
  else if c = 'x' then (fixedWidth? 2 rest).getD single
  else single

/-- The value of the text between the quotes, its first `skip` code points being part of an
escape that has been read. -/
def decodeFrom (skip : Nat) : Text → Except NoCodePoint Text
  | [] => .ok []
  | c :: rest =>
    match skip with
    | n + 1 => decodeFrom n rest
    | 0 =>
      if c = '\\' then
        match rest with
        | [] => .ok [c]
        | e :: after => do
          let found := escape e after
          let value ← found.value
          return value ++ (← decodeFrom found.size rest)
      else do return c :: (← decodeFrom 0 rest)

/-- The value of a literal, given with its quotes. -/
def decode (raw : Text) : Except NoCodePoint Text := decodeFrom 0 (raw.drop 1).dropLast

/-- A code point inside single quotes. -/
def encodePoint (c : CodePoint) : Text := if c = '\\' ∨ c = '\'' then ['\\', c] else [c]

/-- A literal that has the given value. -/
def encode (value : Text) : Text := text "'" ++ value.flatMap encodePoint ++ text "'"

end FlagFold.StringLiteral
