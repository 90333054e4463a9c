/-
  FlagFold.Text.Utf8

  UTF-8: the length of a text in bytes, the conversion of byte offsets to code
  point offsets, and a decoder that says where and why bytes are no text.
-/

import FlagFold.Text.Basic

namespace FlagFold

/-- The number of bytes a code point takes. -/
def CodePoint.utf8Length (c : CodePoint) : Nat :=
  if c.value < 0x80 then 1 else if c.value < 0x800 then 2
  else if c.value < 0x10000 then 3 else 4

/-- The bytes of a code point. -/
def CodePoint.utf8 (c : CodePoint) : List UInt8 :=
  let tail (n : Nat) : UInt8 := (0x80 + n % 0x40).toUInt8
  if c.value < 0x80 then [c.value.toUInt8]
  else if c.value < 0x800 then [(0xC0 + c.value / 0x40).toUInt8, tail c.value]
  else if c.value < 0x10000 then
    [(0xE0 + c.value / 0x1000).toUInt8, tail (c.value / 0x40), tail c.value]
  else
    [(0xF0 + c.value / 0x40000).toUInt8, tail (c.value / 0x1000), tail (c.value / 0x40),
      tail c.value]

namespace Text

/-- The number of bytes a text takes. -/
def utf8Length : Text → Nat
  | [] => 0
  | c :: rest => c.utf8Length + utf8Length rest

/-- The bytes of a text, which has some only when no lone surrogate is in it. -/
def utf8? (t : Text) : Option (List UInt8) :=
  if t.any CodePoint.isSurrogate then none else some (t.flatMap CodePoint.utf8)

/-! ## Byte offsets -/

/-- For each byte of a text and the place after the last one, the offset of the first code point
that starts there or later, `offset` being that of the first one. -/
def charOffsetsFrom (offset : Nat) : Text → List Nat
  | [] => [offset]
  | c :: rest =>
    offset :: (List.replicate (c.utf8Length - 1) (offset + 1) ++ charOffsetsFrom (offset + 1) rest)

/-- How byte offsets into a text become code point offsets. In ASCII text they are the same
number, also past the end; elsewhere it is that of the first code point that starts at the byte
or later, and past the end one more than there are code points. -/
inductive Offsets where
  | same
  | table (chars : Array Nat) (pastEnd : Nat)

/-- The conversion for one text. -/
def offsets (t : Text) : Offsets :=
  if t.isAscii then .same else .table (t.charOffsetsFrom 0).toArray (t.length + 1)

/-- The code point offset of a byte offset. -/
def Offsets.toChar : Offsets → Nat → Nat
  | .same, byte => byte
  | .table chars pastEnd, byte => chars.getD byte pastEnd

end Text

/-! ## Decoding -/

namespace Utf8

/-- Why bytes are no text: the first byte that fits nothing, and how far the sequence that
failed had got. -/
structure Fault where
  start : Nat
  stop : Nat
  first : UInt8
  reason : String

/-- What stands at the start of a byte sequence: a code point and the number of its bytes, or
the number of bytes that do not make one and the reason. -/
inductive Step where
  | point (c : CodePoint) (size : Nat)
  | bad (size : Nat) (reason : String)

/-- A continuation byte in the given range. -/
private def within (lo hi : Nat) (b : UInt8) : Bool := lo ≤ b.toNat && b.toNat ≤ hi

private def startFault : Step := .bad 1 "invalid start byte"
private def middleFault (size : Nat) : Step := .bad size "invalid continuation byte"
private def endFault (size : Nat) : Step := .bad size "unexpected end of data"

private def point (n size : Nat) : Step :=
  match CodePoint.ofNat? n with
  | some c => .point c size
  | none => startFault

/-- The range of the second byte after a given first one: overlong forms, surrogates and
numbers past the last code point are shut out here. -/
private def secondRange (first : Nat) : Nat × Nat :=
  if first = 0xE0 then (0xA0, 0xBF) else if first = 0xED then (0x80, 0x9F)
  else if first = 0xF0 then (0x90, 0xBF) else if first = 0xF4 then (0x80, 0x8F)
  else (0x80, 0xBF)

/-- Reads one code point. -/
def step (first : UInt8) (rest : List UInt8) : Step :=
  let a := first.toNat
  let (lo, hi) := secondRange a
  if a < 0x80 then point a 1
  else if a < 0xC2 ∨ 0xF4 < a then startFault
  else match rest with
    | [] => endFault 1
    | b :: rest =>
      if !within lo hi b then middleFault 1
      else if a < 0xE0 then point ((a - 0xC0) * 0x40 + (b.toNat - 0x80)) 2
      else match rest with
        | [] => endFault 2
        | c :: rest =>
          if !within 0x80 0xBF c then middleFault 2
          else if a < 0xF0 then
            point ((a - 0xE0) * 0x1000 + (b.toNat - 0x80) * 0x40 + (c.toNat - 0x80)) 3
          else match rest with
            | [] => endFault 3
            | d :: _ =>
              if !within 0x80 0xBF d then middleFault 3
              else point ((a - 0xF0) * 0x40000 + (b.toNat - 0x80) * 0x1000 +
                (c.toNat - 0x80) * 0x40 + (d.toNat - 0x80)) 4

/-- Decodes bytes, `offset` being the offset of the first and `skip` the number of bytes that the
code point before has already taken; `onFault` says what becomes of a fault. -/
private def decodeWith (onFault : Fault → Except Fault Text) (offset skip : Nat) :
    List UInt8 → Except Fault Text
  | [] => .ok []
  | b :: rest =>
    match skip with
    | n + 1 => decodeWith onFault (offset + 1) n rest
    | 0 => do
      match step b rest with
      | .point c size => return c :: (← decodeWith onFault (offset + 1) (size - 1) rest)
      | .bad size reason =>
        let replacement ← onFault ⟨offset, offset + size, b, reason⟩
        return replacement ++ (← decodeWith onFault (offset + 1) (size - 1) rest)

/-- The text of bytes, or the first fault. -/
def decode (bytes : List UInt8) : Except Fault Text := decodeWith .error 0 0 bytes

/-- The text of bytes, with U+FFFD for each sequence that is none. -/
def decodeLossy (bytes : List UInt8) : Text :=
  match decodeWith (fun _ => .ok [⟨0xFFFD, by decide⟩]) 0 0 bytes with
  | .ok t => t
  | .error _ => []

private def hexDigits (b : UInt8) : String :=
  let digits := Nat.toDigits 16 b.toNat
  String.ofList (if digits.length < 2 then '0' :: digits else digits)

/-- The wording of a fault: one byte is shown, several are given by their offsets. -/
def Fault.message (f : Fault) : Text :=
  text "'utf-8' codec can't decode " ++
  (if f.stop ≤ f.start + 1 then
    text "byte 0x" ++ text (hexDigits f.first) ++ text " in position " ++ Text.ofNat f.start
  else
    text "bytes in position " ++ Text.ofNat f.start ++ text "-" ++ Text.ofNat (f.stop - 1)) ++
  text ": " ++ text f.reason

end Utf8
end FlagFold
