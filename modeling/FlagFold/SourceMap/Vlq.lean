/-
  FlagFold.SourceMap.Vlq

  Integers as base-64 digits of variable number.  The sign is the lowest bit of
  the number that is written, and its base-32 digits follow with the lowest
  first, each but the last marked by 32.
-/

import FlagFold.SourceMap.Fault

namespace FlagFold.Vlq

/-- The 64 digits in order of value. -/
def alphabet : Text :=
  text "ABCDEFGHIJKLMNOPQRSTUVWXYZabcdefghijklmnopqrstuvwxyz0123456789+/"

/-- The digit of a value below 64. -/
def digit (n : Nat) : CodePoint := alphabet.getD n 'A'

/-- The value of a digit. -/
def digitValue? (c : CodePoint) : Option Nat := alphabet.idxOf? c

/-- The number that stands for an integer: twice its size, and one more if it is negative. -/
def zigzag (v : Int) : Nat := if v < 0 then 2 * v.natAbs + 1 else 2 * v.natAbs

/-- The integer for which a number stands. -/
def unzigzag (n : Nat) : Int := if n % 2 = 1 then -((n / 2 : Nat) : Int) else ((n / 2 : Nat) : Int)

/-- The digits of a number, lowest first. -/
def encodeNat (n : Nat) : Text :=
  if n < 32 then [digit n] else digit (n % 32 + 32) :: encodeNat (n / 32)
termination_by n
decreasing_by omega

/-- The digits of an integer. -/
def encode (v : Int) : Text := encodeNat (zigzag v)

/-- Reads a number: its value and how many digits it takes. -/
def decodeNat : Text → Except MapFault (Nat × Nat)
  | [] => .error .unterminatedNumber
  | c :: rest =>
    match digitValue? c with
    | none => .error (.invalidDigit c)
    | some d =>
      if d < 32 then .ok (d, 1)
      else do
        let (n, size) ← decodeNat rest
        return (d - 32 + 32 * n, size + 1)

/-- Reads the integer at an offset: its value and the offset after it. -/
def decodeAt (t : Text) (offset : Nat) : Except MapFault (Int × Nat) := do
  let (n, size) ← decodeNat (t.drop offset)
  return (unzigzag n, offset + size)

/-- A number takes at least one digit. -/
theorem size_pos_of_decodeNat {t : Text} {n size : Nat} (h : decodeNat t = .ok (n, size)) :
    0 < size := by
  cases t with
  | nil => simp [decodeNat] at h
  | cons c rest =>
    rw [decodeNat] at h
    split at h
    · simp at h
    · split at h
      · cases h
        exact Nat.one_pos
      · -- A digit with the mark: whatever follows, this one is counted too.
        cases hrest : decodeNat rest with
        | error fault => simp [hrest, bind, Except.bind] at h
        | ok read =>
          simp only [hrest, bind, Except.bind, pure, Except.pure, Except.ok.injEq,
            Prod.mk.injEq] at h
          omega

/-- Reads a text that is one integer after the other. -/
def decodeAll (t : Text) : Except MapFault (List Int) :=
  match t with
  | [] => .ok []
  | c :: rest =>
    match h : decodeNat (c :: rest) with
    | .error fault => .error fault
    | .ok (n, size) =>
      have := size_pos_of_decodeNat h
      (decodeAll ((c :: rest).drop size)).map (unzigzag n :: ·)
termination_by t.length
decreasing_by simp only [List.length_drop, List.length_cons]; omega

end FlagFold.Vlq
