/-
  FlagFold.Proofs.Text.Offsets

  Byte offsets and code point offsets of a text.  The code point offset of a byte is the
  number of places before it at which a code point starts or the text ends
  (`toChar_tableOffsets`), so it grows with the byte and takes the byte at which a code
  point starts back to that code point; in ASCII text it is the byte offset.
-/

import FlagFold.Text.Utf8
import Mathlib.Data.List.Basic
import Mathlib.Order.Monotone.Basic

namespace FlagFold

/-! ## Bytes -/

namespace CodePoint

theorem length_utf8 (c : CodePoint) : c.utf8.length = c.utf8Length := by
  unfold utf8 utf8Length
  dsimp only
  repeat' split
  all_goals rfl

theorem utf8Length_pos (c : CodePoint) : 0 < c.utf8Length := by
  unfold utf8Length
  repeat' split
  all_goals decide

theorem utf8Length_of_isAscii {c : CodePoint} (h : c.isAscii) : c.utf8Length = 1 := by
  unfold utf8Length
  exact if_pos (of_decide_eq_true h)

end CodePoint

namespace Text

theorem utf8Length_append (t u : Text) :
    utf8Length (t ++ u) = utf8Length t + utf8Length u := by
  induction t with
  | nil => rw [List.nil_append, utf8Length, Nat.zero_add]
  | cons c rest ih => rw [List.cons_append, utf8Length, ih, utf8Length, Nat.add_assoc]

theorem length_flatMap_utf8 (t : Text) : (t.flatMap CodePoint.utf8).length = t.utf8Length := by
  induction t with
  | nil => rfl
  | cons c rest ih =>
    rw [List.flatMap_cons, List.length_append, c.length_utf8, ih, utf8Length]

theorem utf8Length_of_isAscii {t : Text} (h : t.isAscii) : t.utf8Length = t.length := by
  induction t with
  | nil => rfl
  | cons c rest ih =>
    obtain ⟨hc, hrest⟩ := Bool.and_eq_true_iff.mp h
    rw [utf8Length, CodePoint.utf8Length_of_isAscii hc, ih hrest, List.length_cons, Nat.add_comm]

theorem utf8?_eq_some_iff {t : Text} {bytes : List UInt8} :
    t.utf8? = some bytes ↔ (∀ c ∈ t, ¬ c.isSurrogate) ∧ t.flatMap CodePoint.utf8 = bytes := by
  unfold utf8?
  simp

/-! ## Where code points start -/

/-- The byte offset at which the code point at `i` starts, or at which `t` ends. -/
def byteOffset (t : Text) (i : Nat) : Nat := utf8Length (t.take i)

/-- The byte offsets at which the code points of `t` start, and the one at which it ends. -/
def byteStarts (t : Text) : List Nat := (List.range (t.length + 1)).map t.byteOffset

/-- How many of `t.byteStarts` are before `byte`. -/
def startsBefore (t : Text) (byte : Nat) : Nat := t.byteStarts.countP (· < byte)

theorem byteOffset_zero (t : Text) : t.byteOffset 0 = 0 := by
  rw [byteOffset, List.take_zero, utf8Length]

theorem byteOffset_succ (c : CodePoint) (rest : Text) (i : Nat) :
    byteOffset (c :: rest) (i + 1) = c.utf8Length + byteOffset rest i := by
  rw [byteOffset, List.take_succ_cons, utf8Length, byteOffset]

theorem byteStarts_cons (c : CodePoint) (rest : Text) :
    byteStarts (c :: rest) = 0 :: (byteStarts rest).map (c.utf8Length + ·) := by
  rw [byteStarts, List.length_cons, List.range_succ_eq_map, List.map_cons, List.map_map,
    byteStarts, List.map_map, byteOffset_zero]
  exact congrArg (0 :: ·) (List.map_congr_left fun i _ => byteOffset_succ c rest i)

theorem startsBefore_nil (byte : Nat) : startsBefore [] byte = if byte = 0 then 0 else 1 := by
  have hstarts : byteStarts [] = [0] := rfl
  cases byte <;> simp [startsBefore, hstarts]

theorem startsBefore_zero (t : Text) : t.startsBefore 0 = 0 := by
  simp [startsBefore]

theorem startsBefore_cons {byte : Nat} (h : 0 < byte) (c : CodePoint) (rest : Text) :
    startsBefore (c :: rest) byte = 1 + startsBefore rest (byte - c.utf8Length) := by
  have hbehind : ∀ start, c.utf8Length + start < byte ↔ start < byte - c.utf8Length := by omega
  rw [startsBefore, byteStarts_cons, List.countP_cons, List.countP_map, startsBefore]
  simp only [Function.comp_def, hbehind, h, decide_true, if_true]
  omega

theorem startsBefore_mono (t : Text) : Monotone t.startsBefore := by
  intro a b hab
  exact List.countP_mono_left fun start _ h => by
    simp only [decide_eq_true_eq] at h ⊢
    omega

/-- Before the start of the code point at `i` start the `i` code points before it. -/
theorem startsBefore_byteOffset {t : Text} {i : Nat} (h : i ≤ t.length) :
    t.startsBefore (t.byteOffset i) = i := by
  induction t generalizing i with
  | nil =>
    obtain rfl : i = 0 := Nat.le_zero.mp h
    rw [byteOffset_zero, startsBefore_zero]
  | cons c rest ih =>
    cases i with
    | zero => rw [byteOffset_zero, startsBefore_zero]
    | succ i =>
      have hpos := c.utf8Length_pos
      rw [byteOffset_succ, startsBefore_cons (by omega), Nat.add_sub_cancel_left,
        ih (Nat.le_of_succ_le_succ h), Nat.add_comm]

/-- `byteOffset` keeps the order of the code points. -/
theorem byteOffset_le_iff {t : Text} {i j : Nat} (hi : i ≤ t.length) (hj : j ≤ t.length) :
    t.byteOffset i ≤ t.byteOffset j ↔ i ≤ j := by
  constructor
  · intro h
    have hstarts := t.startsBefore_mono h
    rwa [startsBefore_byteOffset hi, startsBefore_byteOffset hj] at hstarts
  · intro h
    rw [byteOffset, byteOffset, ← List.take_append_drop i (t.take j), List.take_take,
      Nat.min_eq_left h, utf8Length_append]
    exact Nat.le_add_right _ _

/-! ## The table -/

/-- The table for `t`, whether `t.offsets` needs one or not. -/
def tableOffsets (t : Text) : Offsets := .table (t.charOffsetsFrom 0).toArray (t.length + 1)

/-- What is looked up in the table of `charOffsetsFrom`, by induction on the text: the bytes of its
first code point have entries of their own, and those of the rest come behind them. -/
theorem getD_charOffsetsFrom (offset byte : Nat) (t : Text) :
    (t.charOffsetsFrom offset)[byte]?.getD (offset + t.length + 1) =
      offset + t.startsBefore byte := by
  induction t generalizing offset byte with
  | nil => cases byte <;> simp [charOffsetsFrom, startsBefore_nil]
  | cons c rest ih =>
    have hpos := c.utf8Length_pos
    cases byte with
    | zero => simp [charOffsetsFrom, startsBefore_zero]
    | succ byte =>
      rw [startsBefore_cons (Nat.succ_pos byte), charOffsetsFrom, List.getElem?_cons_succ]
      by_cases hin : byte < c.utf8Length - 1
      · rw [List.getElem?_append_left (by simpa using hin), List.getElem?_replicate, if_pos hin,
          Nat.sub_eq_zero_of_le (by omega), startsBefore_zero]
        rfl
      · have hlength : offset + (c :: rest).length + 1 = offset + 1 + rest.length + 1 := by
          rw [List.length_cons]
          omega
        have hbyte : byte + 1 - c.utf8Length = byte - (c.utf8Length - 1) := by omega
        rw [List.getElem?_append_right (by simpa using Nat.le_of_not_lt hin),
          List.length_replicate, hlength, ih, hbyte, Nat.add_assoc]

theorem toChar_tableOffsets (t : Text) (byte : Nat) :
    t.tableOffsets.toChar byte = t.startsBefore byte := by
  have h := getD_charOffsetsFrom 0 byte t
  rw [Nat.zero_add, Nat.zero_add] at h
  rw [tableOffsets, Offsets.toChar, Array.getD_eq_getD_getElem?, List.getElem?_toArray, h]

/-- In ASCII text each `byte` up to the end has as many starts before it as bytes. -/
theorem startsBefore_of_isAscii {t : Text} (h : t.isAscii) {byte : Nat}
    (hbyte : byte ≤ t.utf8Length) : t.startsBefore byte = byte := by
  have hlength : byte ≤ t.length := utf8Length_of_isAscii h ▸ hbyte
  have htake : isAscii (t.take byte) := by
    rw [isAscii, List.all_eq_true] at h ⊢
    exact fun c hc => h c (List.mem_of_mem_take hc)
  have hoffset : t.byteOffset byte = byte := by
    rw [byteOffset, utf8Length_of_isAscii htake, List.length_take, Nat.min_eq_left hlength]
  conv_lhs => rw [← hoffset]
  exact startsBefore_byteOffset hlength

/-- Up to the end of the text `t.offsets` finds how many code points start before `byte`, with a
table or without. -/
theorem toChar_offsets {t : Text} {byte : Nat} (h : byte ≤ t.utf8Length) :
    t.offsets.toChar byte = t.startsBefore byte := by
  unfold offsets
  split
  case isTrue hascii => exact (startsBefore_of_isAscii hascii h).symm
  case isFalse => exact t.toChar_tableOffsets byte

theorem byteOffset_le_utf8Length (t : Text) (i : Nat) : t.byteOffset i ≤ t.utf8Length := by
  have h := utf8Length_append (t.take i) (t.drop i)
  rw [List.take_append_drop] at h
  rw [byteOffset]
  omega

theorem toChar_byteOffset {t : Text} {i : Nat} (h : i ≤ t.length) :
    t.offsets.toChar (t.byteOffset i) = i :=
  (toChar_offsets (t.byteOffset_le_utf8Length i)).trans (startsBefore_byteOffset h)

theorem toChar_lt {t : Text} {a b : Nat} (ha : a ∈ t.byteStarts) (hb : b ∈ t.byteStarts)
    (h : a < b) : t.offsets.toChar a < t.offsets.toChar b := by
  obtain ⟨i, hi, rfl⟩ := List.mem_map.mp ha
  obtain ⟨j, hj, rfl⟩ := List.mem_map.mp hb
  rw [List.mem_range, Nat.lt_succ_iff] at hi hj
  rw [toChar_byteOffset hi, toChar_byteOffset hj]
  have := (byteOffset_le_iff hj hi).not.mp (Nat.not_le.mpr h)
  omega

theorem toChar_le_length {t : Text} {a : Nat} (h : a ∈ t.byteStarts) :
    t.offsets.toChar a ≤ t.length := by
  obtain ⟨i, hi, rfl⟩ := List.mem_map.mp h
  rw [List.mem_range, Nat.lt_succ_iff] at hi
  rwa [toChar_byteOffset hi]

theorem toChar_mono (t : Text) : Monotone t.offsets.toChar := by
  intro a b hab
  unfold offsets
  split
  · exact hab
  · rw [← tableOffsets, toChar_tableOffsets, toChar_tableOffsets]
    exact t.startsBefore_mono hab

end Text

end FlagFold
