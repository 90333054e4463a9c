/-
  FlagFold.Proofs.SourceMap.Vlq

  Numbers written as base-64 digits are read back, whatever stands behind them.  A
  number may be written with more digits than it needs; the one that is written here has
  as few as can be (`length_encodeNat_le`), and a text that is no number is one whose
  digits break off (`BreaksOff`).
-/

import FlagFold.SourceMap.Vlq
import Mathlib.Algebra.Group.Nat.Defs

namespace FlagFold.Vlq

/-! ## Digits -/

/-- `digitValue?` of the digit for `n` is `n`, below 64. -/
theorem digitValue?_digit {n : Nat} (h : n < 64) : digitValue? (digit n) = some n := by
  have hall : ∀ i : Fin 64, digitValue? (digit i) = some i.val := by decide +kernel
  exact hall ⟨n, h⟩

/-- The digits for values below 64 are of the `alphabet`. -/
theorem digit_mem_alphabet {n : Nat} (h : n < 64) : digit n ∈ alphabet := by
  have hall : ∀ i : Fin 64, digit i ∈ alphabet := by decide +kernel
  exact hall ⟨n, h⟩

/-! ## Integers as numbers -/

theorem unzigzag_zigzag (v : Int) : unzigzag (zigzag v) = v := by
  unfold zigzag unzigzag
  split <;> split <;> omega

/-! ## Numbers -/

theorem encodeNat_ne_nil (n : Nat) : encodeNat n ≠ [] := by
  rw [encodeNat]
  split <;> simp

theorem encodeNat_subset_alphabet (n : Nat) : encodeNat n ⊆ alphabet := by
  induction n using Nat.strongRecOn with
  | ind n ih =>
    rw [encodeNat]
    split
    case isTrue h =>
      exact List.cons_subset.mpr ⟨digit_mem_alphabet (by omega), List.nil_subset _⟩
    case isFalse h =>
      exact List.cons_subset.mpr ⟨digit_mem_alphabet (by omega), ih (n / 32) (by omega)⟩

/-- `decodeNat` reads back what `encodeNat` has written for `n`; by induction on `n`, as each digit
but the last adds 32 to one base-32 digit of it. -/
theorem decodeNat_encodeNat (n : Nat) (rest : Text) :
    decodeNat (encodeNat n ++ rest) = .ok (n, (encodeNat n).length) := by
  induction n using Nat.strongRecOn with
  | ind n ih =>
    rw [encodeNat]
    split
    case isTrue h =>
      rw [List.cons_append, decodeNat, digitValue?_digit (by omega)]
      simp only [h, if_true, List.length_singleton]
    case isFalse h =>
      rw [List.cons_append, decodeNat, digitValue?_digit (by omega), ih (n / 32) (by omega)]
      have hmark : ¬ n % 32 + 32 < 32 := by omega
      have hvalue : n % 32 + 32 - 32 + 32 * (n / 32) = n := by omega
      simp only [hmark, if_false, bind, Except.bind, pure, Except.pure, hvalue, List.length_cons]

/-! ## Sequences of integers -/

theorem encode_ne_nil (v : Int) : encode v ≠ [] := encodeNat_ne_nil _

theorem encode_subset_alphabet (v : Int) : encode v ⊆ alphabet := encodeNat_subset_alphabet _

/-- `decodeAll` reads back the first integer `v` and goes on with `rest`. -/
theorem decodeAll_encode_append (v : Int) (rest : Text) :
    decodeAll (encode v ++ rest) = (decodeAll rest).map (v :: ·) := by
  have hdecode := decodeNat_encodeNat (zigzag v) rest
  rw [encode]
  cases hdigits : encodeNat (zigzag v) with
  | nil => exact absurd hdigits (encodeNat_ne_nil _)
  | cons c digits =>
    rw [hdigits, List.cons_append] at hdecode
    rw [List.cons_append, decodeAll]
    split
    case h_1 fault h =>
      rw [hdecode] at h
      cases h
    case h_2 n size h =>
      rw [hdecode] at h
      cases h
      -- Reading goes on behind the digits that the number takes.
      have hrest : (c :: (digits ++ rest)).drop (c :: digits).length = rest := by
        rw [← List.cons_append, List.drop_left]
      simp only [unzigzag_zigzag, hrest]

/-- The integers of `vs` written one after the other. -/
def encodeAll (vs : List Int) : Text := vs.flatMap encode

theorem decodeAll_encodeAll (vs : List Int) : decodeAll (encodeAll vs) = .ok vs := by
  induction vs with
  | nil => rw [encodeAll, List.flatMap_nil, decodeAll]
  | cons v rest ih =>
    rw [encodeAll, List.flatMap_cons, decodeAll_encode_append, ← encodeAll, ih]
    rfl

theorem encodeAll_ne_nil {vs : List Int} (h : vs ≠ []) : encodeAll vs ≠ [] := by
  cases vs with
  | nil => exact absurd rfl h
  | cons v rest => simp [encodeAll, encode_ne_nil]

theorem encodeAll_subset_alphabet (vs : List Int) : encodeAll vs ⊆ alphabet := by
  intro c hc
  obtain ⟨v, -, hv⟩ := List.mem_flatMap.mp hc
  exact encode_subset_alphabet v hv

/-! ## Where a number ends -/

/-- The digits without the mark, with which a number ends. -/
def lastDigits : Text := alphabet.take 32

/-- The digits with the mark, behind which the number goes on. -/
def markedDigits : Text := alphabet.drop 32

/-- Reading the number at the start of a text comes to something that is no digit, or to the end of
the text, with only `markedDigits` before it. -/
inductive BreaksOff : Text → MapFault → Prop where
  | atEnd {marked : Text} (h : marked ⊆ markedDigits) : BreaksOff marked .unterminatedNumber
  | atOther {marked : Text} (h : marked ⊆ markedDigits) {c : CodePoint} (hc : c ∉ alphabet)
      (rest : Text) : BreaksOff (marked ++ c :: rest) (.invalidDigit c)

theorem exists_digitValue?_of_mem_lastDigits {c : CodePoint} (h : c ∈ lastDigits) :
    ∃ d, digitValue? c = some d ∧ d < 32 := by
  have hall : ∀ c ∈ lastDigits, (digitValue? c).any (· < 32) := by decide +kernel
  simpa only [Option.any_eq_true, decide_eq_true_eq] using hall c h

theorem exists_digitValue?_of_mem_markedDigits {c : CodePoint} (h : c ∈ markedDigits) :
    ∃ d, digitValue? c = some d ∧ 32 ≤ d ∧ d < 64 := by
  have hall : ∀ c ∈ markedDigits, (digitValue? c).any fun d => 32 ≤ d && d < 64 := by
    decide +kernel
  simpa only [Option.any_eq_true, Bool.and_eq_true, decide_eq_true_eq] using hall c h

/-- `c` is a last digit, a marked digit or no digit. -/
theorem digit_cases (c : CodePoint) : c ∈ lastDigits ∨ c ∈ markedDigits ∨ c ∉ alphabet := by
  rw [← or_assoc, ← List.mem_append, lastDigits, markedDigits, List.take_append_drop]
  exact Decidable.em _

theorem decodeNat_cons_of_mem_lastDigits {c : CodePoint} (h : c ∈ lastDigits) (rest : Text) :
    ∃ d < 32, decodeNat (c :: rest) = .ok (d, 1) := by
  obtain ⟨d, hd, hlt⟩ := exists_digitValue?_of_mem_lastDigits h
  refine ⟨d, hlt, ?_⟩
  rw [decodeNat, hd]
  exact if_pos hlt

theorem decodeNat_cons_of_mem_markedDigits {c : CodePoint} (h : c ∈ markedDigits) (rest : Text) :
    ∃ d < 32, decodeNat (c :: rest) =
      (decodeNat rest).map fun (n, size) => (d + 32 * n, size + 1) := by
  obtain ⟨d, hd, hle, hlt⟩ := exists_digitValue?_of_mem_markedDigits h
  refine ⟨d - 32, by omega, ?_⟩
  rw [decodeNat, hd]
  dsimp only
  rw [if_neg (by omega)]
  cases decodeNat rest <;> rfl

theorem decodeNat_cons_of_not_mem {c : CodePoint} (h : c ∉ alphabet) (rest : Text) :
    decodeNat (c :: rest) = .error (.invalidDigit c) := by
  rw [decodeNat, digitValue?, List.idxOf?_eq_none_iff.mpr h]

/-- If `decodeNat` reads `n` from `size` digits, these are in `t`, and `n` has no more base-32
digits. -/
theorem of_decodeNat {t : Text} {n size : Nat} (h : decodeNat t = .ok (n, size)) :
    size ≤ t.length ∧ n < 32 ^ size := by
  induction t generalizing n size with
  | nil => cases h
  | cons c rest ih =>
    rcases digit_cases c with hc | hc | hc
    · obtain ⟨d, hlt, heq⟩ := decodeNat_cons_of_mem_lastDigits hc rest
      rw [heq] at h
      cases h
      exact ⟨Nat.succ_pos _, hlt⟩
    · obtain ⟨d, hlt, heq⟩ := decodeNat_cons_of_mem_markedDigits hc rest
      rw [heq] at h
      cases hrest : decodeNat rest with
      | error fault =>
        rw [hrest] at h
        cases h
      | ok read =>
        obtain ⟨n, size⟩ := read
        rw [hrest] at h
        cases h
        obtain ⟨hsize, hn⟩ := ih hrest
        rw [List.length_cons, Nat.pow_succ]
        omega
    · rw [decodeNat_cons_of_not_mem hc] at h
      cases h

theorem BreaksOff.cons {c : CodePoint} (hc : c ∈ markedDigits) {t : Text} {fault : MapFault}
    (h : BreaksOff t fault) : BreaksOff (c :: t) fault := by
  cases h with
  | atEnd h => exact .atEnd (List.cons_subset.mpr ⟨hc, h⟩)
  | atOther h hother rest => exact .atOther (List.cons_subset.mpr ⟨hc, h⟩) hother rest

/-- `decodeNat` fails just where the digits break off. -/
theorem decodeNat_eq_error_iff {t : Text} {fault : MapFault} :
    decodeNat t = .error fault ↔ BreaksOff t fault := by
  constructor
  · intro h
    induction t with
    | nil =>
      cases h
      exact .atEnd (List.nil_subset _)
    | cons c rest ih =>
      rcases digit_cases c with hc | hc | hc
      · obtain ⟨d, -, heq⟩ := decodeNat_cons_of_mem_lastDigits hc rest
        rw [heq] at h
        cases h
      · obtain ⟨d, -, heq⟩ := decodeNat_cons_of_mem_markedDigits hc rest
        rw [heq] at h
        cases hrest : decodeNat rest with
        | error fault' =>
          rw [hrest] at h ih
          cases h
          exact (ih rfl).cons hc
        | ok read =>
          rw [hrest] at h
          cases h
      · rw [decodeNat_cons_of_not_mem hc] at h
        cases h
        exact .atOther (List.nil_subset _) hc rest
  · intro h
    -- The marked digits are read one after the other, up to where they break off.
    have hmarked : ∀ {marked t : Text}, marked ⊆ markedDigits → decodeNat t = .error fault →
        decodeNat (marked ++ t) = .error fault := by
      intro marked t hsub ht
      induction marked with
      | nil => exact ht
      | cons c rest ih =>
        obtain ⟨hc, hrest⟩ := List.cons_subset.mp hsub
        obtain ⟨d, -, heq⟩ := decodeNat_cons_of_mem_markedDigits hc (rest ++ t)
        rw [List.cons_append, heq, ih hrest]
        rfl
    cases h with
    | @atEnd marked h =>
      rw [← List.append_nil t]
      exact hmarked h rfl
    | atOther h hc rest => exact hmarked h (decodeNat_cons_of_not_mem hc rest)

/-- `encodeNat` writes `n` with no more digits than it has in base 32, or with one. -/
theorem length_encodeNat_le {n size : Nat} (hsize : 0 < size) (h : n < 32 ^ size) :
    (encodeNat n).length ≤ size := by
  induction size generalizing n with
  | zero => omega
  | succ size ih =>
    rw [encodeNat]
    split
    case isTrue => exact Nat.succ_pos _
    case isFalse hn =>
      have hpos : 0 < size := by
        cases size with
        | zero => exact absurd h hn
        | succ _ => exact Nat.succ_pos _
      have hdiv : n / 32 < 32 ^ size := by
        rw [Nat.div_lt_iff_lt_mul (by decide), ← Nat.pow_succ]
        exact h
      exact Nat.succ_le_succ (ih hpos hdiv)

/-- `zigzag` gives the least number that stands for an integer: the only other one is that of the
negative zero. -/
theorem zigzag_unzigzag_le (n : Nat) : zigzag (unzigzag n) ≤ n := by
  unfold zigzag unzigzag
  split <;> split <;> omega

theorem decodeAt_eq_ok_iff {t : Text} {offset stop : Nat} {w : Int} :
    decodeAt t offset = .ok (w, stop) ↔
      ∃ n size, decodeNat (t.drop offset) = .ok (n, size) ∧ w = unzigzag n ∧
        stop = offset + size := by
  rw [decodeAt]
  cases decodeNat (t.drop offset) with
  | error fault => exact iff_of_false nofun nofun
  | ok read =>
    obtain ⟨n, size⟩ := read
    constructor
    · intro h
      cases h
      exact ⟨n, size, rfl, rfl, rfl⟩
    · rintro ⟨n, size, h, rfl, rfl⟩
      cases h
      rfl

theorem decodeAt_eq_error_iff {t : Text} {offset : Nat} {fault : MapFault} :
    decodeAt t offset = .error fault ↔ BreaksOff (t.drop offset) fault := by
  rw [← decodeNat_eq_error_iff, decodeAt]
  cases decodeNat (t.drop offset) with
  | error fault' =>
    constructor <;>
    · intro h
      cases h
      rfl
  | ok read => exact iff_of_false nofun nofun

theorem decodeAt_encode (before : Text) (v : Int) (behind : Text) :
    decodeAt (before ++ encode v ++ behind) before.length =
      .ok (v, before.length + (encode v).length) := by
  refine decodeAt_eq_ok_iff.mpr ⟨zigzag v, (encode v).length, ?_, (unzigzag_zigzag v).symm, rfl⟩
  rw [List.append_assoc, List.drop_left]
  exact decodeNat_encodeNat (zigzag v) behind

/-- `decodeAt` reads `v` back from between any two texts, and stops behind its last digit. Of all
the texts that are read as a number the one that `encode` writes is a shortest. There is no number
at `offset` just where, behind marked digits only, there is something that is no digit or the text
ends, and the `fault` says which. -/
theorem decodeAt_canonical (before behind t : Text) (v : Int) (offset : Nat) :
    decodeAt (before ++ encode v ++ behind) before.length =
      .ok (v, before.length + (encode v).length) ∧
    (∀ w stop, decodeAt t offset = .ok (w, stop) →
      offset < stop ∧ stop ≤ t.length ∧ (encode w).length ≤ (t.slice offset stop).length ∧
        decodeAt (encode w) 0 = .ok (w, (encode w).length)) ∧
    ∀ fault, decodeAt t offset = .error fault ↔ BreaksOff (t.drop offset) fault := by
  refine ⟨decodeAt_encode before v behind, fun w stop h => ?_, fun _ => decodeAt_eq_error_iff⟩
  obtain ⟨n, size, hread, rfl, rfl⟩ := decodeAt_eq_ok_iff.mp h
  have hpos := size_pos_of_decodeNat hread
  obtain ⟨hsize, hn⟩ := of_decodeNat hread
  have hlength : (encode (unzigzag n)).length ≤ size :=
    length_encodeNat_le hpos (Nat.lt_of_le_of_lt (zigzag_unzigzag_le n) hn)
  have hself := decodeAt_encode [] (unzigzag n) []
  rw [List.length_drop] at hsize
  rw [List.nil_append, List.append_nil, List.length_nil, Nat.zero_add] at hself
  refine ⟨by omega, by omega, ?_, hself⟩
  rw [Text.length_slice]
  omega

/-- The negative zero with a digit too many, behind a separator: it reads as zero, for which one
digit is enough. -/
theorem decodeAt_canonical_negativeZero :
    let t := text ",hA;"
    decodeAt t 1 = .ok (0, 3) ∧ (t.slice 1 3).length = 2 ∧ encode 0 = text "A" ∧
      decodeAt (encode 0) 0 = .ok (0, 1) := by
  intro t
  have hread : decodeAt t 1 = .ok (0, 3) := rfl
  have hzero : encode 0 = text "A" := by rw [encode, encodeNat]; rfl
  obtain ⟨-, hcanonical, -⟩ := decodeAt_canonical [] [] t 0 1
  refine ⟨hread, rfl, hzero, ?_⟩
  have h := (hcanonical 0 3 hread).2.2.2
  rwa [hzero] at h ⊢

end FlagFold.Vlq
