/-
  FlagFold.Proofs.Text.Pieces

  Splitting a text at a separator and joining the pieces again; texts in texts.
-/

import FlagFold.Text.Basic
import Mathlib.Data.List.Infix

namespace FlagFold.Text

theorem join_eq_intercalate (sep : Text) (ts : List Text) : join sep ts = sep.intercalate ts := by
  induction ts with
  | nil => rfl
  | cons t rest ih =>
    cases rest with
    | nil => simp [join]
    | cons next rest =>
      rw [join, ih, List.intercalate_cons_cons]
      simp

/-- A character of `join sep ts` stands in one of `ts` or in `sep`. -/
theorem mem_or_mem_of_mem_join {c : CodePoint} {sep : Text} {ts : List Text}
    (h : c ∈ join sep ts) : c ∈ sep ∨ ∃ t ∈ ts, c ∈ t := by
  induction ts with
  | nil => simp [join] at h
  | cons t rest ih =>
    cases rest with
    | nil => exact .inr ⟨t, by simp, h⟩
    | cons next rest =>
      rw [join, List.mem_append, List.mem_append] at h
      · rcases h with (h | h) | h
        · exact .inr ⟨t, by simp, h⟩
        · exact .inl h
        · exact (ih h).imp_right fun ⟨u, hu, hc⟩ => ⟨u, List.mem_cons_of_mem _ hu, hc⟩
      · simp

theorem splitOn_eq (sep : CodePoint) (t : Text) : splitOn sep t = List.splitOn sep t := by
  induction t with
  | nil => simp [splitOn]
  | cons c rest ih =>
    rw [splitOn, ih, List.splitOn_cons_eq_if_modifyHead]
    split
    · simp_all
    · simp_all
      cases h : List.splitOn sep rest with
      | nil => exact absurd h (List.splitOn_ne_nil sep rest)
      | cons piece pieces => rfl

/-- `splitOn` takes apart what `join` has joined by a separator `sep` that none of the texts
holds. -/
theorem splitOn_join {sep : CodePoint} {ts : List Text} (hts : ts ≠ [])
    (hsep : ∀ t ∈ ts, sep ∉ t) : splitOn sep (join [sep] ts) = ts := by
  rw [splitOn_eq, join_eq_intercalate]
  exact List.splitOn_intercalate sep hsep hts

theorem splitOn_ne_nil (sep : CodePoint) (t : Text) : splitOn sep t ≠ [] := by
  rw [splitOn_eq]
  exact List.splitOn_ne_nil sep t

/-- There is one piece more than there are separators in `t`. -/
theorem length_splitOn (sep : CodePoint) (t : Text) :
    (splitOn sep t).length = t.count sep + 1 := by
  induction t with
  | nil => rfl
  | cons c rest ih =>
    rw [splitOn, List.count_cons]
    by_cases hc : c = sep
    · rw [if_pos hc, List.length_cons, ih]
      simp [hc]
    · -- A character other than the separator goes to the first piece.
      rw [if_neg hc]
      cases h : splitOn sep rest with
      | nil => exact absurd h (splitOn_ne_nil sep rest)
      | cons piece pieces =>
        rw [h] at ih
        simpa [hc] using ih

theorem occursIn_iff {needle t : Text} : needle.occursIn t ↔ needle <:+: t := by
  induction t with
  | nil => simp [occursIn]
  | cons c rest ih =>
    rw [occursIn, Bool.or_eq_true, List.isPrefixOf_iff_prefix, ih, List.infix_cons_iff]

theorem slice_infix (t : Text) (a b : Nat) : t.slice a b <:+: t :=
  (List.take_prefix _ _).isInfix.trans (List.drop_suffix _ _).isInfix

end FlagFold.Text
