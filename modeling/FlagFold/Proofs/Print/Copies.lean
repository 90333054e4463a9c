/-
  FlagFold.Proofs.Print.Copies

  What an output copies from its source.  Whatever the edits insert, the copied
  chunks are the source without the spans of the edits, in their order, and of
  these only the spans that are not empty count.
-/

import FlagFold.Proofs.Print.Splice

namespace FlagFold

/-- The parts of `source` that `chunks` copy, one after the other. -/
def Chunk.copies (source : Text) (chunks : List Chunk) : Text :=
  chunks.flatMap fun chunk => match chunk with
    | .copied start stop => source.slice start stop
    | .inserted _ _ => []

namespace Text

/-- The part of `source` from `cursor` to `stop`, less the spans of the list. -/
def withoutFrom (source : Text) (stop cursor : Nat) : List (Nat × Nat) → Text
  | [] => source.slice cursor stop
  | (start, next) :: rest => source.slice cursor start ++ source.withoutFrom stop next rest

/-- `source` less `spans`. -/
def without (source : Text) (spans : List (Nat × Nat)) : Text :=
  source.withoutFrom source.length 0 spans

/-- If every span starts at `middle` or later, `withoutFrom` can be parted there. -/
theorem slice_append_withoutFrom (source : Text) {stop cursor middle : Nat}
    {spans : List (Nat × Nat)} (hcursor : cursor ≤ middle) (hstop : middle ≤ stop)
    (hspans : ∀ s ∈ spans, middle ≤ s.1) :
    source.slice cursor middle ++ source.withoutFrom stop middle spans =
      source.withoutFrom stop cursor spans := by
  cases spans with
  | nil => exact slice_append_slice source hcursor hstop
  | cons s rest =>
    have hfirst := hspans s List.mem_cons_self
    rw [withoutFrom, withoutFrom, ← List.append_assoc, slice_append_slice source hcursor hfirst]

/-- Empty spans can be left out of a list in order without changing `withoutFrom`. -/
theorem withoutFrom_filter (source : Text) {stop cursor : Nat} {spans : List (Nat × Nat)}
    (hcursor : cursor ≤ stop) (hspans : ∀ s ∈ spans, cursor ≤ s.1 ∧ s.1 ≤ s.2 ∧ s.2 ≤ stop)
    (hordered : spans.Pairwise (·.2 ≤ ·.1)) :
    source.withoutFrom stop cursor (spans.filter fun s => s.1 < s.2) =
      source.withoutFrom stop cursor spans := by
  induction spans generalizing cursor with
  | nil => rfl
  | cons s rest ih =>
    rw [List.forall_mem_cons] at hspans
    rw [List.pairwise_cons] at hordered
    obtain ⟨hfirst, hspan, hlast⟩ := hspans.1
    have hrest : ∀ t ∈ rest, s.2 ≤ t.1 ∧ t.1 ≤ t.2 ∧ t.2 ≤ stop := fun t ht =>
      ⟨hordered.1 t ht, (hspans.2 t ht).2⟩
    by_cases hwide : s.1 < s.2
    · rw [List.filter_cons_of_pos (by simpa using hwide), withoutFrom, withoutFrom,
        ih hlast hrest hordered.2]
    · -- An empty span parts the source and takes nothing out.
      have hempty : s.2 = s.1 := by omega
      rw [List.filter_cons_of_neg (by simpa using hwide), withoutFrom, hempty]
      rw [hempty] at hlast hrest
      rw [← ih hlast hrest hordered.2,
        slice_append_withoutFrom source hfirst hlast fun t ht => ?_]
      exact (hrest t (List.mem_of_mem_filter ht)).1

end Text

namespace Chunk

variable {source : Text}

@[simp] theorem copies_append (chunks later : List Chunk) :
    copies source (chunks ++ later) = copies source chunks ++ copies source later :=
  List.flatMap_append

@[simp] theorem copies_inserted (offset : Nat) (t : Text) (rest : List Chunk) :
    copies source (inserted offset t :: rest) = copies source rest := rfl

@[simp] theorem copies_copy (start stop : Nat) :
    copies source (copy start stop) = source.slice start stop := by
  rw [copy]
  split
  · rw [Text.slice, Nat.sub_eq_zero_of_le ‹_›, List.take_zero]
    rfl
  · simp [copies]

end Chunk

/-- The span of the source that `e` replaces, from `e.start` to `e.stop`. -/
def Edit.span (e : Edit) : Nat × Nat := (e.start, e.stop)

/-- What `spliceFrom` copies is the source from `cursor` to `stop`, less the spans of `edits`. -/
theorem Sheet.copies_spliceFrom {sheet : Sheet} {stop : Nat} {last : Text} {cursor : Nat}
    {edits : List Edit} {chunks : List Chunk}
    (h : sheet.spliceFrom stop last cursor edits = .ok chunks) :
    Chunk.copies sheet.source chunks =
      sheet.source.withoutFrom stop cursor (edits.map Edit.span) := by
  induction edits generalizing last cursor chunks with
  | nil =>
    rw [spliceFrom] at h
    cases h
    exact Chunk.copies_copy cursor stop
  | cons edit rest ih =>
    obtain ⟨-, before, last', later, hlater, rfl⟩ := exists_of_spliceFrom_cons h
    rw [Chunk.copies_append, Chunk.copies_append, Chunk.copies_copy, ih hlater, List.map_cons,
      Edit.span, Text.withoutFrom]
    split
    · rfl
    · rw [Chunk.copies_inserted]
      rfl

end FlagFold
