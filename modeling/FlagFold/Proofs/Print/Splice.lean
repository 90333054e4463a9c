/-
  FlagFold.Proofs.Print.Splice

  When edits can be carried out, and what comes of it.  Sorted edits can be
  carried out if none begins before the one before it has ended; whether the edits
  of a list can be is thus a property of each two of them (`Edit.Apart`), in
  whatever order they are listed.
-/

import FlagFold.Print.Edit
import FlagFold.Proofs.Text.Lines
import FlagFold.Proofs.World.Steps
import Mathlib.Data.List.Sort

namespace FlagFold

namespace Edit

/-- Each edit starts at or after the stop of the one before it, the first one at or after
`cursor`. -/
def Fits (cursor : Nat) : List Edit → Prop
  | [] => True
  | edit :: rest => cursor ≤ edit.start ∧ Fits edit.stop rest

/-- One of `a` and `b` stops where the other starts, or before. -/
def Apart (a b : Edit) : Prop := a.stop ≤ b.start ∨ b.stop ≤ a.start

theorem Apart.symm {a b : Edit} (h : Apart a b) : Apart b a := Or.symm h

/-- `Fits` says that all edits start at `cursor` or later, and each stops before all later ones
start. -/
theorem fits_iff_pairwise {cursor : Nat} {edits : List Edit}
    (hspan : ∀ e ∈ edits, e.start ≤ e.stop) :
    Fits cursor edits ↔
      (∀ e ∈ edits, cursor ≤ e.start) ∧ edits.Pairwise (·.stop ≤ ·.start) := by
  induction edits generalizing cursor with
  | nil => simp [Fits]
  | cons edit rest ih =>
    rw [List.forall_mem_cons] at hspan
    rw [Fits, ih hspan.2, List.forall_mem_cons, List.pairwise_cons]
    constructor
    · rintro ⟨hstart, hrest, hpairs⟩
      refine ⟨⟨hstart, fun e he => ?_⟩, hrest, hpairs⟩
      have := hrest e he
      omega
    · rintro ⟨⟨hstart, -⟩, hrest, hpairs⟩
      exact ⟨hstart, hrest, hpairs⟩

/-! ## Sorting -/

theorem le_iff {a b : Edit} :
    a.le b ↔ a.start < b.start ∨ a.start = b.start ∧ a.stop ≤ b.stop := by
  simp [le]

theorem le_trans' (a b c : Edit) (hab : a.le b) (hbc : b.le c) : a.le c := by
  rw [le_iff] at *
  omega

theorem le_total' (a b : Edit) : a.le b || b.le a := by
  rw [Bool.or_eq_true, le_iff, le_iff]
  omega

theorem sort_perm (edits : List Edit) : (sort edits).Perm edits := List.mergeSort_perm edits _

theorem pairwise_sort (edits : List Edit) : (sort edits).Pairwise (·.le ·) :=
  List.pairwise_mergeSort le_trans' le_total' edits

theorem sort_of_pairwise {edits : List Edit} (h : edits.Pairwise (·.le ·)) :
    sort edits = edits := List.mergeSort_of_pairwise h

/-- If `a` comes before `b` in `Edit.le`, they are `Apart` just if `a` stops before `b` starts. -/
theorem apart_iff_of_le {a b : Edit} (hb : b.start ≤ b.stop) (hle : a.le b) :
    Apart a b ↔ a.stop ≤ b.start := by
  rw [le_iff] at hle
  unfold Apart
  omega

/-- The sorted edits `Fits` just if the edits are pairwise `Apart`. -/
theorem fits_sort_iff {cursor : Nat} {edits : List Edit}
    (hspan : ∀ e ∈ edits, cursor ≤ e.start ∧ e.start ≤ e.stop) :
    Fits cursor (sort edits) ↔ edits.Pairwise Apart := by
  have hsorted : ∀ e ∈ sort edits, cursor ≤ e.start ∧ e.start ≤ e.stop :=
    fun e he => hspan e ((sort_perm edits).mem_iff.mp he)
  rw [fits_iff_pairwise fun e he => (hsorted e he).2,
    and_iff_right fun e he => (hsorted e he).1, ← (sort_perm edits).pairwise_iff Apart.symm]
  constructor
  · exact fun h => h.imp Or.inl
  · intro h
    -- Of two edits that are apart the one that is sorted first ends first.
    apply (h.and (pairwise_sort edits)).imp_of_mem
    intro a b _ hb hab
    exact (apart_iff_of_le (hsorted b hb).2 hab.2).mp hab.1

end Edit

/-! ## Carrying out edits -/

/-- The output of the last of `chunks`, or `last` where there is none. -/
def Chunk.lastOutput (source last : Text) (chunks : List Chunk) : Text :=
  (chunks.map (output source)).getLastD last

@[simp] theorem Chunk.lastOutput_nil (source last : Text) : lastOutput source last [] = last := rfl

@[simp] theorem Chunk.lastOutput_singleton (source last : Text) (chunk : Chunk) :
    lastOutput source last [chunk] = chunk.output source := rfl

@[simp] theorem Chunk.lastOutput_append (source last : Text) (chunks later : List Chunk) :
    lastOutput source last (chunks ++ later) =
      lastOutput source (lastOutput source last chunks) later := by
  simp [lastOutput, List.getLastD_eq_getLast?, List.getLast?_append]

namespace Sheet

/-- The chunk that is put in for `edit` behind the output `last`: none if its `insertion` is
empty. -/
def inserts (sheet : Sheet) (last : Text) (edit : Edit) : List Chunk :=
  let t := sheet.insertion last edit
  if t.isEmpty then [] else [.inserted edit.start t]

/-- `spliceFrom` at an edit copies what is before it, puts its text in and goes on behind it. -/
theorem spliceFrom_cons {sheet : Sheet} {stop cursor : Nat} {last : Text} {edit : Edit}
    (h : cursor ≤ edit.start) (rest : List Edit) :
    sheet.spliceFrom stop last cursor (edit :: rest) =
      let copied := Chunk.copy cursor edit.start
      let here := copied ++ sheet.inserts (Chunk.lastOutput sheet.source last copied) edit
      do
        return here ++
          (← sheet.spliceFrom stop (Chunk.lastOutput sheet.source last here) edit.stop rest) := by
  -- Nothing is copied, or one chunk.
  obtain hcopy | hcopy : Chunk.copy cursor edit.start = [] ∨
      Chunk.copy cursor edit.start = [.copied cursor edit.start] := by
    unfold Chunk.copy
    split <;> simp
  all_goals
    rw [spliceFrom, if_neg (Nat.not_lt.mpr h)]
    simp only [hcopy, inserts, Chunk.lastOutput_append, Chunk.lastOutput_nil,
      Chunk.lastOutput_singleton]
    split
    case isTrue =>
      rw [List.append_nil, Chunk.lastOutput_nil]
    case isFalse => rfl

/-- `spliceFrom` succeeds if `edits` fit from `cursor` on, and reports an overlap otherwise. -/
theorem spliceFrom_cases (sheet : Sheet) (stop : Nat) (last : Text) (cursor : Nat)
    (edits : List Edit) :
    Edit.Fits cursor edits ∧ (∃ chunks, sheet.spliceFrom stop last cursor edits = .ok chunks) ∨
    ¬ Edit.Fits cursor edits ∧
      ∃ offset printed,
        sheet.spliceFrom stop last cursor edits = .error (.overlap offset printed) := by
  induction edits generalizing last cursor with
  | nil => exact .inl ⟨trivial, _, rfl⟩
  | cons edit rest ih =>
    rw [Edit.Fits]
    by_cases hstart : cursor ≤ edit.start
    · rw [spliceFrom_cons hstart, and_iff_right hstart]
      simp only
      rcases ih _ edit.stop with ⟨hfits, chunks, hchunks⟩ | ⟨hfits, offset, printed, herror⟩
      · exact .inl ⟨hfits, by rw [hchunks]; exact ⟨_, rfl⟩⟩
      · exact .inr ⟨hfits, offset, printed, by rw [herror]; rfl⟩
    · rw [spliceFrom, if_pos (Nat.not_le.mp hstart)]
      exact .inr ⟨fun h => absurd h.1 hstart, _, _, rfl⟩

/-- The `insertion` of `e` is its text, with `sheet.newline` before it only where `e.ownLine`. -/
theorem insertion_eq (sheet : Sheet) (last : Text) (e : Edit) :
    sheet.insertion last e = e.text ∨
      e.ownLine ∧ e.text ≠ [] ∧ sheet.insertion last e = sheet.newline ++ e.text := by
  unfold insertion
  split
  case isTrue hown =>
    rw [Bool.and_eq_true, Bool.not_eq_true', List.isEmpty_eq_false_iff] at hown
    -- Whatever character comes before it.
    generalize (if last.isEmpty then sheet.source.slice (e.start - 1) e.start
      else last.drop (last.length - 1)) = previous
    dsimp only
    split
    · exact .inr ⟨hown.1, hown.2, rfl⟩
    · exact .inl rfl
  case isFalse => exact .inl rfl

/-- If `spliceFrom` succeeds, the first edit starts at `cursor` or later, and the rest is spliced
from its stop on. -/
theorem exists_of_spliceFrom_cons {sheet : Sheet} {stop cursor : Nat} {last : Text} {edit : Edit}
    {rest : List Edit} {chunks : List Chunk}
    (h : sheet.spliceFrom stop last cursor (edit :: rest) = .ok chunks) :
    cursor ≤ edit.start ∧ ∃ before last' later,
      sheet.spliceFrom stop last' edit.stop rest = .ok later ∧
        let t := sheet.insertion before edit
        chunks = Chunk.copy cursor edit.start ++
          ((if t.isEmpty then [] else [.inserted edit.start t]) ++ later) := by
  have hstart : cursor ≤ edit.start := by
    by_contra hlt
    rw [spliceFrom, if_pos (Nat.not_le.mp hlt)] at h
    cases h
  rw [spliceFrom_cons hstart] at h
  obtain ⟨later, hrest, hchunks⟩ := exists_of_bind_eq_ok h
  cases hchunks
  exact ⟨hstart, _, _, later, hrest, List.append_assoc ..⟩

end Sheet

/-- `source` from `cursor` to `stop` with the texts of the edits in the places of their spans. -/
def Text.replaceFrom (source : Text) (stop cursor : Nat) : List Edit → Text
  | [] => source.slice cursor stop
  | edit :: rest =>
    source.slice cursor edit.start ++ edit.text ++ source.replaceFrom stop edit.stop rest

namespace Chunk

variable {source : Text}

theorem outputs_append (chunks later : List Chunk) :
    outputs source (chunks ++ later) = outputs source chunks ++ outputs source later :=
  List.flatMap_append

@[simp] theorem outputs_copy (start stop : Nat) :
    outputs source (copy start stop) = source.slice start stop := by
  rw [copy]
  split
  · rw [Text.slice, Nat.sub_eq_zero_of_le ‹_›, List.take_zero]
    rfl
  · simp [outputs, output]

/-- The output of the chunk for an insertion `t` is `t`, also where it is empty. -/
theorem outputs_inserted (offset : Nat) (t : Text) :
    outputs source (if t.isEmpty then [] else [.inserted offset t]) = t := by
  split
  case isTrue hempty => rw [List.isEmpty_iff.mp hempty]; rfl
  case isFalse => simp [outputs, output]

end Chunk

/-- Edits that fit, and have no `ownLine`, are spliced to `replaceFrom`. -/
theorem Sheet.spliceFrom_of_fits (sheet : Sheet) (stop : Nat) (last : Text) {cursor : Nat}
    {edits : List Edit} (hfits : Edit.Fits cursor edits)
    (hown : ∀ e ∈ edits, e.ownLine = false) :
    ∃ chunks, sheet.spliceFrom stop last cursor edits = .ok chunks ∧
      Chunk.outputs sheet.source chunks = sheet.source.replaceFrom stop cursor edits := by
  induction edits generalizing last cursor with
  | nil => exact ⟨_, rfl, Chunk.outputs_copy cursor stop⟩
  | cons edit rest ih =>
    rw [List.forall_mem_cons] at hown
    -- Without a line of its own a text goes in as it is, whatever comes before it.
    have hinsertion : ∀ last, sheet.insertion last edit = edit.text := by
      intro last
      simp [insertion, hown.1]
    obtain ⟨chunks, hchunks, houtput⟩ := ih _ hfits.2 hown.2
    rw [spliceFrom_cons hfits.1]
    simp only
    refine ⟨_, by rw [hchunks]; rfl, ?_⟩
    rw [Chunk.outputs_append, Chunk.outputs_append, Chunk.outputs_copy, inserts,
      Chunk.outputs_inserted, hinsertion, houtput, Text.replaceFrom]

end FlagFold
