/-
  FlagFold.Proofs.Print.Program

  Printing a program, given the edits that its tree asks for: it succeeds just if
  each two of the edits are apart, and fails for an overlap otherwise.
-/

import FlagFold.Print.Program
import FlagFold.Proofs.Print.Edits

namespace FlagFold.Node

variable {program : Node} {edits : List Edit}

theorem programEdits_mk (info : Info) (shape : Shape Node) :
    (mk info shape).programEdits =
      (do return (← (mk info shape).sheet.listEdits shape.nodes) ++ (mk info shape).endEdit) := by
  rw [programEdits, shape_mk, Sheet.innerEdits_eq]

/-- Without comments at the program, `programEdits` are those of its nodes alone. -/
theorem programEdits_of_comments {info : Info} {shape : Shape Node} (hcomments : info.comments = [])
    (h : (mk info shape).sheet.listEdits shape.nodes = .ok edits) :
    (mk info shape).programEdits = .ok edits := by
  have hend : (mk info shape).endEdit = [] := by
    have hnone : (mk info shape).comments = [] := hcomments
    rw [endEdit, hnone]
    rfl
  rw [programEdits_mk, h, hend]
  simp only [bind, Except.bind, pure, Except.pure, List.append_nil]

/-- `endEdit` inserts behind all of the source and replaces nothing. -/
theorem span_of_mem_endEdit {e : Edit} (he : e ∈ program.endEdit) :
    e.start = program.source.length ∧ e.stop = program.source.length := by
  rw [endEdit] at he
  split at he
  · cases he
  · rw [List.mem_singleton.mp he]
    exact ⟨rfl, rfl⟩

/-- `endEdit` is `Apart` from all edits inside the source. -/
theorem pairwise_append_endEdit (hinside : ∀ e ∈ edits, e.stop ≤ program.source.length) :
    (edits ++ program.endEdit).Pairwise Edit.Apart ↔ edits.Pairwise Edit.Apart := by
  have hend : program.endEdit.Pairwise Edit.Apart := by
    rw [endEdit]
    split
    · exact .nil
    · exact List.pairwise_singleton _ _
  -- No edit goes beyond the source, and the one at the end is made behind it.
  have hacross : ∀ a ∈ edits, ∀ b ∈ program.endEdit, a.Apart b := by
    intro a ha b hb
    have := hinside a ha
    have := span_of_mem_endEdit hb
    exact .inl (by omega)
  rw [List.pairwise_append, and_iff_left ⟨hend, hacross⟩]

/-- `print` succeeds just if the `programEdits` are pairwise `Apart`; otherwise it reports an
overlap. -/
theorem print_cases (hedits : program.programEdits = .ok edits)
    (hspan : ∀ e ∈ edits, e.start ≤ e.stop) :
    edits.Pairwise Edit.Apart ∧ (∃ code, program.print = .ok code) ∨
    ¬ edits.Pairwise Edit.Apart ∧
      ∃ offset printed, program.print = .error (.overlap offset printed) := by
  have hfits : Edit.Fits 0 (Edit.sort edits) ↔ edits.Pairwise Edit.Apart :=
    Edit.fits_sort_iff fun e he => ⟨Nat.zero_le _, hspan e he⟩
  rw [← hfits]
  rw [print, printChunks, hedits]
  simp only [bind, Except.bind, Sheet.splice]
  rcases program.sheet.spliceFrom_cases program.source.length [] 0 (Edit.sort edits) with
    ⟨hfits, chunks, hchunks⟩ | ⟨hfits, offset, printed, herror⟩
  · exact .inl ⟨hfits, _, by rw [hchunks]; rfl⟩
  · exact .inr ⟨hfits, offset, printed, by rw [herror]⟩

/-- If `edits` come one behind the other, `printChunks` splices them as they are listed. -/
theorem printChunks_of_ordered (hedits : program.programEdits = .ok edits)
    (hspan : ∀ e ∈ edits, e.start ≤ e.stop) (hordered : edits.Pairwise (·.stop ≤ ·.start)) :
    program.printChunks = program.sheet.spliceFrom program.source.length [] 0 edits := by
  have hsort : Edit.sort edits = edits := by
    refine Edit.sort_of_pairwise (hordered.imp_of_mem fun {a b} ha hb hab => ?_)
    have := hspan a ha
    have := hspan b hb
    rw [Edit.le_iff]
    omega
  rw [printChunks, hedits]
  simp only [bind, Except.bind, Sheet.splice, hsort]

/-- If `edits` come one behind the other and none has `ownLine`, `print` puts their texts in the
places of their spans. -/
theorem print_of_ordered (hedits : program.programEdits = .ok edits)
    (hspan : ∀ e ∈ edits, e.start ≤ e.stop) (hordered : edits.Pairwise (·.stop ≤ ·.start))
    (hown : ∀ e ∈ edits, e.ownLine = false) :
    program.print = .ok (program.source.replaceFrom program.source.length 0 edits) := by
  have hfits : Edit.Fits 0 edits :=
    (Edit.fits_iff_pairwise hspan).mpr ⟨fun e _ => Nat.zero_le _, hordered⟩
  obtain ⟨chunks, hchunks, houtput⟩ :=
    program.sheet.spliceFrom_of_fits program.source.length [] hfits hown
  rw [print, printChunks_of_ordered hedits hspan hordered, hchunks]
  exact congrArg Except.ok houtput

end FlagFold.Node
