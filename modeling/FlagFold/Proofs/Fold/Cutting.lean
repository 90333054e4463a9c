/-
  FlagFold.Proofs.Fold.Cutting

  What the evaluation of pragmas takes out of a source.  Where no line holds
  characters of two statements that go, a module is printed, and what the output
  copies is the source without one cut for each of these statements; no cut takes
  along any other code.
-/

import FlagFold.Proofs.Fold.Outcome
import FlagFold.Proofs.Print.Cuts

namespace FlagFold

namespace Node

variable {features : FeatureMap}

/-- `span` is that of a node below `n` that `mayGo`. -/
def IsOfMayGo (n : Node) (span : Nat × Nat) : Prop :=
  ∃ m ∈ n.subnodes, m.mayGo ∧ m.span = span

theorem IsOfMayGo.of_mem_children {n c : Node} {span : Nat × Nat} (hc : c ∈ n.children)
    (h : c.IsOfMayGo span) : n.IsOfMayGo span := by
  obtain ⟨m, hm, hgoes⟩ := h
  exact ⟨m, mem_subnodes_of_mem_children hc hm, hgoes⟩

theorem placeholders_makeRemoved (stmt : Node) (cs : List Comment) :
    ((makeRemoved stmt).withComments cs).placeholders = [(makeRemoved stmt).withComments cs] :=
  placeholders_removed rfl

/-- The placeholders in the elided tree of an `Untouched` node stand for statements of it that may
go. -/
theorem placeholders_elided {n : Node} (h : n.Untouched) (features : FeatureMap)
    (cs : List Comment) : ∀ p ∈ (n.elided features cs).placeholders, n.IsOfMayGo p.span := by
  induction n using Node.induction generalizing cs with
  | mk info shape ih =>
    have hsynthetic : ((mk info shape).elided features cs).info.synthetic = false := by
      rw [synthetic_elided]
      exact h.synthetic
    rw [placeholders_of_not_synthetic hsynthetic, List.forall_mem_flatMap]
    intro c hc p hp
    obtain ⟨item, hitem, hstands⟩ :=
      exists_of_mem_children_elided features h (S := fun _ => True) (by simp) cs c hc
    apply IsOfMayGo.of_mem_children hitem
    rcases hstands with ⟨-, hgoes, cs', rfl⟩ | ⟨cs', rfl, -⟩
    · -- The placeholder has the span of the statement.
      rw [placeholders_makeRemoved, List.mem_singleton] at hp
      exact ⟨item, mem_subnodes_self item, hgoes, hp ▸ rfl⟩
    · exact ih item hitem (h.of_mem_children hitem) cs' p hp

/-- If the placeholders of the elided program are pairwise `OnOtherLines`, it is printed, and what
is copied is the source without `cutSpan` of each. The cuts come one behind the other and `Spares`
all other code. -/
theorem print_elide_copies {program : Node} (h : program.Delivered) (features : FeatureMap) :
    let left := (program.elide features {}).1
    let cut := cutSpan program.source
    left.placeholders.Pairwise (OnOtherLines program.source) →
      ∃ chunks, left.printChunks = .ok chunks ∧
        left.print = .ok (Chunk.outputs program.source chunks) ∧
        Chunk.copies program.source chunks =
          program.source.without (left.placeholders.map cut) ∧
        (left.placeholders.map cut).Pairwise (·.2 ≤ ·.1) ∧
        ∀ n ∈ left.placeholders, program.IsOfMayGo n.span ∧
          program.source.Spares n.info.start n.info.stop (cut n) := by
  have hroot := h.root
  obtain ⟨info, shape⟩ := program
  cases shape with
  | program body source =>
    intro left cut hlines
    obtain ⟨cs, kept, hleft, hordered, hfoldable⟩ := elide_of_delivered h features
    have hsynthetic : ({ info with comments := cs } : Info).synthetic = false :=
      h.untouched.synthetic
    have hstands := placeholders_elided h.untouched features []
    rw [← elide_eq_elided (elide_fault_of_wellTyped h.wellTyped features {})] at hstands
    change left = _ at hleft
    have hinOrder : InOrder source left.placeholders := by
      rw [hleft, placeholders_mk hsynthetic]
      exact inOrder_flatMap hordered fun n hn => (hfoldable n hn).bare.placeholders_inOrder
    -- On lines of their own, no two of them share blanks; so no edits overlap.
    obtain ⟨hshares, hcuts⟩ := hinOrder.cuts hlines
    obtain ⟨edits, hedits, hinside, hapart⟩ := programEdits_of_placed _ hsynthetic hordered
      fun n hn m hm => (hfoldable n hn m hm).1
    have hspans := programEdits_of_bare hsynthetic (fun n hn => (hfoldable n hn).bare) hedits
    rw [← hleft] at hedits hapart hspans
    obtain ⟨chunks, hchunks, hcopies⟩ :=
      (Sheet.ofSource source).splice_copies hinside (hapart.mpr hshares) hspans hcuts
    have hprint : left.printChunks = .ok chunks := by
      rw [printChunks, hedits, ← hchunks, hleft]
      rfl
    have hcode : left.print = .ok (Chunk.outputs source chunks) := by
      rw [print, hprint, hleft]
      rfl
    exact ⟨chunks, hprint, hcode, hcopies, hcuts, fun n hn =>
      ⟨hstands n hn, spares_cutSpan (hinOrder.2 n hn)⟩⟩
  | _ => cases hroot

end Node

/-- A pragma and what it guards, each on its own line: only the call behind them is copied. -/
theorem print_elide_copies_ownLines :
    let source := text "'has(\"a\")';\nrequire('y');\nf();\n"
    let program := guardedLine [callBehind] source
    let left := (program.elide [(text "a", true)] {}).1
    program.Delivered ∧ left.placeholders.Pairwise (Node.OnOtherLines source) ∧
      ∃ chunks, left.printChunks = .ok chunks ∧
        left.print = .ok (Chunk.outputs source chunks) ∧
        Chunk.copies source chunks = text "f();\n" := by
  intro source program left
  have hdelivered : program.Delivered := by decide
  have hlines : left.placeholders.Pairwise (Node.OnOtherLines source) := by decide +kernel
  obtain ⟨chunks, hchunks, hcode, hcopies, -⟩ :=
    Node.print_elide_copies hdelivered [(text "a", true)] hlines
  refine ⟨hdelivered, hlines, chunks, hchunks, hcode, hcopies.trans ?_⟩
  decide +kernel

end FlagFold
