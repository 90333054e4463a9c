/-
  FlagFold.Proofs.Tree.Equality

  Trees compared by value: node by node, each by what it has of its own and by its
  form without the nodes that it holds.
-/

import FlagFold.Proofs.Tree.Traversal

namespace FlagFold

deriving instance DecidableEq for Shape

namespace Shape

variable {α β γ : Type}

/-- `refill` does not depend on the nodes that it replaces. -/
theorem refill_of_map (g : α → γ) (s : Shape α) (ns : List β) :
    (s.map g).refill ns = s.refill ns := by
  cases s <;> simp [map, refill, Option.toList_map]

/-- A shape is determined by its `nodes` and by what it is without them. -/
theorem eq_of_nodes {s t : Shape α} (hform : s.map (fun _ => ()) = t.map fun _ => ())
    (hnodes : s.nodes = t.nodes) : s = t :=
  calc s = s.refill s.nodes := s.refill_nodes.symm
    _ = t.refill t.nodes := by
      rw [← refill_of_map (fun _ => ()), hform, refill_of_map, hnodes]
    _ = t := t.refill_nodes

end Shape

namespace Node

/-- Compares two trees. The nodes that the first one holds come with what tells whether they are the
same as another node. -/
def same : Node → Node → Bool :=
  foldUp fun info shape other =>
    info = other.info && shape.map (fun _ => ()) = other.shape.map (fun _ => ()) &&
      List.all₂ (·.2 ·) shape.nodes other.shape.nodes

/-- If `same` decides equality for each of `ns`, comparing `ns` with `others` item by item decides
whether the lists are equal. -/
theorem all₂_same {ns others : List Node} (h : ∀ n ∈ ns, ∀ m, n.same m ↔ n = m) :
    List.all₂ (fun (p : Node × (Node → Bool)) other => p.2 other)
      (ns.map fun n => (n, n.same)) others ↔ ns = others := by
  induction ns generalizing others with
  | nil => cases others <;> simp [List.all₂]
  | cons n rest ih =>
    rw [List.forall_mem_cons] at h
    cases others with
    | nil => simp [List.all₂]
    | cons other others =>
      rw [List.map_cons, List.all₂, List.cons.injEq, ← ih h.2, ← h.1]
      simp

/-- `same` decides equality of trees; by induction on the first one. -/
theorem same_iff {n m : Node} : n.same m ↔ n = m := by
  induction n using Node.induction generalizing m with
  | mk info shape ih =>
    have hform : ((fun _ => ()) : Node × (Node → Bool) → Unit) ∘ (fun n => (n, n.same)) =
        fun _ => () := rfl
    rw [same, foldUp_mk, ← same]
    simp only [Shape.map_map, hform, Shape.nodes_map, Bool.and_eq_true, decide_eq_true_eq,
      all₂_same fun n hn m => ih n hn (m := m), and_assoc]
    cases m with
    | mk info' shape' =>
      rw [Node.mk.injEq]
      refine and_congr_right fun _ => ⟨fun h => Shape.eq_of_nodes h.1 h.2, ?_⟩
      rintro rfl
      exact ⟨rfl, rfl⟩

instance : DecidableEq Node := fun _ _ => decidable_of_iff _ same_iff

end Node
end FlagFold
