/-
  FlagFold.Proofs.Tree.Layout

  Trees laid out on their source as a parser delivers them: the span of a node
  holds the spans of its children, and these come one after the other.
-/

import FlagFold.Proofs.Tree.Nodes

namespace FlagFold.Node

/-- Where `n` starts and where it stops. -/
def span (n : Node) : Nat × Nat := (n.info.start, n.info.stop)

/-- The span of `n` stops no earlier than it starts and holds those of its children, which come one
behind the other. -/
def SpansChildren (n : Node) : Prop :=
  n.info.start ≤ n.info.stop ∧
    (∀ c ∈ n.children, n.info.start ≤ c.info.start ∧ c.info.stop ≤ n.info.stop) ∧
    n.children.Pairwise (·.info.stop ≤ ·.info.start)

instance (n : Node) : Decidable n.SpansChildren := inferInstanceAs (Decidable (_ ∧ _ ∧ _))

/-- If `ns` and `ns'` have the same spans, every node of one has a counterpart in the other. -/
theorem exists_of_map_span {ns ns' : List Node} (h : ns'.map span = ns.map span) {c : Node}
    (hc : c ∈ ns') : ∃ d ∈ ns, d.info.start = c.info.start ∧ d.info.stop = c.info.stop := by
  have hspan : c.span ∈ ns.map span := by
    rw [← h]
    exact List.mem_map_of_mem hc
  obtain ⟨d, hd, heq⟩ := List.mem_map.mp hspan
  exact ⟨d, hd, congrArg Prod.fst heq, congrArg Prod.snd heq⟩

/-- If `ns` and `ns'` have the same spans, they are ordered alike. -/
theorem pairwise_of_map_span {ns ns' : List Node} (h : ns'.map span = ns.map span)
    (hordered : ns.Pairwise (·.info.stop ≤ ·.info.start)) :
    ns'.Pairwise (·.info.stop ≤ ·.info.start) := by
  have hspans : (ns.map span).Pairwise (·.2 ≤ ·.1) := List.pairwise_map.mpr hordered
  rw [← h] at hspans
  exact List.pairwise_map.mp hspans

/-- `SpansChildren` depends on the spans alone. -/
theorem SpansChildren.of_span {n n' : Node} (h : n.SpansChildren) (hspan : n'.span = n.span)
    (hchildren : n'.children.map span = n.children.map span) : n'.SpansChildren := by
  obtain ⟨hle, hinside, hordered⟩ := h
  have hstart : n'.info.start = n.info.start := congrArg Prod.fst hspan
  have hstop : n'.info.stop = n.info.stop := congrArg Prod.snd hspan
  refine ⟨by omega, fun c hc => ?_, pairwise_of_map_span hchildren hordered⟩
  obtain ⟨d, hd, hdstart, hdstop⟩ := exists_of_map_span hchildren hc
  have := hinside d hd
  omega

/-- Every node in `n` spans its children. -/
def LaidOut (n : Node) : Prop := ∀ m ∈ n.subnodes, m.SpansChildren

instance (n : Node) : Decidable n.LaidOut := inferInstanceAs (Decidable (∀ m ∈ n.subnodes, _))

theorem LaidOut.spansChildren {n : Node} (h : n.LaidOut) : n.SpansChildren :=
  h n (mem_subnodes_self n)

theorem LaidOut.of_mem_children {n c : Node} (h : n.LaidOut) (hc : c ∈ n.children) : c.LaidOut :=
  fun m hm => h m (mem_subnodes_of_mem_children hc hm)

end FlagFold.Node
