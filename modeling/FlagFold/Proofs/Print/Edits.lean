/-
  FlagFold.Proofs.Print.Edits

  The edits that a tree asks for, node by node: those of a form are those of the
  nodes it holds, one after the other.  A tree that has neither comments nor nodes
  made by a pass asks for none, and its text is that of the source.
-/

import FlagFold.Print.Render
import FlagFold.Proofs.Print.Splice
import FlagFold.Proofs.Tree.Nodes

namespace FlagFold

namespace Sheet

variable {sheet : Sheet}

theorem listEdits_append (ms ns : List Node) :
    sheet.listEdits (ms ++ ns) =
      (do return (← sheet.listEdits ms) ++ (← sheet.listEdits ns)) := by
  induction ms with
  | nil =>
    rw [List.nil_append, listEdits]
    cases sheet.listEdits ns <;> rfl
  | cons m rest ih =>
    rw [List.cons_append, listEdits, ih, listEdits]
    cases sheet.edits m with
    | error e => rfl
    | ok es =>
      cases sheet.listEdits rest with
      | error e => rfl
      | ok later =>
        cases sheet.listEdits ns with
        | error e => rfl
        | ok last => simp [bind, Except.bind, pure, Except.pure]

theorem optionEdits_eq (o : Option Node) : sheet.optionEdits o = sheet.listEdits o.toList := by
  cases o with
  | none => simp only [optionEdits, Option.toList_none, listEdits]
  | some n =>
    simp only [optionEdits, Option.toList_some, listEdits]
    cases sheet.edits n with
    | error e => rfl
    | ok es => simp [bind, Except.bind, pure, Except.pure]

/-- `innerEdits` are the edits of the nodes of `shape`, one after the other. -/
theorem innerEdits_eq (shape : Shape Node) :
    sheet.innerEdits shape = sheet.listEdits shape.nodes := by
  cases shape <;> simp only [innerEdits, Shape.nodes, optionEdits_eq, listEdits_append, listEdits]

/-- `edits` of a node that no pass has made: those for its comments, and those of its nodes. -/
theorem edits_of_not_synthetic {info : Info} (h : info.synthetic = false) (shape : Shape Node) :
    sheet.edits (.mk info shape) =
      (do return sheet.leadingEdit info ++ sheet.trailingEdit info shape ++
        (← sheet.listEdits shape.nodes)) := by
  cases shape <;> simp only [edits, h, Bool.false_eq_true, if_false, innerEdits_eq]

/-- `edits` of a made node without comments that is no placeholder: one, which puts the text of
`generate` in the place of its span. -/
theorem edits_of_synthetic {info : Info} (h : info.synthetic) (hcomments : info.comments = [])
    {shape : Shape Node} (hshape : shape ≠ .removed) :
    sheet.edits (.mk info shape) =
      (do return [⟨info.start, info.stop, ← sheet.generate shape, false⟩]) := by
  -- Without comments nothing stands beside the text.
  have htext : ∀ made : Text, Comment.blocksBefore [] ++ made ++ Comment.blocksAfter [] = made := by
    intro made
    simp [Comment.blocksBefore, Comment.blocksAfter]
  cases shape <;>
    first
    | exact absurd rfl hshape
    | simp only [edits, h, if_true, hcomments, List.filter_nil, htext]

/-- `render` of a node that no pass has made: its span of the source with the edits of its nodes
spliced in. -/
theorem render_of_not_synthetic {info : Info} (h : info.synthetic = false) (shape : Shape Node) :
    sheet.render (.mk info shape) = (do
      let inner ← sheet.listEdits shape.nodes
      return sheet.write (← sheet.splice info.start info.stop inner)) := by
  rw [render, if_neg (by rw [h]; exact Bool.false_ne_true), innerEdits_eq]

/-- Without edits, `splice` copies all from `start` to `stop`. -/
theorem splice_nil (start stop : Nat) :
    sheet.splice start stop [] = .ok (Chunk.copy start stop) := by
  rw [splice, Edit.sort, List.mergeSort_nil, spliceFrom]

/-- If `f n` has the edits `own n` for each of `ns`, the mapped list has all these in order. -/
theorem listEdits_map {ns : List Node} {f : Node → Node} {own : Node → List Edit}
    (h : ∀ n ∈ ns, sheet.edits (f n) = .ok (own n)) :
    sheet.listEdits (ns.map f) = .ok (ns.flatMap own) := by
  induction ns with
  | nil => rw [List.map_nil, listEdits, List.flatMap_nil]
  | cons n rest ih =>
    rw [List.forall_mem_cons] at h
    rw [List.map_cons, listEdits, h.1, ih h.2]
    rfl

/-- If `n` has the edits `own n` for each of `ns`, `listEdits` gives all these in order. -/
theorem listEdits_of_forall {ns : List Node} {own : Node → List Edit}
    (h : ∀ n ∈ ns, sheet.edits n = .ok (own n)) : sheet.listEdits ns = .ok (ns.flatMap own) := by
  simpa using listEdits_map (f := fun n => n) h

end Sheet

/-! ## Trees as they are delivered -/

/-- No node in `n` has a comment or was made by a pass. -/
def Node.Untouched (n : Node) : Prop :=
  ∀ m ∈ n.subnodes, m.info.comments = [] ∧ m.info.synthetic = false

instance (n : Node) : Decidable n.Untouched :=
  inferInstanceAs (Decidable (∀ m ∈ n.subnodes, _ ∧ _))

namespace Node

theorem Untouched.comments {n : Node} (h : n.Untouched) : n.info.comments = [] :=
  (h n (mem_subnodes_self n)).1

theorem Untouched.synthetic {n : Node} (h : n.Untouched) : n.info.synthetic = false :=
  (h n (mem_subnodes_self n)).2

theorem Untouched.of_mem_children {n c : Node} (h : n.Untouched) (hc : c ∈ n.children) :
    c.Untouched :=
  fun m hm => h m (mem_subnodes_of_mem_children hc hm)

end Node

namespace Sheet

variable {sheet : Sheet}

theorem edits_of_untouched {n : Node} (h : n.Untouched) : sheet.edits n = .ok [] := by
  induction n using Node.induction with
  | mk info shape ih =>
    have hinner : sheet.listEdits shape.nodes = .ok (shape.nodes.flatMap fun _ => []) :=
      listEdits_of_forall fun n hn => ih n hn (h.of_mem_children hn)
    have hcomments : info.comments = [] := h.comments
    have hsynthetic : info.synthetic = false := h.synthetic
    rw [edits_of_not_synthetic hsynthetic, hinner, leadingEdit, trailingEdit, hcomments]
    simp [bind, Except.bind, pure, Except.pure]

/-- An `Untouched` node is rendered as its span of the source. -/
theorem render_of_untouched {n : Node} (h : n.Untouched) :
    sheet.render n = .ok (sheet.source.slice n.info.start n.info.stop) := by
  cases n with
  | mk info shape =>
    have hinner : sheet.listEdits shape.nodes = .ok (shape.nodes.flatMap fun _ => []) :=
      listEdits_of_forall fun n hn => edits_of_untouched (h.of_mem_children hn)
    have hsynthetic : info.synthetic = false := h.synthetic
    rw [render_of_not_synthetic hsynthetic, hinner, List.flatMap_eq_nil_iff.mpr fun _ _ => rfl]
    simp [bind, Except.bind, pure, Except.pure, splice_nil, write]

end Sheet
end FlagFold
