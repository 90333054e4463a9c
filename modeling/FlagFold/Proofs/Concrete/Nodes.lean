/-
  FlagFold.Proofs.Concrete.Nodes

  The nodes of a concrete syntax tree in the order of a walk, all of them or only those
  to which a walk comes that passes some children over.
-/

import FlagFold.Proofs.Tree.OfConcrete

namespace FlagFold.Concrete

/-! ## Walks -/

mutual

/-- The nodes that a walk from a node comes to, each before those below it, if it goes from a node
to the children that `enters` takes. It is given the node, the number of children before the one in
question, and that one. -/
def preorder (enters : Concrete → Nat → Concrete → Bool) : Concrete → List Concrete
  | ⟨kind, start, stop, field, anonymous, missing, children⟩ =>
    let node : Concrete := ⟨kind, start, stop, field, anonymous, missing, children⟩
    node :: preorderAmong enters node 0 children

/-- The nodes that the walk comes to by way of the children of `parent` from the one with the given
`number` on. -/
def preorderAmong (enters : Concrete → Nat → Concrete → Bool) (parent : Concrete) (number : Nat) :
    List Concrete → List Concrete
  | [] => []
  | child :: rest =>
    (if enters parent number child then preorder enters child else []) ++
      preorderAmong enters parent (number + 1) rest

end

/-- The children of `node` to which the walk goes. -/
def entered (enters : Concrete → Nat → Concrete → Bool) (node : Concrete) : List Concrete :=
  (node.children.zipIdx.filter fun p => enters node p.2 p.1).map (·.1)

theorem preorder_eq (enters : Concrete → Nat → Concrete → Bool) (node : Concrete) :
    node.preorder enters = node :: (node.entered enters).flatMap (preorder enters) := by
  have hamong : ∀ (cs : List Concrete) (number : Nat), preorderAmong enters node number cs =
      (((cs.zipIdx number).filter fun p => enters node p.2 p.1).map (·.1)).flatMap
        (preorder enters) := by
    intro cs
    induction cs with
    | nil =>
      intro number
      rw [preorderAmong]
      rfl
    | cons child rest ih =>
      intro number
      rw [preorderAmong, ih, List.zipIdx_cons, List.filter_cons]
      split <;> simp_all
  obtain ⟨kind, start, stop, field, anonymous, missing, children⟩ := node
  rw [preorder, hamong]
  rfl

/-- If `enters` depends on the child alone, by `p`, the walk goes to the children that satisfy
`p`. -/
theorem entered_of_filter {enters : Concrete → Nat → Concrete → Bool} {node : Concrete}
    {p : Concrete → Bool} (h : ∀ i, ∀ c ∈ node.children, enters node i c = p c) :
    node.entered enters = node.children.filter p := by
  conv_rhs => rw [← List.zipIdx_map_fst 0 node.children, List.filter_map]
  rw [entered, List.filter_congr]
  exact fun q hq => h q.2 q.1 (List.mem_of_getElem? (List.mem_zipIdx_iff_getElem?.mp hq))

/-! ## All nodes -/

/-- All nodes below `root` and itself, each before those below it. -/
def subnodes (root : Concrete) : List Concrete := root.preorder fun _ _ _ => true

theorem subnodes_eq (node : Concrete) : node.subnodes = node :: node.children.flatMap subnodes := by
  have hall : node.entered (fun _ _ _ => true) = node.children :=
    (entered_of_filter (p := fun _ => true) fun _ _ _ => rfl).trans (List.filter_true _)
  rw [subnodes, preorder_eq, hall]
  rfl

theorem mem_subnodes_self (node : Concrete) : node ∈ node.subnodes := by
  rw [subnodes_eq]
  exact List.mem_cons_self

theorem mem_subnodes_of_mem_children {node c m : Concrete} (hc : c ∈ node.children)
    (hm : m ∈ c.subnodes) : m ∈ node.subnodes := by
  rw [subnodes_eq]
  exact List.mem_cons_of_mem _ (List.mem_flatMap.mpr ⟨c, hc, hm⟩)

/-- What holds of a node if it holds of all nodes below it holds of every node. -/
@[elab_as_elim]
theorem induction {P : Concrete → Prop}
    (step : ∀ node, (∀ c ∈ node.children, ∀ m ∈ c.subnodes, P m) → P node) (node : Concrete) :
    P node := by
  suffices h : ∀ m ∈ node.subnodes, P m from h node (mem_subnodes_self node)
  induction hsize : sizeOf node using Nat.strongRecOn generalizing node with
  | ind size ih =>
    have hbelow : ∀ c ∈ node.children, ∀ m ∈ c.subnodes, P m := fun c hc =>
      ih _ (hsize ▸ sizeOf_lt_of_mem_children hc) c rfl
    intro m hm
    rw [subnodes_eq, List.mem_cons] at hm
    rcases hm with rfl | hm
    · exact step m hbelow
    · obtain ⟨c, hc, hm⟩ := List.mem_flatMap.mp hm
      exact hbelow c hc m hm

theorem mem_subnodes_trans {node m k : Concrete} (hm : m ∈ node.subnodes) (hk : k ∈ m.subnodes) :
    k ∈ node.subnodes := by
  induction node using induction with
  | step node ih =>
    rw [subnodes_eq, List.mem_cons] at hm
    rcases hm with rfl | hm
    · exact hk
    · obtain ⟨c, hc, hm⟩ := List.mem_flatMap.mp hm
      exact mem_subnodes_of_mem_children hc (ih c hc c (mem_subnodes_self c) hm)

/-! ## Children that play a part -/

/-- The child with the given `number` is the first that plays the part `field`. -/
def isPlayedBy (node : Concrete) (field : String) (number : Nat) : Bool :=
  node.children.findIdx? (·.field = some field) == some number

/-- No child that plays `second` stands before one that plays `first`. -/
def InOrder (node : Concrete) (first second : String) : Prop :=
  node.children.Pairwise fun c d => ¬ (c.field = some second ∧ d.field = some first)

instance (node : Concrete) (first second : String) : Decidable (node.InOrder first second) :=
  inferInstanceAs (Decidable (List.Pairwise _ _))

/-- Filtering `xs.zipIdx` for one number leaves the item there. -/
theorem filter_zipIdx_eq {α : Type} (xs : List α) (number i : Nat) :
    ((xs.zipIdx number).filter (·.2 == number + i)).map (·.1) = xs[i]?.toList := by
  induction xs generalizing number i with
  | nil => rfl
  | cons x rest ih =>
    rw [List.zipIdx_cons, List.filter_cons]
    cases i with
    | zero =>
      have hlater : (rest.zipIdx (number + 1)).filter (·.2 == number + 0) = [] := by
        rw [List.filter_eq_nil_iff]
        intro p hp
        have hle := (List.mem_zipIdx hp).1
        rw [beq_iff_eq]
        omega
      rw [if_pos (by simp), hlater]
      rfl
    | succ i =>
      have hi : number + (i + 1) = number + 1 + i := by omega
      rw [if_neg (by simp), hi, ih, List.getElem?_cons_succ]

/-- The only child that `isPlayedBy` picks is `child? field`. -/
theorem filter_isPlayedBy (node : Concrete) (field : String) :
    (node.children.zipIdx.filter fun p => node.isPlayedBy field p.2).map (·.1) =
      (node.child? field).toList := by
  rw [child?, List.find?_eq_bind_findIdx?_getElem?]
  unfold isPlayedBy
  cases node.children.findIdx? (·.field = some field) with
  | none => simp
  | some i =>
    have h := filter_zipIdx_eq node.children 0 i
    simp only [Nat.zero_add] at h
    rw [Option.bind_some, ← h]
    congr 2
    funext p
    rw [Bool.eq_iff_iff, beq_iff_eq, beq_iff_eq, Option.some_inj, eq_comm]

theorem field_of_isPlayedBy {node : Concrete} {field : String} {p : Concrete × Nat}
    (hp : p ∈ node.children.zipIdx) (h : node.isPlayedBy field p.2) : p.1.field = some field := by
  obtain ⟨hlt, hfield, -⟩ := List.findIdx?_eq_some_iff_getElem.mp (beq_iff_eq.mp h)
  have hchild := List.mem_zipIdx_iff_getElem?.mp hp
  rw [List.getElem?_eq_getElem hlt, Option.some_inj] at hchild
  rw [← hchild]
  exact of_decide_eq_true hfield

/-- If all that satisfies `p` comes before what satisfies `q`, filtering for either is filtering for
`p` and then for `q`. -/
theorem filter_or_eq_append {α : Type} {p q : α → Bool} {xs : List α}
    (hapart : ∀ x ∈ xs, p x → q x = false) (horder : xs.Pairwise fun x y => q x → p y = false) :
    xs.filter (fun x => p x || q x) = xs.filter p ++ xs.filter q := by
  induction xs with
  | nil => rfl
  | cons x rest ih =>
    rw [List.forall_mem_cons] at hapart
    obtain ⟨hx, hrest⟩ := List.pairwise_cons.mp horder
    rw [List.filter_cons, List.filter_cons, List.filter_cons, ih hapart.2 hrest]
    by_cases hp : p x
    · simp [hp, hapart.1 hp]
    · by_cases hq : q x
      · have hnone : rest.filter p = [] :=
          List.filter_eq_nil_iff.mpr fun y hy => by simp [hx y hy hq]
        simp [hp, hq, hnone]
      · simp [hp, hq]

/-- A walk that enters the first child that plays `first` and the first that plays `second` goes to
them in this order, if they are `InOrder`. -/
theorem entered_of_isPlayedBy {enters : Concrete → Nat → Concrete → Bool} {node : Concrete}
    {first second : String} (hne : first ≠ second) (horder : node.InOrder first second)
    (henters : ∀ i c, enters node i c = (node.isPlayedBy first i || node.isPlayedBy second i)) :
    node.entered enters = (node.child? first).toList ++ (node.child? second).toList := by
  have hfield : ∀ {field p}, p ∈ node.children.zipIdx → node.isPlayedBy field p.2 →
      p.1.field = some field := field_of_isPlayedBy
  simp only [entered, henters]
  rw [filter_or_eq_append, List.map_append, filter_isPlayedBy, filter_isPlayedBy]
  · intro p hp hfirst
    rw [← Bool.not_eq_true]
    intro hsecond
    exact hne (Option.some.inj ((hfield hp hfirst).symm.trans (hfield hp hsecond)))
  · have hpairs : node.children.zipIdx.Pairwise fun p q =>
        ¬ (p.1.field = some second ∧ q.1.field = some first) := by
      rw [← List.pairwise_map (f := fun p : Concrete × Nat => p.1)
        (R := fun c d => ¬ (c.field = some second ∧ d.field = some first)), List.zipIdx_map_fst]
      exact horder
    refine hpairs.imp_of_mem fun hp hq hno hsecond => ?_
    rw [← Bool.not_eq_true]
    exact fun hfirst => hno ⟨hfield hp hsecond, hfield hq hfirst⟩

end FlagFold.Concrete
