/-
  FlagFold.Proofs.Fold.PragmaFree

  Trees in which no statement of a list is a pragma.  The evaluation of pragmas leaves
  such a tree, whatever tree it is given, and leaves alone a tree that is one; the
  folding of queries makes no pragma.
-/

import FlagFold.Fold.Module
import FlagFold.Proofs.Fold.ListRule
import FlagFold.Proofs.Fold.Dynamic

namespace FlagFold

namespace Node

/-- No statement of a list in `n` is a pragma. -/
def PragmaFree (n : Node) : Prop :=
  ∀ m ∈ n.subnodes, ∀ p ∈ m.children.zipIdx, m.kind.hasStatementAt p.2 → p.1.pragma? = none

instance (n : Node) : Decidable n.PragmaFree :=
  inferInstanceAs (Decidable (∀ m ∈ n.subnodes, ∀ p ∈ m.children.zipIdx, _))

theorem pragmaFree_mk {info : Info} {shape : Shape Node} :
    (mk info shape).PragmaFree ↔
      (∀ p ∈ shape.nodes.zipIdx, shape.kind.hasStatementAt p.2 → p.1.pragma? = none) ∧
        ∀ c ∈ shape.nodes, c.PragmaFree := by
  rw [PragmaFree, subnodes, preorder_mk, if_pos rfl, List.forall_mem_cons,
    List.forall_mem_flatMap]
  rfl

theorem PragmaFree.of_mem_children {n c : Node} (h : n.PragmaFree) (hc : c ∈ n.children) :
    c.PragmaFree :=
  fun m hm => h m (mem_subnodes_of_mem_children hc hm)

/-- If `f` makes no pragma of a node, the mapped tree is `PragmaFree` just if its own list has no
pragma and all mapped nodes are. -/
theorem pragmaFree_map {f : Node → Node} {shape : Shape Node}
    (h : ∀ c ∈ shape.nodes, (f c).pragma? = c.pragma?) (info : Info) :
    (mk info (shape.map f)).PragmaFree ↔
      (∀ p ∈ shape.nodes.zipIdx, shape.kind.hasStatementAt p.2 → p.1.pragma? = none) ∧
        ∀ c ∈ shape.nodes, (f c).PragmaFree := by
  rw [pragmaFree_mk, Shape.kind_map, Shape.nodes_map, List.zipIdx_map, List.forall_mem_map,
    List.forall_mem_map]
  refine and_congr_left fun _ => forall₂_congr fun p hp => ?_
  rw [Prod.map_fst, Prod.map_snd, id_eq, h p.1 (List.fst_mem_of_mem_zipIdx hp)]

/-! ## Which nodes are pragmas -/

/-- `pragma?` depends on the value of the expression in a statement. -/
theorem pragma?_map {f : Node → Node} {shape : Shape Node}
    (h : ∀ c ∈ shape.nodes, (f c).literal? = c.literal?) (info info' : Info) :
    (mk info' (shape.map f)).pragma? = (mk info shape).pragma? := by
  cases shape with
  | expressionStatement e =>
    cases e with
    | none => rfl
    | some e =>
      have hvalue := h e (by simp [Shape.nodes])
      simp only [pragma?, shape_mk, Shape.map, Option.map_some, hvalue]
  | _ => rfl

end Node

/-! ## Trees without pragmas are left alone -/

/-- `elidedItems` of a list without pragmas, read with an idle machine, is the list of the elided
items. -/
theorem elidedItems_of_no_pragma (features : FeatureMap) {parent : Kind} {field : Field}
    (hplace : ∀ index following,
      Place.isStatement ⟨parent, field, some index, following⟩ = parent.hasStatementAt index)
    {items : List Node} {index : Nat}
    (h : ∀ p ∈ items.zipIdx index, parent.hasStatementAt p.2 → p.1.pragma? = none) :
    elidedItems features parent field index .idle [] (items.map fun n => (n, n.elided features)) =
      (items.map (·.elided features []), []) := by
  induction items generalizing index with
  | nil => rfl
  | cons stmt rest ih =>
    rw [List.zipIdx_cons, List.forall_mem_cons] at h
    simp only [List.map_cons, elidedItems, hplace, ih h.2]
    split
    case isTrue hstatement =>
      have hstep : ElisionState.step features .idle stmt = (.ok none, .idle) := by
        rw [ElisionState.step, h.1 hstatement]
      rw [hstep]
      simp only [ih h.2]
    case isFalse => rfl

namespace Node

variable {features : FeatureMap}

/-- `elided` leaves a `PragmaFree` tree as it is; by induction on the tree. -/
theorem elided_of_pragmaFree {n : Node} (h : n.PragmaFree) : n.elided features [] = n := by
  induction n using Node.induction with
  | mk info shape ih =>
    have hkept : ∀ c ∈ shape.nodes, c.elided features [] = c :=
      fun c hc => ih c hc (h.of_mem_children hc)
    -- Without a pragma nothing is taken out of a list, and no comment goes on.
    have hshape : elidedShape features (shape.map fun n => (n, n.elided features)) =
        (shape.map (·.elided features []), []) := by
      by_cases hlist : shape.kind.isStatementList
      · have hstmts := h _ (mem_subnodes_self _)
        cases shape with
        | program body source =>
          have hplace : ∀ index following,
              Place.isStatement ⟨.program, .body, some index, following⟩ =
                Kind.program.hasStatementAt index := fun _ _ => rfl
          exact congrArg (fun read => (Shape.program read.1 source, read.2))
            (elidedItems_of_no_pragma features hplace hstmts)
        | generic name items =>
          exact congrArg (fun read => (Shape.generic name read.1, read.2))
            (elidedItems_of_no_pragma features (Place.isStatement_children name) hstmts)
        | _ => simp [Shape.kind, Kind.isStatementList] at hlist
      · rw [elidedShape_of_not_isStatementList (by rwa [Shape.kind_map]), Shape.map_map]
        rfl
    rw [elided_mk, hshape]
    simp only [Comment.atEnd, List.map_nil, List.nil_append, List.append_nil, Node.mk.injEq,
      true_and]
    rw [Shape.map_congr hkept, Shape.map_id']

/-! ## What the evaluation of pragmas leaves -/

theorem literal?_byListRule (n : Node) : (n.byListRule features).literal? = n.literal? := by
  cases n with
  | mk info shape =>
    cases shape with
    | program | generic => rw [byListRule_mk]; rfl
    | _ =>
      rw [byListRule_of_no_list features (by simp [Shape.kind]) (by simp [Shape.kind])]
      exact literal?_map _ info info _

theorem pragma?_byListRule (n : Node) : (n.byListRule features).pragma? = n.pragma? := by
  cases n with
  | mk info shape =>
    cases shape with
    | program | generic => rw [byListRule_mk]; rfl
    | _ =>
      rw [byListRule_of_no_list features (by simp [Shape.kind]) (by simp [Shape.kind])]
      exact pragma?_map (fun c _ => literal?_byListRule c) info info

/-- No statement of `ruledItems` is a pragma. -/
theorem pragma?_of_mem_ruledItems {parent : Kind} {items : List Node} {p : Node × Nat}
    (hp : p ∈ (ruledItems features parent
      (items.map fun n => (n, n.byListRule features))).zipIdx)
    (hstatement : parent.hasStatementAt p.2) : p.1.pragma? = none := by
  have hitem := List.mem_zipIdx_iff_getElem?.mp hp
  rw [getElem?_ruledItems, Option.map_eq_some_iff] at hitem
  obtain ⟨item, hitem, hn⟩ := hitem
  cases htaken : isTakenOut features parent items p.2 with
  | true =>
    rw [htaken] at hn
    rw [← hn]
    rfl
  | false =>
    -- A pragma would have been taken out.
    rw [htaken] at hn
    rw [isTakenOut, hstatement, hitem] at htaken
    simp only [Bool.true_and, Option.any_some, Bool.or_eq_false_iff] at htaken
    rw [← hn]
    exact (pragma?_byListRule item).trans (by simpa using htaken.1)

/-- Every item of `ruledItems` is `PragmaFree` if all items with the rule kept below them are. -/
theorem pragmaFree_of_mem_ruledItems {parent : Kind} {items : List Node} {n : Node}
    (h : ∀ item ∈ items, (item.byListRule features).PragmaFree)
    (hn : n ∈ ruledItems features parent (items.map fun n => (n, n.byListRule features))) :
    n.PragmaFree := by
  obtain ⟨index, hindex⟩ := List.mem_iff_getElem?.mp hn
  rw [getElem?_ruledItems, Option.map_eq_some_iff] at hindex
  obtain ⟨item, hitem, rfl⟩ := hindex
  split
  · rw [makeRemoved, pragmaFree_mk]
    simp [Shape.nodes]
  · exact h item (List.mem_of_getElem? hitem)

/-- `byListRule` leaves no pragma; by induction on the tree. -/
theorem pragmaFree_byListRule (n : Node) : (n.byListRule features).PragmaFree := by
  induction n using Node.induction with
  | mk info shape ih =>
    cases shape with
    | program | generic =>
      rw [byListRule_mk]
      exact pragmaFree_mk.mpr ⟨fun p => pragma?_of_mem_ruledItems,
        fun c => pragmaFree_of_mem_ruledItems ih⟩
    | _ =>
      rw [byListRule_of_no_list features (by simp [Shape.kind]) (by simp [Shape.kind])]
      exact (pragmaFree_map (fun c _ => pragma?_byListRule c) info).mpr
        ⟨fun p hp hstatement => (by cases hstatement), ih⟩

/-- `eraseComments` makes no pragma, and takes none away. -/
theorem pragmaFree_eraseComments {n : Node} : n.eraseComments.PragmaFree ↔ n.PragmaFree := by
  have hliteral : ∀ n : Node, n.eraseComments.literal? = n.literal? := by
    rintro ⟨info, shape⟩
    rw [eraseComments_mk]
    exact literal?_map _ info _ shape
  have hpragma : ∀ n : Node, n.eraseComments.pragma? = n.pragma? := by
    rintro ⟨info, shape⟩
    rw [eraseComments_mk]
    exact pragma?_map (fun c _ => hliteral c) info _
  induction n using Node.induction with
  | mk info shape ih =>
    rw [eraseComments_mk, pragmaFree_map (fun c _ => hpragma c), pragmaFree_mk]
    exact and_congr_right fun _ => forall₂_congr ih

/-- `elided` leaves no pragma. -/
theorem pragmaFree_elided (n : Node) (carried : List Comment) :
    (n.elided features carried).PragmaFree := by
  rw [← pragmaFree_eraseComments, eraseComments_elided, pragmaFree_eraseComments]
  exact pragmaFree_byListRule n

/-! ## What the folding of queries leaves -/

variable {ctx : FoldContext}

theorem pragma?_rebuild (n : Node) : (n.rebuild ctx.entry).pragma? = n.pragma? :=
  ctx.view_rebuild pragma? (fun _ _ _ _ => rfl) (fun _ _ => rfl)
    (fun info _ => pragma?_map (fun c _ => ctx.literal?_rebuild c) info info) n

/-- The answer to a query of a `PragmaFree` node is `PragmaFree`. -/
theorem pragmaFree_answered {n : Node} (h : n.PragmaFree) (query : Query) (value : Bool) :
    (FoldContext.answered n query value).PragmaFree := by
  have hboolean : ∀ n, (makeBoolean value n).PragmaFree := by
    intro n
    rw [makeBoolean, pragmaFree_mk]
    simp [Shape.nodes]
  unfold FoldContext.answered
  split
  case h_1 callee first second rest optional hshape =>
    have hbelow : ∀ c ∈ n.children, c.PragmaFree := fun c => h.of_mem_children
    rw [children, hshape] at hbelow
    rw [pragmaFree_mk]
    refine ⟨fun p hp hstatement => (by cases hstatement), ?_⟩
    simp only [Shape.nodes, List.forall_mem_append, List.forall_mem_cons] at hbelow ⊢
    exact ⟨hbelow.1, hbelow.2.1, hboolean second, by simp⟩
  case h_2 => exact hboolean n

/-- `rebuild` makes no pragma; by induction on the tree. -/
theorem pragmaFree_rebuild {n : Node} (h : n.PragmaFree) : (n.rebuild ctx.entry).PragmaFree := by
  induction n using Node.induction with
  | mk info shape ih =>
    rw [rebuild_mk]
    rcases ctx.entry_cases (.mk info shape) with
      ⟨query, value, -, -, -, hentry⟩ | ⟨-, -, hentry⟩ | ⟨-, -, hentry, -⟩
    · rw [hentry]
      exact pragmaFree_answered h query value
    · rw [hentry]
      exact h
    · rw [hentry]
      exact (pragmaFree_map (fun c _ => pragma?_rebuild c) info).mpr
        ⟨(pragmaFree_mk.mp h).1, fun c hc => ih c hc (h.of_mem_children hc)⟩

theorem pragmaFree_foldQueries {program : Node} (h : program.PragmaFree) (ctx : FoldContext)
    (dynamic : List Text) : (program.foldQueries ctx dynamic).1.PragmaFree := by
  rw [foldQueries_fst]
  cases program with
  | mk info shape =>
    exact (pragmaFree_map (fun c _ => pragma?_rebuild c) info).mpr
      ⟨(pragmaFree_mk.mp h).1, fun c hc => pragmaFree_rebuild (h.of_mem_children hc)⟩

/-! ## Both passes -/

end Node
end FlagFold
