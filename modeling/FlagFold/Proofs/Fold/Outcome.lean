/-
  FlagFold.Proofs.Fold.Outcome

  Whether a module can be printed after both passes.  It can, unless two statements
  that were taken out stand one behind the other with only blanks between them and
  the second one ends its line: the cuts for both then take these blanks, and the
  printer reports an overlap.
-/

import FlagFold.Fold.Module
import FlagFold.Proofs.Fold.Delivered
import FlagFold.Proofs.Fold.QueryText

namespace FlagFold

/-! ## The text of a registration that is answered -/

namespace Sheet

variable {sheet : Sheet}

/-- `render` succeeds for a node below which there are no edits. -/
theorem render_of_no_edits {n : Node} (hsynthetic : n.info.synthetic = false)
    (h : sheet.listEdits n.children = .ok []) : ∃ t, sheet.render n = .ok t := by
  cases n with
  | mk info shape =>
    have hinner : sheet.listEdits shape.nodes = .ok [] := h
    rw [Node.info_mk] at hsynthetic
    rw [render_of_not_synthetic hsynthetic, hinner]
    simp only [bind, Except.bind, splice_nil]
    exact ⟨_, rfl⟩

end Sheet

namespace FoldContext

variable {ctx : FoldContext} {sheet : Sheet}

/-- The root of a `Foldable` tree is `Askable` and not made by a pass, unless it is a
placeholder. -/
theorem askable_of_foldable {n : Node} (h : n.Foldable sheet) (hkind : n.kind ≠ .removed) :
    n.Askable sheet.source ∧ n.info.synthetic = false := by
  have hn := (h n (Node.mem_preorder_self _ n)).2
  refine ⟨hn, ?_⟩
  by_contra hmade
  exact hkind (hn.made (by simpa using hmade))

/-- The children of a `Foldable` node are `Foldable`, if no pass has made it. -/
theorem foldable_of_mem_children {n c : Node} (h : n.Foldable sheet)
    (hsynthetic : n.info.synthetic = false) (hc : c ∈ n.children) : c.Foldable sheet :=
  fun m hm => h m (Node.mem_preorder_of_mem_children (by rw [hsynthetic]; rfl) hc hm)

theorem kind_of_isNamed {n : Node} {name : Option Text} (h : n.isNamed name) :
    n.kind = .identifier := by
  unfold Node.isNamed at h
  split at h
  case h_1 hshape => rw [Node.kind, hshape]; rfl
  case h_2 => cases h

/-- `render` succeeds for a `Foldable` name. -/
theorem render_of_isNamed {n : Node} {name : Option Text} (h : n.Foldable sheet)
    (hname : n.isNamed name) : ∃ t, sheet.render n = .ok t := by
  have hkind := kind_of_isNamed hname
  apply Sheet.render_of_no_edits (askable_of_foldable h (by simp [hkind])).2
  cases n with
  | mk info shape =>
    cases shape <;> first | rfl | cases hkind

/-- A name without comments has no edits. -/
theorem edits_of_isNamed {n : Node} {name : Option Text} (h : n.Foldable sheet)
    (hname : n.isNamed name) (hcomments : n.kind = .identifier → n.info.comments = []) :
    sheet.edits n = .ok [] := by
  have hkind := kind_of_isNamed hname
  have hbare := hcomments hkind
  have hsynthetic := (askable_of_foldable h (by simp [hkind])).2
  cases n with
  | mk info shape =>
    have hnodes : shape.nodes = [] := by
      cases shape <;> first | rfl | cases hkind
    rw [Node.info_mk] at hbare hsynthetic
    rw [Sheet.edits_of_not_synthetic hsynthetic, hnodes, Sheet.leadingEdit, Sheet.trailingEdit,
      hbare]
    rfl

/-- `render` succeeds for the callee of a registration. -/
theorem render_callee {callee : Node} (h : callee.Foldable sheet)
    (hquery : ctx.binding.query? callee 2 = some .registration) :
    ∃ t, sheet.render callee = .ok t := by
  rcases callee_of_registration hquery with hname | hmember
  · exact render_of_isNamed h hname
  · unfold Node.isMember at hmember
    split at hmember
    case h_2 => cases hmember
    case h_1 object property optional hshape =>
      rw [Bool.and_eq_true] at hmember
      have hkind : callee.kind = .member := by rw [Node.kind, hshape]; rfl
      have hchildren : callee.children = [object, property] := by
        rw [Node.children, hshape]; rfl
      obtain ⟨hask, hsynthetic⟩ := askable_of_foldable h (by simp [hkind])
      have hobject := edits_of_isNamed (foldable_of_mem_children h hsynthetic (by simp [hchildren]))
        hmember.1 (hask.names hkind object (by simp [hchildren]))
      have hproperty := edits_of_isNamed
        (foldable_of_mem_children h hsynthetic (by simp [hchildren])) hmember.2
        (hask.names hkind property (by simp [hchildren]))
      apply Sheet.render_of_no_edits hsynthetic
      simp only [hchildren, Sheet.listEdits, hobject, hproperty]
      rfl

/-- `render` succeeds for a literal. -/
theorem render_literal {n : Node} {flag : Text} (h : n.Foldable sheet)
    (hliteral : n.literal? = some flag) : ∃ t, sheet.render n = .ok t := by
  have hnodes : n.children = [] ∧ n.kind ≠ .removed := by
    unfold Node.literal? at hliteral
    split at hliteral
    case h_1 hshape => simp [Node.children, Node.kind, hshape, Shape.nodes, Shape.kind]
    case h_2 hshape => simp [Node.children, Node.kind, hshape, Shape.nodes, Shape.kind]
    case h_3 => cases hliteral
  apply Sheet.render_of_no_edits (askable_of_foldable h hnodes.2).2
  rw [hnodes.1, Sheet.listEdits]

/-- `generate` succeeds for the answer to a query of a `Foldable` node. -/
theorem generate_answered {n : Node} {query : Query} {value : Bool} (h : n.Foldable sheet)
    (hasks : ctx.asks n = some query) (hanswer : ctx.answer? n = some value) :
    ∃ t, sheet.generate (answered n query value).shape = .ok t := by
  obtain ⟨callee, arguments, optional, hshape, hquery⟩ := asks_call hasks
  have hkind : n.kind = .call := by rw [Node.kind, hshape]; rfl
  have hsynthetic := (askable_of_foldable h (by simp [hkind])).2
  have hbelow : ∀ c, c = callee ∨ c ∈ arguments → c.Foldable sheet := by
    intro c hc
    apply foldable_of_mem_children h hsynthetic
    simpa [Node.children, hshape, Shape.nodes] using hc
  cases query with
  | registration =>
    obtain ⟨first, second, rest, rfl⟩ := arguments_of_registration hquery
    have hcallee := (query?_of_registration hquery).2
    obtain ⟨flag, hflag⟩ := literal_of_answer hanswer hshape
    obtain ⟨t, ht⟩ := render_callee (hbelow callee (by simp)) hcallee
    obtain ⟨t', ht'⟩ := render_literal (hbelow first (by simp)) hflag
    simp only [answered, hshape, Node.shape_mk, Sheet.generate, Sheet.renderList,
      Sheet.renderOption, ht, ht', Sheet.render_makeBoolean, bind, Except.bind, pure, Except.pure]
    exact ⟨_, rfl⟩
  | value | presence =>
    refine ⟨truthText value, ?_⟩
    simp only [answered, Node.makeBoolean, Node.shape_mk, Sheet.generate, truthText]

/-! ## Folding keeps a tree in its place -/

theorem info_answered (n : Node) (query : Query) (value : Bool) :
    (answered n query value).info = { n.info with comments := [], synthetic := true } := by
  unfold answered
  split <;> rfl

theorem kind_answered (n : Node) (query : Query) (value : Bool) :
    (answered n query value).kind ≠ .removed := by
  unfold answered
  split <;> simp [Node.makeBoolean, Node.kind, Shape.kind]

theorem kind_of_asks {n : Node} {query : Query} (h : ctx.asks n = some query) :
    n.kind = .call := by
  by_contra hkind
  rw [asks_of_not_call hkind] at h
  cases h

theorem span_rebuild (n : Node) : (n.rebuild ctx.entry).span = n.span := by
  cases n with
  | mk info shape =>
    rw [Node.rebuild_mk]
    rcases ctx.entry_cases (.mk info shape) with
      ⟨query, value, -, -, -, hentry⟩ | ⟨-, -, hentry⟩ | ⟨-, -, hentry, -⟩
    · rw [hentry]
      simp only [Node.span, info_answered]
    · rw [hentry]
    · rw [hentry]
      rfl

theorem isPlaceholder_rebuild (n : Node) :
    (n.rebuild ctx.entry).isPlaceholder = n.isPlaceholder := by
  cases n with
  | mk info shape =>
    rw [Node.rebuild_mk]
    rcases ctx.entry_cases (.mk info shape) with
      ⟨query, value, hasks, -, -, hentry⟩ | ⟨-, -, hentry⟩ | ⟨-, -, hentry, -⟩
    · rw [hentry]
      simp only [Node.isPlaceholder, kind_answered, kind_of_asks hasks, reduceCtorEq,
        decide_false, Bool.and_false]
    · rw [hentry]
    · have hkind : (Node.mk info (shape.map (·.rebuild ctx.entry))).kind =
          (Node.mk info shape).kind := Shape.kind_map _ shape
      rw [hentry]
      simp only [Node.isPlaceholder, Node.info_mk, hkind]

/-- A node that `Stays` does so with its children rebuilt. -/
theorem stays_map_rebuild {info : Info} {shape : Shape Node}
    (h : (Node.mk info shape).Stays sheet) :
    (Node.mk info (shape.map (·.rebuild ctx.entry))).Stays sheet := by
  have hspans : (shape.map (·.rebuild ctx.entry)).nodes.map Node.span =
      shape.nodes.map Node.span := by
    rw [Shape.nodes_map, List.map_map]
    exact List.map_congr_left fun c _ => span_rebuild c
  constructor
  case spans => exact h.spans.of_span rfl hspans
  case leading => exact h.leading
  case trailing =>
    intro c hc htrailing
    obtain ⟨hkind, hbraced⟩ := h.trailing c hc htrailing
    exact ⟨by rwa [Node.kind, Node.shape_mk, Shape.kind_map], hbraced.of_span rfl hspans⟩
  case cuts =>
    intro c hc hplaceholder
    rw [Node.children_mk, Shape.nodes_map] at hc
    obtain ⟨d, hd, rfl⟩ := List.mem_map.mp hc
    rw [isPlaceholder_rebuild] at hplaceholder
    have hstart : (d.rebuild ctx.entry).info.start = d.info.start :=
      congrArg Prod.fst (span_rebuild d)
    rw [hstart]
    exact h.cuts d hd hplaceholder

/-- All printed nodes of a rebuilt `Foldable` tree are `Placed`. -/
theorem placed_rebuild {n : Node} (h : n.Foldable sheet) :
    ∀ m ∈ (n.rebuild ctx.entry).printed, m.Placed sheet := by
  induction n using Node.induction with
  | mk info shape ih =>
    have hself := h (.mk info shape) (Node.mem_preorder_self _ _)
    rw [Node.rebuild_mk]
    rcases ctx.entry_cases (.mk info shape) with
      ⟨query, value, hasks, hanswer, -, hentry⟩ | ⟨-, -, hentry⟩ | ⟨-, -, hentry, -⟩
    · -- An answered query takes the place of the call and has a text.
      have hinfo := info_answered (.mk info shape) query value
      have hmade : (answered (.mk info shape) query value).info.synthetic = true := by rw [hinfo]
      rw [hentry, Node.printed_of_synthetic hmade]
      simp only [List.mem_singleton]
      rintro m rfl
      refine ⟨fun _ => ⟨?_, fun _ => ⟨?_, generate_answered h hasks hanswer⟩⟩, fun hstays => ?_⟩
      · rw [hinfo]
        exact hself.2.call (kind_of_asks hasks)
      · rw [hinfo]
      · rw [hmade] at hstays
        cases hstays
    · rw [hentry]
      exact fun m hm => (h m hm).1
    · rw [hentry]
      cases hsynthetic : info.synthetic with
      | true =>
        -- A placeholder holds nothing.
        have hshape : shape = .removed := by
          have hkind := hself.2.made hsynthetic
          cases shape <;> first | rfl | cases hkind
        subst hshape
        exact fun m hm => (h m hm).1
      | false =>
        obtain ⟨hstays, -, hchildren⟩ := (Node.foldable_mk hsynthetic).mp h
        simp only [Node.info_mk]
        rw [Node.printed_mk hsynthetic, List.forall_mem_cons, Shape.nodes_map, List.flatMap_map]
        refine ⟨⟨fun hmade => ?_, fun _ => stays_map_rebuild hstays⟩, fun m hm => ?_⟩
        · rw [Node.info_mk, hsynthetic] at hmade
          cases hmade
        · obtain ⟨c, hc, hm⟩ := List.mem_flatMap.mp hm
          exact ih c hc (hchildren c hc) m hm

end FoldContext

/-! ## Both passes -/

namespace Node

/-- `bindModule` meets no fault in a well-typed program. -/
theorem fault_bindModule {program : Node} (h : program.WellTyped) (features : FeatureMap)
    (path : Text) : (program.bindModule features path).2.fault = none := by
  unfold bindModule
  split
  · rfl
  · exact elide_fault_of_wellTyped h features {}

/-- `bindModule` meets no fault in a delivered program, and its statements are `Foldable` in their
spans. -/
theorem bindModule_of_delivered {info : Info} {body : List Node} {source : Text}
    (h : (mk info (.program body source)).Delivered) (features : FeatureMap) (path : Text) :
    let bound := (mk info (.program body source)).bindModule features path
    bound.2.fault = none ∧
      ∃ cs left, bound.1 = mk { info with comments := cs } (.program left source) ∧
        left.Pairwise (·.info.stop ≤ ·.info.start) ∧
        ∀ n ∈ left, n.Foldable (Sheet.ofSource source) := by
  refine ⟨fault_bindModule h.wellTyped features path, ?_⟩
  unfold bindModule
  split
  case isTrue =>
    exact ⟨info.comments, body, rfl, h.laidOut.spansChildren.2.2,
      fun n hn => (h.of_mem_children hn).foldable⟩
  case isFalse => exact elide_of_delivered h features

/-- `foldModule` meets no fault in a delivered program, and all printed nodes of it are `Placed`. -/
theorem foldModule_of_delivered {info : Info} {body : List Node} {source : Text}
    (h : (mk info (.program body source)).Delivered) (features : FeatureMap)
    (staticOnly : List Text) (path : Text) :
    let folded := (mk info (.program body source)).foldModule features staticOnly path
    folded.fault = none ∧
      ∃ cs left, folded.program = mk { info with comments := cs } (.program left source) ∧
        left.Pairwise (·.info.stop ≤ ·.info.start) ∧
        ∀ n ∈ left, ∀ m ∈ n.printed, m.Placed (Sheet.ofSource source) := by
  obtain ⟨hfault, cs, left, hbound, hordered, hfoldable⟩ :=
    bindModule_of_delivered h features path
  unfold foldModule
  generalize (mk info (.program body source)).bindModule features path = bound at hfault hbound ⊢
  obtain ⟨program, elision⟩ := bound
  simp only at hfault hbound ⊢
  rw [hfault, hbound]
  simp only [Option.isSome_none, Bool.false_eq_true, if_false]
  split
  · refine ⟨rfl, cs, _, foldQueries_fst _ _ _, ?_, ?_⟩
    · apply pairwise_of_map_span _ hordered
      rw [List.map_map]
      exact List.map_congr_left fun c _ => FoldContext.span_rebuild c
    · rw [List.forall_mem_map]
      exact fun n hn => FoldContext.placed_rebuild (hfoldable n hn)
  · exact ⟨rfl, cs, left, rfl, hordered, fun n hn m hm => (hfoldable n hn m hm).1⟩

/-- `foldModule` meets no fault in a well-typed program. -/
theorem fault_foldModule_of_wellTyped {program : Node} (h : program.WellTyped)
    (features : FeatureMap) (staticOnly : List Text) (path : Text) :
    (program.foldModule features staticOnly path).fault = none := by
  have hfault := fault_bindModule h features path
  unfold foldModule
  simp only [hfault, Option.isSome_none, Bool.false_eq_true, if_false]
  split <;> rfl

/-- `foldModule` meets no fault in a delivered program. -/
theorem fault_foldModule {program : Node} (h : program.Delivered) (features : FeatureMap)
    (staticOnly : List Text) (path : Text) :
    (program.foldModule features staticOnly path).fault = none :=
  fault_foldModule_of_wellTyped h.wellTyped features staticOnly path

/-- `foldModule` meets no fault in a delivered program, and the result is printed just if no two of
its `placeholders` share blanks; otherwise an overlap is reported. -/
theorem print_foldModule {program : Node} (h : program.Delivered) (features : FeatureMap)
    (staticOnly : List Text) (path : Text) :
    let folded := program.foldModule features staticOnly path
    let apart := ∀ a ∈ folded.program.placeholders, ∀ b ∈ folded.program.placeholders,
      ¬ program.source.sharesBlanks a.info.stop b.info.start b.info.stop
    folded.fault = none ∧ ((∃ code, folded.program.print = .ok code) ↔ apart) ∧
      (¬ apart → ∃ offset printed, folded.program.print = .error (.overlap offset printed)) := by
  have hroot := h.root
  obtain ⟨info, shape⟩ := program
  cases shape with
  | program body source =>
    have hsynthetic : info.synthetic = false := h.untouched.synthetic
    intro folded apart
    obtain ⟨hfault, cs, left, hfolded, hordered, hplaced⟩ :=
      foldModule_of_delivered h features staticOnly path
    refine ⟨hfault, ?_⟩
    have hprint := print_of_placed { info with comments := cs } hsynthetic hordered hplaced
    rw [← hfolded] at hprint
    rcases hprint with ⟨hapart, hcode⟩ | ⟨hnot, offset, printed, herror⟩
    · exact ⟨iff_of_true hcode hapart, fun hnot => absurd hapart hnot⟩
    · refine ⟨iff_of_false ?_ hnot, fun _ => ⟨offset, printed, herror⟩⟩
      rintro ⟨code, hcode⟩
      rw [hcode] at herror
      cases herror
  | _ => cases hroot

end Node

/-- A pragma and a statement that it guards on one line, and the statements `rest` behind them. -/
def guardedLine (rest : List Node) (source : Text) : Node :=
  let pragma : Node := .mk { stop := 10 } (.string (text "has(\"a\")") (text "'has(\"a\")'"))
  let load : Node := .mk { start := 12, stop := 24 }
    (.call (some (.mk { start := 12, stop := 19 } (.identifier (text "require"))))
      [.mk { start := 20, stop := 23 } (.string (text "y") (text "'y'"))] false)
  .mk { stop := source.length } (.program
    (.mk { stop := 11 } (.expressionStatement (some pragma)) ::
      .mk { start := 12, stop := 25 } (.expressionStatement (some load)) :: rest) source)

/-- A call on the line of `guardedLine`. -/
def callBehind : Node :=
  .mk { start := 26, stop := 30 } (.expressionStatement (some (.mk { start := 26, stop := 29 }
    (.call (some (.mk { start := 26, stop := 27 } (.identifier (text "f")))) [] false))))

/-- With a third statement on the line nothing overlaps. -/
theorem print_foldModule_thirdOnLine :
    let program := guardedLine [callBehind] (text "'has(\"a\")'; require('y'); f();")
    let folded := program.foldModule [(text "a", true)] [] []
    program.Delivered ∧ folded.fault = none ∧ ∃ code, folded.program.print = .ok code := by
  intro program folded
  have hdelivered : program.Delivered := {
    laidOut := by decide
    untouched := by decide
    written := by decide
    root := rfl
    wellTyped := by decide }
  obtain ⟨hfault, hprint, -⟩ := Node.print_foldModule hdelivered [(text "a", true)] [] []
  exact ⟨hdelivered, hfault, hprint.mpr (by decide +kernel)⟩

/-- Where pragma and statement end their line, both cuts take the blank between them. -/
theorem print_foldModule_sharedBlank :
    let program := guardedLine [] (text "'has(\"a\")'; require('y');\n")
    program.Delivered ∧
      (program.foldModule [(text "a", true)] [] []).program.print = .error (.overlap 11 12) := by
  intro program
  refine ⟨⟨⟨?laidOut, ?untouched, ?written⟩, rfl, ?wellTyped⟩, ?overlap⟩
  case overlap =>
    -- The cut for the first one ends behind the blank, that for the second one starts before it.
    obtain ⟨last, hedits, hstart, hstop⟩ :
        ∃ last, (program.foldModule [(text "a", true)] [] []).program.programEdits =
            .ok [⟨0, 12, [], false⟩, ⟨11, 25, [], false⟩, last] ∧
          last.start = 26 ∧ last.stop = 26 := ⟨_, rfl, rfl, rfl⟩
    have hsort : Edit.sort [⟨0, 12, [], false⟩, ⟨11, 25, [], false⟩, last] =
        [⟨0, 12, [], false⟩, ⟨11, 25, [], false⟩, last] := by
      apply Edit.sort_of_pairwise
      simp [Edit.le, hstart, hstop]
    rw [Node.print, Node.printChunks, hedits]
    simp only [bind, Except.bind, Sheet.splice, hsort]
    rfl
  all_goals decide

end FlagFold
