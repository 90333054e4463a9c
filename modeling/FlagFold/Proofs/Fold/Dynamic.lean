/-
  FlagFold.Proofs.Fold.Dynamic

  The flags that the folding of queries reports as dynamic: those of the queries for
  a value or for presence that have no answer because the flag is not known, in the
  order in which a walk comes to these queries.  Folding leaves these queries, so that
  the walk over a folded tree comes to the same ones.
-/

import FlagFold.Proofs.Fold.QueryText

namespace FlagFold

namespace FoldContext

/-- The flag for which `n` asks, for its value or its presence, if `ctx.features` does not have
it. -/
def unknown? (ctx : FoldContext) (n : Node) : Option Text := do
  let query ← ctx.asks n
  let flag ← flag? n
  guard (query ≠ .registration && (ctx.features.find? flag).isNone)
  return flag

/-- The unknown flags of `n`, in the order of a walk that goes into no query but registrations that
have no answer. -/
def unknowns (ctx : FoldContext) (n : Node) : List Text :=
  (n.preorder ctx.goesInto).filterMap ctx.unknown?

/-- The dynamic flags behind `n`, given those `found` before. -/
def report (ctx : FoldContext) (found : List Text) (n : Node) : List Text :=
  match ctx.unknown? n with
  | some flag => Folding.addDynamic found flag
  | none => found

variable {ctx : FoldContext}

/-- `unknown?` depends on what a node asks and for which flag. -/
theorem unknown?_congr {n m : Node} (hasks : ctx.asks n = ctx.asks m)
    (hflag : flag? n = flag? m) : ctx.unknown? n = ctx.unknown? m := by
  rw [unknown?, unknown?, hasks, hflag]

theorem unknown?_of_asks_eq_none {n : Node} (h : ctx.asks n = none) : ctx.unknown? n = none := by
  rw [unknown?, h]
  rfl

/-- A registration has no unknown flag. -/
theorem unknown?_of_registration {n : Node} (h : ctx.asks n = some .registration) :
    ctx.unknown? n = none := by
  cases hflag : flag? n <;> simp [unknown?, h, hflag, guard]

/-- A query with an answer has no unknown flag. -/
theorem unknown?_of_answer {n : Node} {value : Bool} (h : ctx.answer? n = some value) :
    ctx.unknown? n = none := by
  simp only [answer?, Option.bind_eq_bind, Option.bind_eq_some_iff] at h
  obtain ⟨query, hasks, flag, hflag, value', hfind, -⟩ := h
  simp [unknown?, hasks, hflag, hfind, guard]

/-- The `unknowns` of `n` are that of its root and those below it, if the walk goes there. -/
theorem unknowns_eq (ctx : FoldContext) (n : Node) :
    ctx.unknowns n = (ctx.unknown? n).toList ++
      if ctx.goesInto n then n.children.flatMap ctx.unknowns else [] := by
  cases n with
  | mk info shape =>
    have hbelow : (if ctx.goesInto (.mk info shape) then
          shape.nodes.flatMap (Node.preorder ctx.goesInto) else []).filterMap ctx.unknown? =
        if ctx.goesInto (.mk info shape) then shape.nodes.flatMap ctx.unknowns else [] := by
      split
      · exact List.filterMap_flatMap
      · rfl
    rw [unknowns, Node.preorder_mk, Node.children_mk, ← hbelow]
    cases hunknown : ctx.unknown? (.mk info shape) with
    | none => rw [List.filterMap_cons_none hunknown]; rfl
    | some flag => rw [List.filterMap_cons_some hunknown]; rfl

/-! ## What is reported -/

/-- Reporting along `walk` adds its unknown flags to `found`. -/
theorem foldl_report (ctx : FoldContext) (walk : List Node) (found : List Text) :
    walk.foldl ctx.report found =
      (walk.filterMap ctx.unknown?).foldl Folding.addDynamic found := by
  rw [List.foldl_filterMap]
  congr 1
  funext found n
  rw [report]
  cases ctx.unknown? n <;> rfl

/-- `enterQuery` changes the dynamic flags as `report` does. -/
theorem dynamic_enterQuery (ctx : FoldContext) {n : Node} {callee : Option Node}
    {arguments : List Node} {optional : Bool} {query : Query}
    (hshape : n.shape = .call callee arguments optional) (hasks : ctx.asks n = some query)
    (s : Folding) :
    (ctx.enterQuery query n callee arguments optional s).2.dynamic = ctx.report s.dynamic n := by
  have hflag : flag? n = arguments.head?.bind Node.literal? := by rw [flag?, hshape]
  cases query with
  | registration =>
    rw [report, unknown?_of_registration hasks, enterQuery]
    cases ctx.foldRegistration? n.info callee arguments optional <;> rfl
  | value | presence =>
    unfold enterQuery report unknown?
    simp only [hasks, hflag, Option.bind_eq_bind, Option.bind_some]
    cases arguments.head?.bind Node.literal? with
    | none => rfl
    | some flag => cases hfind : ctx.features.find? flag <;> simp [hfind, guard]

/-- Entering a node with the visitor changes the dynamic flags as `report` does. -/
theorem dynamic_visitor_enter (ctx : FoldContext) (p : Place) (n : Node) (s : Folding) :
    (ctx.visitor.enter (some p) n s).2.dynamic = ctx.report s.dynamic n := by
  have hnone : ctx.asks n = none → ctx.report s.dynamic n = s.dynamic := by
    intro h
    rw [report, unknown?_of_asks_eq_none h]
  unfold visitor
  simp only
  cases hshape : n.shape with
  | call callee arguments optional =>
    have hasks : ctx.asks n = callee.bind (ctx.binding.query? · arguments.length) := by
      rw [asks, hshape]
    simp only [← hasks]
    cases hquery : ctx.asks n with
    | none => simp only [hnone hquery]
    | some query => exact dynamic_enterQuery ctx hshape hquery s
  | _ => simp only [hnone (by rw [asks, hshape])]

/-- The walk `goesInto` just those nodes into which `ctx.entry` descends. -/
theorem goesInto_of_entry (ctx : FoldContext) (n : Node) :
    (∀ replacement, ctx.entry n = .skip replacement → ctx.goesInto n = false) ∧
      ∀ info, ctx.entry n = .descend info → ctx.goesInto n = true := by
  rcases ctx.entry_cases n with ⟨_, _, -, -, hgoes, hentry⟩ | ⟨-, hgoes, hentry⟩ |
    ⟨-, hgoes, hentry, -⟩ <;> simp [hentry, hgoes]

/-! ## What is left -/

theorem literal?_rebuild (ctx : FoldContext) (n : Node) :
    (n.rebuild ctx.entry).literal? = n.literal? :=
  ctx.view_rebuild Node.literal? (fun _ _ _ _ => rfl) (fun _ _ => rfl)
    (fun info shape => Node.literal?_map _ info info shape) n

theorem flag?_map_rebuild (ctx : FoldContext) (info : Info) (shape : Shape Node) :
    flag? (.mk info (shape.map (·.rebuild ctx.entry))) = flag? (.mk info shape) :=
  flag?_map (fun c _ => literal?_rebuild ctx c) info info

/-- The answer to a query of `n` has no unknown flags. -/
theorem unknowns_answered {n : Node} {query : Query} {value : Bool}
    (hasks : ctx.asks n = some query) (hanswer : ctx.answer? n = some value) :
    ctx.unknowns (answered n query value) = [] := by
  obtain ⟨hwalk, hasks'⟩ := preorder_answered hasks hanswer
  have hunknown : ctx.unknown? (answered n query value) = none :=
    hasks'.elim unknown?_of_asks_eq_none unknown?_of_registration
  rw [unknowns, hwalk, List.filterMap_cons_none hunknown, List.filterMap_nil]

/-- If `rebuild` keeps the unknown flags of each node below, it keeps those of the whole. -/
theorem unknowns_map_rebuild (ctx : FoldContext) {info : Info} {shape : Shape Node}
    (hbelow : ∀ c ∈ shape.nodes, ctx.unknowns (c.rebuild ctx.entry) = ctx.unknowns c) :
    ctx.unknowns (.mk info (shape.map (·.rebuild ctx.entry))) =
      ctx.unknowns (.mk info shape) := by
  have hasks := asks_map_rebuild ctx info shape
  have hflag := flag?_map_rebuild ctx info shape
  rw [unknowns_eq, ctx.unknowns_eq (.mk info shape), unknown?_congr hasks hflag,
    goesInto_congr hasks hflag, Node.children_mk, Shape.nodes_map, List.flatMap_map,
    List.flatMap_congr hbelow, Node.children_mk]

/-- `rebuild` keeps the unknown flags of a tree; by induction on the tree. -/
theorem unknowns_rebuild (ctx : FoldContext) (n : Node) :
    ctx.unknowns (n.rebuild ctx.entry) = ctx.unknowns n := by
  induction n using Node.induction with
  | mk info shape ih =>
    rw [Node.rebuild_mk]
    rcases ctx.entry_cases (.mk info shape) with
      ⟨query, value, hasks, hanswer, hgoes, hentry⟩ | ⟨-, -, hentry⟩ | ⟨-, -, hentry, -⟩
    · rw [hentry, unknowns_answered hasks hanswer, unknowns_eq, unknown?_of_answer hanswer,
        hgoes]
      rfl
    · rw [hentry]
    · rw [hentry]
      exact unknowns_map_rebuild ctx ih

end FoldContext

/-- `foldQueries` reports the unknown flags of `program`, each once, after those in `dynamic`. -/
theorem Node.dynamic_foldQueries {program : Node} (hroot : program.kind = .program)
    (ctx : FoldContext) (dynamic : List Text) :
    (program.foldQueries ctx dynamic).2.dynamic =
      (ctx.unknowns program).foldl Folding.addDynamic dynamic := by
  have hgoes := (goesInto_of_program hroot ctx).1
  have hasks : ctx.asks program = none := FoldContext.asks_of_not_call (by simp [hroot])
  have hunknown := FoldContext.unknown?_of_asks_eq_none hasks
  cases program with
  | mk info shape =>
    have henter : ctx.visitor.enter none (.mk info shape) { dynamic } =
        (.descend info, { dynamic }) := rfl
    have hplaces : ∀ s, (traversePlaces ctx.visitor shape.places s).2.dynamic =
        (shape.nodes.flatMap (preorder ctx.goesInto)).foldl ctx.report s.dynamic :=
      account_traversePlaces fun n _ p s => account_traverse ctx.visitor_enter_fst
        (fun _ _ _ => rfl) (fun n => (ctx.goesInto_of_entry n).1)
        (fun n => (ctx.goesInto_of_entry n).2) ctx.dynamic_visitor_enter n p s
    rw [foldQueries, traverse_mk, henter, FoldContext.unknowns, preorder_mk, if_pos hgoes,
      List.filterMap_cons_none hunknown, ← FoldContext.foldl_report]
    exact hplaces { dynamic }

/-- `foldQueries` keeps the unknown flags of `program`. -/
theorem Node.unknowns_foldQueries (program : Node) (ctx : FoldContext) (dynamic : List Text) :
    ctx.unknowns (program.foldQueries ctx dynamic).1 = ctx.unknowns program := by
  rw [foldQueries_fst]
  cases program with
  | mk info shape => exact ctx.unknowns_map_rebuild fun c _ => ctx.unknowns_rebuild c

end FlagFold
