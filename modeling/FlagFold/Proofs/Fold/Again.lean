/-
  FlagFold.Proofs.Fold.Again

  Running both passes again.  What the passes leave holds no pragma, offers no name
  for a slot that is free, and stays as it is when its queries are folded once more;
  so a second run with the same context changes nothing (`PassState.run_run`).
-/

import FlagFold.Fold.Module
import FlagFold.Proofs.Fold.Names
import FlagFold.Proofs.Fold.PragmaFree

namespace FlagFold

/-! ## Kinds -/

/-- If `f` keeps the kinds of all nodes but calls, `map f` keeps a shape typed. -/
theorem Shape.isTyped_map {f : Node → Node} {shape : Shape Node} (h : shape.isTyped)
    (hkind : ∀ c ∈ shape.nodes, c.kind ≠ .call → (f c).kind = c.kind) :
    (shape.map f).isTyped := by
  have hkept : ∀ c ∈ shape.nodes, ∀ kind, kind ≠ .call → c.kind = kind → (f c).kind = kind := by
    rintro c hc _ hne rfl
    exact hkind c hc hne
  have hname : ∀ c ∈ shape.nodes, c.kind.isImportName → (f c).kind.isImportName := by
    intro c hc hname
    rwa [hkind c hc (by rintro h; simp [h, Kind.isImportName] at hname)]
  cases shape with
  | variableDeclaration keyword ds =>
    simp only [isTyped, map, List.all_map, List.all_eq_true, decide_eq_true_eq,
      Function.comp_apply] at h ⊢
    exact fun d hd => hkept d hd _ (by simp) (h d hd)
  | importDeclaration names source =>
    simp only [nodes, List.forall_mem_append] at hkept hname
    cases source with
    | none =>
      simp only [isTyped, map, List.all_map, List.all_eq_true, Function.comp_apply, Option.map_none,
        Option.all_none, Bool.and_true] at h ⊢
      exact fun s hs => hname.1 s hs (h s hs)
    | some source =>
      simp only [isTyped, map, List.all_map, List.all_eq_true, Function.comp_apply, Option.map_some,
        Option.all_some, Bool.and_eq_true, decide_eq_true_eq] at h ⊢
      exact ⟨fun s hs => hname.1 s hs (h.1 s hs), hkept.2 source (by simp) _ (by simp) h.2⟩
  | importDefault binding | importNamespace binding | importSpecifier _ binding =>
    cases binding with
    | none => rfl
    | some binding =>
      simp only [isTyped, map, Option.map_some, Option.all_some, decide_eq_true_eq] at h ⊢
      exact hkept binding (by simp [nodes]) _ (by simp) h
  | _ => rfl

namespace Node

theorem wellTyped_mk {info : Info} {shape : Shape Node} :
    (mk info shape).WellTyped ↔ shape.isTyped ∧ ∀ c ∈ shape.nodes, c.WellTyped := by
  rw [WellTyped, subnodes, preorder_mk, if_pos rfl, List.forall_mem_cons,
    List.forall_mem_flatMap]
  rfl

theorem wellTyped_makeRemoved (n : Node) (cs : List Comment) :
    ((makeRemoved n).withComments cs).WellTyped :=
  wellTyped_mk.mpr ⟨rfl, fun c hc => by cases hc⟩

/-- `elided` keeps a tree well typed; by induction on the tree. -/
theorem wellTyped_elided {features : FeatureMap} {n : Node} (h : n.WellTyped)
    (cs : List Comment) : (n.elided features cs).WellTyped := by
  induction n using Node.induction generalizing cs with
  | mk info shape ih =>
    have hchildren : ∀ c ∈ ((mk info shape).elided features cs).children, c.WellTyped :=
      forall_mem_children_elided (n := .mk info shape)
        (fun c hc cs => ⟨wellTyped_makeRemoved c cs, ih c hc (h.of_mem_children hc) cs⟩) cs
    have htyped : ((mk info shape).elided features cs).shape.isTyped := by
      cases shape with
      | program | generic => rw [elided_mk]; rfl
      | _ =>
        rw [elided_of_not_isStatementList (by simp [Shape.kind, Kind.isStatementList])]
        exact Shape.isTyped_map (f := (·.elided features [])) (wellTyped_mk.mp h).1
          fun c _ _ => kind_elided c []
    rw [← mk_info_shape ((mk info shape).elided features cs)]
    exact wellTyped_mk.mpr ⟨htyped, hchildren⟩

variable {ctx : FoldContext}

theorem kind_rebuild_of_not_call {n : Node} (h : n.kind ≠ .call) :
    (n.rebuild ctx.entry).kind = n.kind := by
  cases n with
  | mk info shape => rw [ctx.rebuild_of_not_call h, kind, shape_mk, Shape.kind_map]; rfl

/-- The answer to a query of a well-typed `n` is well typed. -/
theorem wellTyped_answered {n : Node} (h : n.WellTyped) (query : Query) (value : Bool) :
    (FoldContext.answered n query value).WellTyped := by
  have hboolean : ∀ n, (makeBoolean value n).WellTyped :=
    fun n => wellTyped_mk.mpr ⟨rfl, fun c hc => by cases hc⟩
  unfold FoldContext.answered
  split
  case h_1 callee first second rest optional hshape =>
    have hbelow : ∀ c ∈ n.children, c.WellTyped := fun c => h.of_mem_children
    rw [children, hshape] at hbelow
    refine wellTyped_mk.mpr ⟨rfl, ?_⟩
    simp only [Shape.nodes, List.forall_mem_append, List.forall_mem_cons] at hbelow ⊢
    exact ⟨hbelow.1, hbelow.2.1, hboolean second, by simp⟩
  case h_2 => exact hboolean n

/-- `rebuild` keeps a tree well typed; by induction on the tree. -/
theorem wellTyped_rebuild {n : Node} (h : n.WellTyped) : (n.rebuild ctx.entry).WellTyped := by
  induction n using Node.induction with
  | mk info shape ih =>
    rw [rebuild_mk]
    rcases ctx.entry_cases (.mk info shape) with
      ⟨query, value, -, -, -, hentry⟩ | ⟨-, -, hentry⟩ | ⟨-, -, hentry, -⟩
    · rw [hentry]
      exact wellTyped_answered h query value
    · rw [hentry]
      exact h
    · rw [hentry]
      refine wellTyped_mk.mpr ⟨Shape.isTyped_map (wellTyped_mk.mp h).1
        fun c _ => kind_rebuild_of_not_call, ?_⟩
      rw [Shape.nodes_map, List.forall_mem_map]
      exact fun c hc => ih c hc (h.of_mem_children hc)

theorem wellTyped_foldQueries {program : Node} (h : program.WellTyped) (ctx : FoldContext)
    (dynamic : List Text) : (program.foldQueries ctx dynamic).1.WellTyped := by
  rw [foldQueries_fst]
  cases program with
  | mk info shape =>
    refine wellTyped_mk.mpr ⟨Shape.isTyped_map (wellTyped_mk.mp h).1
      fun c _ => kind_rebuild_of_not_call, ?_⟩
    rw [shape_mk, Shape.nodes_map, List.forall_mem_map]
    exact fun c hc => wellTyped_rebuild (h.of_mem_children hc)

end Node

/-! ## Folding again -/

namespace FoldContext

variable {ctx : FoldContext}

/-- Answering a registration twice is answering it once. -/
theorem answered_answered (n : Node) (value : Bool) :
    answered (answered n .registration value) .registration value =
      answered n .registration value := by
  unfold answered
  cases hshape : n.shape with
  | call callee arguments optional =>
    rcases arguments with _ | ⟨first, _ | ⟨second, rest⟩⟩ <;> rfl
  | _ => rfl

/-- `rebuild` leaves the answer to a query of `n` as it is. -/
theorem rebuild_answered {n : Node} {query : Query} {value : Bool}
    (hasks : ctx.asks n = some query) (hanswer : ctx.answer? n = some value) :
    (answered n query value).rebuild ctx.entry = answered n query value := by
  by_cases hregistration : query = .registration
  · subst hregistration
    obtain ⟨hasks', hanswer'⟩ := answer?_answered hasks hanswer
    have hentry : ctx.entry (answered n .registration value) =
        .skip (answered n .registration value) := by
      simp only [entry, hasks', hanswer', answered_answered]
    generalize answered n .registration value = left at hentry
    cases left with
    | mk info shape => rw [Node.rebuild_mk, hentry]
  · have hvalue : answered n query value = .makeBoolean value n := by
      cases query <;> first | rfl | exact absurd rfl hregistration
    rw [hvalue, Node.makeBoolean, rebuild_of_not_call ctx (by simp [Node.kind, Shape.kind])]
    rfl

/-- `rebuild` is idempotent; by induction on the tree. -/
theorem rebuild_rebuild (n : Node) :
    (n.rebuild ctx.entry).rebuild ctx.entry = n.rebuild ctx.entry := by
  induction n using Node.induction with
  | mk info shape ih =>
    have hself := Node.rebuild_mk ctx.entry info shape
    rcases ctx.entry_cases (.mk info shape) with
      ⟨query, value, hasks, hanswer, -, hentry⟩ | ⟨-, -, hentry⟩ | ⟨hanswer, -, hentry, hasks⟩
    · rw [hself, hentry]
      exact rebuild_answered hasks hanswer
    · rw [hentry] at hself
      rw [hself, hself]
    · -- Folding below a node does not change what becomes of it.
      have hasks' := ctx.asks_map_rebuild info shape
      have hanswer' := answer?_congr hasks' (ctx.flag?_map_rebuild info shape)
      have hentry' : ctx.entry (.mk info (shape.map (·.rebuild ctx.entry))) = .descend info := by
        rw [hanswer] at hanswer'
        rw [entry, hasks', hanswer']
        rcases hasks with h | h <;> rw [h] <;> rfl
      rw [hself, hentry]
      simp only [Node.info_mk]
      rw [Node.rebuild_mk, hentry', Shape.map_map]
      exact congrArg (Node.mk info) (Shape.map_congr ih)

/-- Flags that are in `found` already are not added again. -/
theorem foldl_addDynamic_of_mem {flags found : List Text} (h : ∀ flag ∈ flags, flag ∈ found) :
    flags.foldl Folding.addDynamic found = found := by
  induction flags with
  | nil => rfl
  | cons flag rest ih =>
    rw [List.forall_mem_cons] at h
    rw [List.foldl_cons, Folding.addDynamic, if_pos (List.contains_iff_mem.mpr h.1), ih h.2]

theorem mem_addDynamic {found : List Text} {flag other : Text} :
    other ∈ Folding.addDynamic found flag ↔ other ∈ found ∨ other = flag := by
  unfold Folding.addDynamic
  split
  case isTrue h =>
    refine ⟨.inl, ?_⟩
    rintro (h' | rfl)
    · exact h'
    · exact List.contains_iff_mem.mp h
  case isFalse => rw [List.mem_append, List.mem_singleton]

/-- Folding `addDynamic` over `flags` gives the flags that are in `found` or in `flags`. -/
theorem mem_foldl_addDynamic {flags found : List Text} {other : Text} :
    other ∈ flags.foldl Folding.addDynamic found ↔ other ∈ found ∨ other ∈ flags := by
  induction flags generalizing found with
  | nil => simp
  | cons flag rest ih => rw [List.foldl_cons, ih, mem_addDynamic, List.mem_cons, or_assoc]

end FoldContext

namespace Node

theorem kind_foldQueries (program : Node) (ctx : FoldContext) (dynamic : List Text) :
    (program.foldQueries ctx dynamic).1.kind = program.kind := by
  rw [foldQueries_fst, kind, shape_mk, Shape.kind_map]
  rfl

/-- `foldQueries` on its own result changes nothing and reports nothing new. -/
theorem foldQueries_foldQueries {program : Node} (hroot : program.kind = .program)
    (ctx : FoldContext) (dynamic : List Text) :
    let folded := program.foldQueries ctx dynamic
    let again := folded.1.foldQueries ctx folded.2.dynamic
    again.1 = folded.1 ∧ again.2.dynamic = folded.2.dynamic := by
  intro folded again
  have hkind : folded.1.kind = .program := (program.kind_foldQueries ctx dynamic).trans hroot
  constructor
  · simp only [again, folded, foldQueries_fst, info_mk, shape_mk, Shape.map_map]
    congr 1
    exact Shape.map_congr fun c _ => FoldContext.rebuild_rebuild c
  · simp only [again]
    rw [dynamic_foldQueries hkind, unknowns_foldQueries, dynamic_foldQueries hroot]
    exact FoldContext.foldl_addDynamic_of_mem
      fun flag h => FoldContext.mem_foldl_addDynamic.mpr (.inr h)

end Node

/-! ## Names offered after folding -/

/-- Each slot of `offers` is one of `others`. -/
def SlotsIn (offers others : List Offer) : Prop :=
  ∀ o ∈ offers, ∃ o' ∈ others, o'.slot = o.slot

namespace SlotsIn

variable {offers others offers' others' : List Offer}

theorem of_subset (h : offers ⊆ others) : SlotsIn offers others := fun o ho => ⟨o, h ho, rfl⟩

theorem append (h : SlotsIn offers others) (h' : SlotsIn offers' others') :
    SlotsIn (offers ++ offers') (others ++ others') := by
  intro o ho
  rcases List.mem_append.mp ho with ho | ho
  · obtain ⟨o', ho', hslot⟩ := h o ho
    exact ⟨o', List.mem_append_left _ ho', hslot⟩
  · obtain ⟨o', ho', hslot⟩ := h' o ho
    exact ⟨o', List.mem_append_right _ ho', hslot⟩

theorem flatMap {α : Type} {f g : α → List Offer} {items : List α}
    (h : ∀ item ∈ items, SlotsIn (f item) (g item)) :
    SlotsIn (items.flatMap f) (items.flatMap g) := by
  intro o ho
  obtain ⟨item, hitem, ho⟩ := List.mem_flatMap.mp ho
  obtain ⟨o', ho', hslot⟩ := h item hitem o ho
  exact ⟨o', List.mem_flatMap.mpr ⟨item, hitem, ho'⟩, hslot⟩

end SlotsIn

namespace Node

variable {ctx : FoldContext}

theorem name?_rebuild (n : Node) : (n.rebuild ctx.entry).name? = n.name? :=
  ctx.view_rebuild name? (fun _ _ _ _ => rfl) (fun _ _ => rfl)
    (fun _ shape => by cases shape <;> rfl) n

theorem words?_rebuild (n : Node) : (n.rebuild ctx.entry).words? = n.words? :=
  ctx.view_rebuild words? (fun _ _ _ _ => rfl) (fun _ _ => rfl)
    (fun _ shape => by cases shape <;> rfl) n

theorem specifierOffer?_rebuild (s : Node) :
    (s.rebuild ctx.entry).specifierOffer? = s.specifierOffer? :=
  ctx.view_rebuild specifierOffer? (fun _ _ _ _ => rfl) (fun _ _ => rfl)
    (fun info _ => specifierOffer?_map (fun c _ => name?_rebuild c) info info) s

/-- The answer to a query loads no module: a truth value is no call, and a registration has two
arguments. -/
theorem requiredModule?_answered (n : Node) (query : Query) (value : Bool) :
    requiredModule? (some (FoldContext.answered n query value)) = none := by
  unfold FoldContext.answered
  split
  case h_1 callee first second rest optional hshape => cases callee <;> rfl
  case h_2 => rfl

/-- If a rebuilt call loads `module`, the call did before. -/
theorem requiredModule?_rebuild {n : Node} {module : Text}
    (h : requiredModule? (some (n.rebuild ctx.entry)) = some module) :
    requiredModule? (some n) = some module := by
  cases n with
  | mk info shape =>
    rw [rebuild_mk] at h
    rcases ctx.entry_cases (.mk info shape) with
      ⟨query, value, -, -, -, hentry⟩ | ⟨-, -, hentry⟩ | ⟨-, -, hentry, -⟩
    · rw [hentry, requiredModule?_answered] at h
      cases h
    · rwa [hentry] at h
    · rw [hentry] at h
      rwa [← requiredModule?_map (fun c _ => name?_rebuild c) (fun c _ => words?_rebuild c) info]

/-- If a rebuilt declarator offers a name, the declarator offered the same. -/
theorem declaratorOffer?_rebuild {d : Node} {o : Offer}
    (h : (d.rebuild ctx.entry).declaratorOffer? = some o) : d.declaratorOffer? = some o := by
  have hmodule : ∀ init : Option Node, (requiredModule? (init.map (·.rebuild ctx.entry))).any
      isQueryModule → (requiredModule? init).any isQueryModule := by
    intro init hquery
    obtain ⟨module, hmodule, hmatch⟩ := (Option.any_eq_true _ _).mp hquery
    cases init with
    | none => cases hmodule
    | some init => rw [requiredModule?_rebuild hmodule, Option.any_some, hmatch]
  have htarget : ∀ target : Option Node,
      (target.map (·.rebuild ctx.entry)).bind name? = target.bind name? := by
    rintro (_ | target)
    · rfl
    · exact name?_rebuild target
  revert h
  refine ctx.rebuild_cases (P := fun left => left.declaratorOffer? = some o → _)
    (fun _ _ _ _ _ h => by cases h) (fun _ _ _ h => by cases h) fun _ h => ?_
  cases d with
  | mk info shape =>
    cases shape with
    | variableDeclarator target init =>
      simp only [declaratorOffer?, shape_mk, Shape.map, htarget,
        Option.ite_none_right_eq_some] at h ⊢
      exact ⟨hmodule init h.1, h.2⟩
    | _ => cases h

/-- A rebuilt statement has offers only for slots for which `n` has. A declarator that loads the
module may have become another; then a later one decides. -/
theorem offers_rebuild (n : Node) : SlotsIn (n.rebuild ctx.entry).offers n.offers := by
  refine ctx.rebuild_cases (P := fun left => SlotsIn left.offers n.offers)
    (fun _ _ _ _ _ => .of_subset (List.nil_subset _)) (fun _ _ _ => .of_subset (List.nil_subset _))
    fun _ => ?_
  cases n with
  | mk info shape =>
    cases shape with
    | variableDeclaration keyword ds =>
      intro o ho
      simp only [offers, shape_mk, Shape.map, Option.mem_toList, List.findSome?_map] at ho ⊢
      -- The first declarator that offers anything need not be the same one, but it offers it for
      -- the same slot.
      obtain ⟨d, hd, hoffer⟩ := List.exists_of_findSome?_eq_some ho
      have hbefore := declaratorOffer?_rebuild hoffer
      obtain ⟨o', ho'⟩ : ∃ o', ds.findSome? declaratorOffer? = some o' := by
        rw [← Option.isSome_iff_exists, List.findSome?_isSome_iff]
        exact ⟨d, hd, by rw [hbefore]; rfl⟩
      obtain ⟨d', -, hoffer'⟩ := List.exists_of_findSome?_eq_some ho'
      exact ⟨o', ho', (slot_of_declaratorOffer? hoffer').trans
        (slot_of_declaratorOffer? hbefore).symm⟩
    | importDeclaration names source =>
      cases source with
      | none => exact .of_subset (List.nil_subset _)
      | some source =>
        have hnames : (names.map (·.rebuild ctx.entry)).filterMap specifierOffer? =
            names.filterMap specifierOffer? := by
          rw [List.filterMap_map]
          exact List.filterMap_congr fun s _ => specifierOffer?_rebuild s
        apply SlotsIn.of_subset
        simp only [offers, shape_mk, Shape.map, Option.map_some, words?_rebuild, hnames]
        exact List.Subset.refl _
    | _ => exact .of_subset (List.nil_subset _)

theorem offersIn_rebuild (parent : Kind) (n : Node) :
    SlotsIn ((n.rebuild ctx.entry).offersIn parent) (n.offersIn parent) := by
  unfold offersIn
  split
  · exact offers_rebuild n
  · exact .of_subset (List.Subset.refl _)

/-- If `f` gives no node of `shape` a name for more slots, neither does the mapped tree have one. -/
theorem namings_map {f : Node → Node} {shape : Shape Node}
    (h : ∀ c ∈ shape.nodes, SlotsIn ((f c).offersIn shape.kind) (c.offersIn shape.kind) ∧
      SlotsIn (f c).namings c.namings) (info info' : Info) :
    SlotsIn (mk info' (shape.map f)).namings (mk info shape).namings := by
  rw [namings_mk, namings_mk, Shape.nodes_map, Shape.kind_map, List.flatMap_map]
  exact .flatMap fun c hc => (h c hc).1.append (h c hc).2

/-- The answer to a query has no naming that the query does not. -/
theorem namings_answered (n : Node) (query : Query) (value : Bool) :
    (FoldContext.answered n query value).namings ⊆ n.namings := by
  have hboolean : ∀ n, (makeBoolean value n).namings = [] := fun n => namings_mk _ (.boolean value)
  unfold FoldContext.answered
  split
  case h_1 callee first second rest optional hshape =>
    rw [← mk_info_shape n, hshape, namings_mk, namings_mk]
    intro o ho
    obtain ⟨c, hc, ho⟩ := List.mem_flatMap.mp ho
    refine List.mem_flatMap.mpr ⟨c, ?_, ho⟩
    simp only [Shape.nodes, List.mem_append, List.mem_cons, List.not_mem_nil, or_false] at hc ⊢
    rcases hc with hc | rfl | rfl
    · exact .inl hc
    · exact .inr (.inl rfl)
    · rw [offersIn, if_neg (by simp [Shape.kind]), hboolean] at ho
      cases ho
  case h_2 => rw [hboolean]; exact List.nil_subset _

/-- A rebuilt tree has namings only for slots for which `n` has; by induction on the tree. -/
theorem namings_rebuild (n : Node) : SlotsIn (n.rebuild ctx.entry).namings n.namings := by
  induction n using Node.induction with
  | mk info shape ih =>
    rw [rebuild_mk]
    rcases ctx.entry_cases (.mk info shape) with
      ⟨query, value, -, -, -, hentry⟩ | ⟨-, -, hentry⟩ | ⟨-, -, hentry, -⟩
    · rw [hentry]
      exact .of_subset (namings_answered _ query value)
    · rw [hentry]
      exact .of_subset (List.Subset.refl _)
    · rw [hentry]
      exact namings_map (fun c hc => ⟨offersIn_rebuild _ c, ih c hc⟩) _ _

theorem namings_foldQueries (program : Node) (ctx : FoldContext) (dynamic : List Text) :
    SlotsIn (program.foldQueries ctx dynamic).1.namings program.namings := by
  rw [foldQueries_fst]
  cases program with
  | mk info shape => exact namings_map (fun c _ => ⟨offersIn_rebuild _ c, namings_rebuild c⟩) _ _

end Node

/-! ## Both passes -/

/-- What both passes work on: a `program`, and what the context of its module has gathered. -/
structure PassState where
  program : Node
  binding : Binding := {}
  dynamic : List Text := []
  fault : Option ShapeFault := none

/-- Both passes, one after the other: `elide` with the binding of `s`, and unless that meets a fault
`foldQueries` with the binding that it leaves. -/
def PassState.run (features : FeatureMap) (staticOnly : List Text) (s : PassState) : PassState :=
  let (program, elision) := s.program.elide features s.binding
  if elision.fault.isSome then ⟨program, elision.binding, s.dynamic, elision.fault⟩
  else
    let (program, folding) := program.foldQueries ⟨features, staticOnly, elision.binding⟩ s.dynamic
    ⟨program, elision.binding, folding.dynamic, none⟩

/-- In a module other than the feature-query module itself, `foldModule` runs as `PassState.run`
does if a name is bound. -/
theorem Node.foldModule_eq_run {program : Node} {features : FeatureMap} {path : Text}
    (hpath : ¬ isQueryModulePath (some path))
    (hbound : (program.elide features {}).2.binding.isBound) (staticOnly : List Text) :
    let folded := program.foldModule features staticOnly path
    PassState.run features staticOnly ⟨program, {}, [], none⟩ =
      ⟨folded.program, folded.binding, folded.dynamic, folded.fault⟩ := by
  rw [PassState.run, foldModule, bindModule, if_neg hpath]
  simp only [hbound, if_true]
  split <;> rfl

namespace PassState

/-- For a well-typed program `run` meets no fault: pragmas are evaluated, the names that are `left`
are bound, and the queries are folded. -/
theorem run_of_wellTyped {s : PassState} (h : s.program.WellTyped) (features : FeatureMap)
    (staticOnly : List Text) :
    let left := s.program.elided features []
    let binding := left.namings.foldl Binding.take s.binding
    let folded := left.foldQueries ⟨features, staticOnly, binding⟩ s.dynamic
    s.run features staticOnly = ⟨folded.1, binding, folded.2.dynamic, none⟩ := by
  have hfault := Node.elide_fault_of_wellTyped h features s.binding
  have hleft := Node.elide_eq_elided hfault
  have hbinding := Node.binding_elide h features s.binding
  intro left binding folded
  rw [hleft] at hbinding
  unfold run
  generalize s.program.elide features s.binding = passed at hfault hleft hbinding
  obtain ⟨program, elision⟩ := passed
  simp only at hfault hleft hbinding
  simp only [hfault, hleft, hbinding, Option.isSome_none, Bool.false_eq_true, if_false]
  rfl

/-- Run again on what the first `run` leaves, both passes meet no fault and leave the whole tree,
the binding, the dynamic flags and the printed code as they are. -/
theorem run_run (s : PassState) (hroot : s.program.kind = .program) (h : s.program.WellTyped)
    (features : FeatureMap) (staticOnly : List Text) :
    let once := s.run features staticOnly
    once.fault = none ∧ once.run features staticOnly = once ∧
      (once.run features staticOnly).program.print = once.program.print := by
  intro once
  have honce : once = _ := run_of_wellTyped h features staticOnly
  set left := s.program.elided features [] with hleft
  set binding := left.namings.foldl Binding.take s.binding with hbinding
  set ctx : FoldContext := ⟨features, staticOnly, binding⟩
  set folded := left.foldQueries ctx s.dynamic with hfolded
  have hkind : left.kind = .program := (Node.kind_elided s.program []).trans hroot
  have htyped : folded.1.WellTyped := Node.wellTyped_foldQueries (Node.wellTyped_elided h []) _ _
  -- No pragma is left, so there is nothing to take out.
  have hpragmas : folded.1.elided features [] = folded.1 :=
    Node.elided_of_pragmaFree
      (Node.pragmaFree_foldQueries (Node.pragmaFree_elided s.program []) _ _)
  -- Every slot is taken for which a name is still offered.
  have hnames : folded.1.namings.foldl Binding.take binding = binding := by
    apply Binding.foldl_take_of_isSome
    intro o ho
    obtain ⟨o', ho', hslot⟩ := Node.namings_foldQueries left ctx s.dynamic o ho
    rw [← hslot]
    exact Binding.isSome_slot_foldl_take ho' s.binding
  obtain ⟨hsame, hdynamic⟩ := Node.foldQueries_foldQueries hkind ctx s.dynamic
  have hrun : once.run features staticOnly = once := by
    have hagain := run_of_wellTyped (s := once) (by rw [honce]; exact htyped) features staticOnly
    rw [hagain]
    simp only [honce, hpragmas, hnames]
    rw [hsame, hdynamic]
  exact ⟨by rw [honce], hrun, by rw [hrun]⟩

end PassState

/-- A pragma that holds with the module that it guards, an import of the feature-query module, two
queries, one of which has no answer, and a registration. -/
def mixedModule : Node :=
  let name (t : String) : Node := .mk {} (.identifier (text t))
  let string (t : String) : Node := .mk {} (.string (text t) [])
  let call (callee : Node) (arguments : List Node) : Node :=
    .mk {} (.call (some callee) arguments false)
  let statement (e : Node) : Node := .mk {} (.expressionStatement (some e))
  let add : Node := .mk {} (.member (some (name "has")) (some (name "add")) false)
  .mk {} (.program [
    statement (string "has('a')"),
    statement (call (name "require") [string "x"]),
    .mk {} (.importDeclaration [.mk {} (.importDefault (some (name "has")))]
      (some (string "y/has"))),
    statement (call (name "f") [call (name "has") [string "a"], call (name "has") [string "b"]]),
    statement (call add [string "a", name "g"])] [])

set_option maxRecDepth 4000 in
/-- On `mixedModule` the first run binds the name and reports the flag without an answer; the second
changes nothing. -/
theorem PassState.run_run_mixed :
    let features : FeatureMap := [(text "a", true)]
    let once := PassState.run features [] ⟨mixedModule, {}, [], none⟩
    mixedModule.kind = .program ∧ mixedModule.WellTyped ∧ once.binding.name = some (text "has") ∧
      once.dynamic = [text "b"] ∧ once.fault = none ∧ once.run features [] = once := by
  intro features once
  have hroot : mixedModule.kind = .program := rfl
  have htyped : mixedModule.WellTyped := by decide
  obtain ⟨hfault, hrun, -⟩ :=
    PassState.run_run ⟨mixedModule, {}, [], none⟩ hroot htyped features []
  exact ⟨hroot, htyped, by decide +kernel, by decide +kernel, hfault, hrun⟩

end FlagFold
