/-
  FlagFold.Proofs.Fold.FirstMatch

  The names that the evaluation of pragmas binds on its way, given by the statements
  that stay: for each slot the first name that they offer (`Binding.ofFirst`).  The
  scan of the program that is left binds the same names, and on the way to them no
  name that is bound is bound anew.
-/

import FlagFold.Proofs.Fold.Again
import FlagFold.Proofs.Fold.Statements

namespace FlagFold

/-! ## First offers -/

/-- The first of `offers` for the slot `query`. -/
def firstOffer? (offers : List Offer) (query : Query) : Option Offer :=
  offers.find? (·.slot = query)

theorem firstOffer?_cons (o : Offer) (rest : List Offer) (query : Query) :
    firstOffer? (o :: rest) query = if o.slot = query then some o else firstOffer? rest query := by
  rw [firstOffer?, List.find?_cons]
  by_cases h : o.slot = query <;> simp [h, firstOffer?]

namespace Binding

/-- The binding with the first of `offers` for each slot. -/
def ofFirst (offers : List Offer) : Binding where
  name := (firstOffer? offers .value).map (·.name)
  directCall := ((firstOffer? offers .value).map (·.directCall)).getD true
  existsName := (firstOffer? offers .presence).map (·.name)
  addName := (firstOffer? offers .registration).map (·.name)

/-- `later` has the names of `earlier` and more: every slot that is taken keeps its name, and the
name of the module how it may be used. -/
structure Extends (later earlier : Binding) : Prop where
  slot : ∀ query, (earlier.slot query).isSome → later.slot query = earlier.slot query
  directCall : earlier.name.isSome → later.directCall = earlier.directCall

@[refl] theorem Extends.refl (b : Binding) : b.Extends b := ⟨fun _ _ => rfl, fun _ => rfl⟩

theorem Extends.trans {first second third : Binding} (h : second.Extends first)
    (h' : third.Extends second) : third.Extends first where
  slot query hquery := by
    have hslot := h.slot query hquery
    rw [h'.slot query (by rwa [hslot]), hslot]
  directCall hname := by
    have hslot : second.name = first.name := h.slot .value hname
    rw [h'.directCall (by rwa [hslot]), h.directCall hname]

theorem slot_take_eq (b : Binding) (o : Offer) (query : Query) :
    (b.take o).slot query = (b.slot query).or (if o.slot = query then some o.name else none) := by
  cases hbound : b.slot query with
  | some name => rw [slot_take (by simp [hbound]), hbound, Option.some_or]
  | none =>
    unfold take
    cases hslot : o.slot <;> cases query <;> rw [slot] at hbound <;>
      simp [bind, bindExists, bindAdd, slot, hbound, apply_ite]

theorem directCall_take (b : Binding) (o : Offer) :
    (b.take o).directCall =
      if b.name.isNone ∧ o.slot = .value then o.directCall else b.directCall := by
  unfold take
  cases hbound : b.name <;> cases hslot : o.slot <;>
    simp [bind, bindExists, bindAdd, hbound, apply_ite]

/-- Folding `take` over `offers` gives a slot that was free in `b` the first name offered for it. -/
theorem slot_foldl_take_eq (offers : List Offer) (b : Binding) (query : Query) :
    (offers.foldl take b).slot query =
      (b.slot query).or ((firstOffer? offers query).map (·.name)) := by
  induction offers generalizing b with
  | nil => simp [firstOffer?]
  | cons o rest ih =>
    rw [List.foldl_cons, ih, slot_take_eq, Option.or_assoc, firstOffer?_cons]
    split <;> rfl

/-- Folding `take` over `offers` keeps `directCall` if `b` has a name, and takes that of the first
offer otherwise. -/
theorem directCall_foldl_take (offers : List Offer) (b : Binding) :
    (offers.foldl take b).directCall =
      if b.name.isSome then b.directCall
      else ((firstOffer? offers .value).map (·.directCall)).getD b.directCall := by
  induction offers generalizing b with
  | nil => simp [firstOffer?]
  | cons o rest ih =>
    have hname : (b.take o).name = b.name.or (if o.slot = .value then some o.name else none) :=
      slot_take_eq b o .value
    rw [List.foldl_cons, ih, hname, directCall_take, firstOffer?_cons]
    cases b.name <;> by_cases hslot : o.slot = .value <;> simp [hslot]

/-- Folding `take` over `offers` extends `b`. -/
theorem extends_foldl_take (offers : List Offer) (b : Binding) :
    (offers.foldl take b).Extends b where
  slot query h := slot_foldl_take h offers
  directCall h := by rw [directCall_foldl_take, if_pos h]

/-- From nothing bound, folding `take` over `offers` gives `ofFirst offers`. -/
theorem foldl_take_eq_ofFirst (offers : List Offer) :
    offers.foldl take {} = ofFirst offers := by
  have hslot := fun query => slot_foldl_take_eq offers {} query
  have hdirect := directCall_foldl_take offers {}
  have hname := hslot .value
  have hexists := hslot .presence
  have hadd := hslot .registration
  generalize offers.foldl take {} = b at hname hexists hadd hdirect
  obtain ⟨name, directCall, existsName, addName⟩ := b
  simp only [slot, Option.none_or] at hname hexists hadd
  simp only [Option.isSome_none, Bool.false_eq_true, if_false] at hdirect
  rw [ofFirst, hname, hexists, hadd, hdirect]

theorem directCall_ofFirst (offers : List Offer) :
    (ofFirst offers).directCall = false ↔
      ∃ o, firstOffer? offers .value = some o ∧ o.directCall = false := by
  rw [ofFirst]
  cases firstOffer? offers .value <;> simp

end Binding

/-! ## The scan of a program -/

/-- The scan of well-typed `stmts` meets no fault and takes their offers, in order. -/
theorem Binder.run_statements {stmts : List Node} (h : ∀ n ∈ stmts, n.WellTyped) (b : Binding) :
    (statements stmts).run.run b =
      (.ok (), (stmts.flatMap Node.offers).foldl Binding.take b) := by
  induction stmts generalizing b with
  | nil => rfl
  | cons n rest ih =>
    rw [List.forall_mem_cons] at h
    obtain ⟨bound, hbound⟩ := statement_succeeds h.1 b
    have htakes := statement_takes h.1 b
    have hrun : (discard (statement n)).run.run b = (.ok (), n.offers.foldl Binding.take b) := by
      have hdiscard : discard (statement n) = statement n >>= fun _ => pure () := by
        rw [bind_pure_comp]
        rfl
      rw [hdiscard, run_bind]
      rcases hstatement : (statement n).run.run b with ⟨outcome, b'⟩
      rw [hstatement] at hbound htakes
      simp only at hbound htakes
      subst hbound htakes
      rfl
    rw [statements, run_bind, hrun]
    simp only
    rw [ih h.2, List.flatMap_cons, List.foldl_append]

namespace Node

variable {features : FeatureMap}

/-- If `f` keeps the shapes of all nodes, it keeps the offers of a statement. -/
theorem offers_of_forms {f : Node → Node}
    (hf : ∀ info shape, ∃ info', f (mk info shape) = mk info' (shape.map f)) (n : Node) :
    (f n).offers = n.offers := by
  have hview : ∀ {α : Type} (view : Node → α),
      (∀ info info' shape, view (mk info' (shape.map f)) = view (mk info shape)) →
      ∀ n, view (f n) = view n := by
    intro α view hmap n
    cases n with
    | mk info shape =>
      obtain ⟨info', heq⟩ := hf info shape
      rw [heq, hmap info info']
  have hname := hview name? (by rintro info info' (_ | _) <;> rfl)
  have hwords := hview words? (by rintro info info' (_ | _) <;> rfl)
  have hmodule := hview (fun n => requiredModule? (some n)) fun info info' _ =>
    requiredModule?_map (fun c _ => hname c) (fun c _ => hwords c) info info'
  have hdeclarator := hview declaratorOffer? fun info info' _ =>
    declaratorOffer?_map (fun c _ => hname c) (fun c _ => hmodule c) info info'
  have hspecifier := hview specifierOffer? fun info info' _ =>
    specifierOffer?_map (fun c _ => hname c) info info'
  exact hview offers (fun info info' _ => offers_map (fun c _ => hwords c)
    (fun c _ => hdeclarator c) (fun c _ => hspecifier c) info info') n

theorem offers_eraseComments (n : Node) : n.eraseComments.offers = n.offers :=
  offers_of_forms (fun info shape => ⟨_, eraseComments_mk info shape⟩) n

/-- The offers of `ruledItems` are those of the items that are not taken out. -/
theorem flatMap_offers_ruledItems (features : FeatureMap) (parent : Kind) (items : List Node) :
    (ruledItems features parent (items.map fun n => (n, n.elided features []))).flatMap offers =
      ((items.zipIdx.filter fun p => !isTakenOut features parent items p.2).map (·.1)).flatMap
        offers := by
  have hitems : (items.map fun n => (n, n.elided features [])).map (·.1) = items := by
    rw [List.map_map]
    exact List.map_id' items
  have hruled : ruledItems features parent (items.map fun n => (n, n.elided features [])) =
      items.zipIdx.map fun p =>
        if isTakenOut features parent items p.2 then makeRemoved p.1
        else p.1.elided features [] := by
    rw [ruledItems, hitems, List.mapIdx_eq_zipIdx_map, List.zipIdx_map, List.map_map]
    rfl
  rw [hruled]
  generalize items.zipIdx = ps
  induction ps with
  | nil => rfl
  | cons p rest ih =>
    rw [List.map_cons, List.flatMap_cons, ih, List.filter_cons]
    cases isTakenOut features parent items p.2 with
    | true => rfl
    | false => simp [offers_elided]

/-- The offers of an elided program are those of its `ruledStatements`. -/
theorem flatMap_offers_elided {program : Node} (hroot : program.kind = .program) :
    (program.elided features []).children.flatMap offers =
      (program.ruledStatements features).flatMap offers := by
  have herase : ∀ ns : List Node, (ns.map eraseComments).flatMap offers = ns.flatMap offers := by
    intro ns
    rw [List.flatMap_map]
    exact List.flatMap_congr fun n _ => offers_eraseComments n
  cases program with
  | mk info shape =>
    cases shape with
    | program body source =>
      have hleft : ((mk info (.program body source)).elided features []).children =
          (elidedItems features .program .body 0 .idle []
            (body.map fun n => (n, n.elided features))).1 := by
        rw [elided_mk]
        rfl
      have hread : (elidedItems features .program .body 0 .idle []
            (body.map fun n => (n, n.elided features))).1.map eraseComments =
          (ruledItems features .program
            (body.map fun n => (n, n.elided features []))).map eraseComments :=
        elidedItems_eq_ruledItems (fun _ _ => rfl) fun n _ cs =>
          (eraseComments_elided features n cs).trans (eraseComments_elided features n []).symm
      rw [hleft, ← herase, hread, herase, flatMap_offers_ruledItems]
      rfl
    | _ => cases hroot

/-- The elided tree of a node with no program in it has no namings. -/
theorem namings_elided {n : Node} (h : ∀ m ∈ n.subnodes, m.kind ≠ .program) (cs : List Comment) :
    (n.elided features cs).namings = [] := by
  induction n using Node.induction generalizing cs with
  | mk info shape ih =>
    have hkind : ((mk info shape).elided features cs).kind ≠ .program := by
      rw [kind_elided]
      exact h _ (mem_subnodes_self _)
    have hchildren : ∀ c ∈ ((mk info shape).elided features cs).children, c.namings = [] :=
      forall_mem_children_elided (n := mk info shape) (fun c hc cs =>
        ⟨namings_makeRemoved c cs,
          ih c hc (fun m hm => h m (mem_subnodes_of_mem_children hc hm)) cs⟩) cs
    generalize (mk info shape).elided features cs = left at hkind hchildren
    obtain ⟨info', shape'⟩ := left
    rw [namings_mk, List.flatMap_eq_nil_iff]
    intro c hc
    rw [offersIn, if_neg (show shape'.kind ≠ .program from hkind), hchildren c hc, List.append_nil]

/-- Of the offers of an import, only that of a namespace has no `directCall`. -/
theorem directCall_of_specifierOffer? {s : Node} {o : Offer} (h : s.specifierOffer? = some o) :
    o.directCall = false ↔ s.kind = .importNamespace := by
  unfold specifierOffer? at h
  unfold kind
  cases hshape : s.shape with
  | importDefault | importNamespace =>
    rw [hshape] at h
    obtain ⟨name, -, rfl⟩ := Option.map_eq_some_iff.mp h
    simp [Shape.kind]
  | importSpecifier =>
    rw [hshape] at h
    obtain ⟨slot, -, h⟩ := Option.bind_eq_some_iff.mp h
    obtain ⟨name, -, rfl⟩ := Option.map_eq_some_iff.mp h
    simp [Shape.kind]
  | _ => simp [hshape] at h

theorem directCall_of_declaratorOffer? {d : Node} {o : Offer} (h : d.declaratorOffer? = some o) :
    o.directCall = true := by
  unfold declaratorOffer? at h
  split at h
  case h_1 =>
    obtain ⟨name, -, rfl⟩ := Option.map_eq_some_iff.mp (Option.ite_none_right_eq_some.mp h).2
    rfl
  case h_2 => cases h

/-- An offer of a statement without `directCall` is that of a namespace in an import. -/
theorem exists_importNamespace {stmt : Node} {o : Offer} (ho : o ∈ stmt.offers)
    (hdirect : o.directCall = false) :
    ∃ s ∈ stmt.children, s.kind = .importNamespace ∧ s.specifierOffer? = some o := by
  unfold offers at ho
  split at ho
  case h_1 keyword ds hshape =>
    obtain ⟨d, -, hd⟩ := List.exists_of_findSome?_eq_some (Option.mem_toList.mp ho)
    rw [directCall_of_declaratorOffer? hd] at hdirect
    cases hdirect
  case h_2 names source hshape =>
    rw [List.mem_ite_nil_right] at ho
    obtain ⟨s, hs, hoffer⟩ := List.mem_filterMap.mp ho.2
    have hchild : s ∈ stmt.children := by simp [children, hshape, Shape.nodes, hs]
    exact ⟨s, hchild, (directCall_of_specifierOffer? hoffer).mp hdirect, hoffer⟩
  case h_3 => cases ho

end Node

/-! ## The names during the pass -/

namespace Elision

variable {features : FeatureMap}

/-- Entering a node extends the binding. -/
theorem extends_enter {n : Node} (h : n.WellTyped) (place : Option Place) (s : Elision) :
    ((visitor features).enter place n s).2.binding.Extends s.binding := by
  unfold visitor
  simp only
  split
  case isTrue => exact .refl _
  case isFalse =>
    cases place with
    | none => exact .refl _
    | some p =>
      simp only
      split
      case isTrue =>
        rw [enterStatement_binding h]
        split
        · exact Binding.extends_foldl_take _ _
        · exact .refl _
      case isFalse => exact .refl _

/-- The bindings as nodes are entered, one after the other, and the last one: each extends all
`earlier` ones. -/
theorem pairwise_history {n : Node} (h : n.WellTyped) (place : Option Place) (s : Elision) :
    (n.logged (visitor features) (fun _ _ s => [s.binding]) place s ++
        [(n.traverse (visitor features) place s).2.binding]).Pairwise
      fun earlier later => later.Extends earlier := by
  have hkeeps := Node.traverse_keeps
    (v := (visitor features).logging fun _ _ (s : Elision) => [s.binding])
    (P := fun s : Elision × List Binding => (s.2 ++ [s.1.binding]).Pairwise
      fun earlier later => later.Extends earlier)
    (Q := Node.WellTyped) (fun n hn c hc => hn.of_mem_children hc) ?_ ?_ n h place (s, [])
    (List.pairwise_singleton _ _)
  · rwa [Node.traverse_logging, List.nil_append] at hkeeps
  · intro place n s hn hs
    have hnext : ((visitor features).enter place n s.1).2.binding.Extends s.1.binding :=
      extends_enter hn place s.1
    refine List.pairwise_append.mpr ⟨hs, List.pairwise_singleton _ _, fun earlier hearlier => ?_⟩
    rw [List.forall_mem_singleton]
    rcases List.mem_append.mp hearlier with hlogged | hlast
    · have hnow := (List.pairwise_append.mp hs).2.2 earlier hlogged _ (List.mem_singleton_self _)
      exact hnow.trans hnext
    · obtain rfl := List.mem_singleton.mp hlast
      exact hnext
  · intro place n s hs
    simp only [Visitor.logging, leave_binding]
    exact hs

end Elision

/-! ## The names after the pass -/

/-- `elide` binds for each slot the first name that is offered for it by the statements of `program`
that stay; statements that are taken out, and whatever is not a statement of the program itself,
offer nothing. The module cannot be called by its name just if that is one for its whole namespace.
A scan of the program that is `left` binds the same names. During the pass no name that is bound is
taken away or replaced. -/
theorem Node.elide_binds_first {program : Node} (hroot : program.kind = .program)
    (h : program.WellTyped)
    (hinner : ∀ stmt ∈ program.children, ∀ n ∈ stmt.subnodes, n.kind ≠ .program)
    (features : FeatureMap) :
    let left := (program.elide features {}).1
    let passed := (program.elide features {}).2
    let offers := (program.ruledStatements features).flatMap Node.offers
    let history := program.logged (Elision.visitor features) (fun _ _ s => [s.binding]) none {}
    passed.fault = none ∧
    left.scanBindings {} = (.ok (), passed.binding) ∧
    passed.binding = Binding.ofFirst offers ∧
    (passed.binding.directCall = false ↔ ∃ o, firstOffer? offers .value = some o ∧
      ∃ stmt ∈ program.ruledStatements features, ∃ s ∈ stmt.children,
        s.kind = .importNamespace ∧ s.specifierOffer? = some o) ∧
    (history ++ [passed.binding]).Pairwise fun earlier later => later.Extends earlier := by
  intro left passed offers history
  have hfault : passed.fault = none := elide_fault_of_wellTyped h features {}
  have hleft : left = program.elided features [] := elide_eq_elided hfault
  have hkind : left.kind = .program := by rw [hleft, kind_elided, hroot]
  have htyped : left.WellTyped := by
    rw [hleft]
    exact wellTyped_elided h []
  have hchildren : ∀ c ∈ left.children, c.namings = [] := by
    rw [hleft]
    exact forall_mem_children_elided (fun c hc cs =>
      ⟨namings_makeRemoved c cs, namings_elided (hinner c hc) cs⟩) []
  have hoffers : left.children.flatMap Node.offers = offers := by
    rw [hleft]
    exact flatMap_offers_elided hroot
  -- Both the pass and the scan take what the statements that are left offer.
  have hnamings : left.namings = offers := by
    rw [← hoffers, ← mk_info_shape left, namings_mk]
    refine List.flatMap_congr fun c hc => ?_
    rw [hchildren c hc, offersIn, if_pos (show left.shape.kind = .program from hkind),
      List.append_nil]
  have hbinding : passed.binding = Binding.ofFirst offers := by
    rw [← Binding.foldl_take_eq_ofFirst, ← hnamings]
    exact binding_elide h features {}
  refine ⟨hfault, ?_, hbinding, ?_, Elision.pairwise_history h none {}⟩
  · rw [hbinding, ← Binding.foldl_take_eq_ofFirst, ← hoffers,
      ← Binder.run_statements (fun c hc => htyped.of_mem_children hc)]
    cases hshape : left.shape with
    | program body source => rw [scanBindings, hshape, children, hshape]; rfl
    | _ => simp [kind, hshape, Shape.kind] at hkind
  · rw [hbinding, Binding.directCall_ofFirst]
    refine exists_congr fun o => and_congr_right fun hfirst => ?_
    constructor
    · intro hdirect
      obtain ⟨stmt, hstmt, ho⟩ := List.mem_flatMap.mp (List.mem_of_find?_eq_some hfirst)
      exact ⟨stmt, hstmt, exists_importNamespace ho hdirect⟩
    · rintro ⟨-, -, s, -, hnamespace, hoffer⟩
      exact (directCall_of_specifierOffer? hoffer).mpr hnamespace

/-- An import that is taken out, a function with a declaration in it, and two imports that stay. -/
def importsInTurn : Node :=
  let name (t : String) : Node := .mk {} (.identifier (text t))
  let string (t : String) : Node := .mk {} (.string (text t) [])
  let load (t : String) : Node := .mk {} (.call (some (name "require")) [string t] false)
  let named (imported binding : String) : Node :=
    .mk {} (.importSpecifier (text imported) (some (name binding)))
  .mk {} (.program [
    .mk {} (.expressionStatement (some (string "has('x')"))),
    .mk {} (.importDeclaration [.mk {} (.importDefault (some (name "gone"))), named "add" "lost"]
      (some (string "a/has"))),
    .mk {} (.generic "function_declaration" [.mk {} (.generic "statement_block" [
      .mk {} (.variableDeclaration (text "var") [
        .mk {} (.variableDeclarator (some (name "inner")) (some (load "b/has")))])])]),
    .mk {} (.importDeclaration [.mk {} (.importNamespace (some (name "all")))]
      (some (string "c/has"))),
    .mk {} (.importDeclaration [.mk {} (.importDefault (some (name "has"))),
      named "exists" "known", named "add" "register"] (some (string "d/has")))] [])

set_option maxRecDepth 4000 in
/-- In `importsInTurn` the namespace comes first, and the last import is looked at for the other
names. -/
theorem Node.elide_binds_first_importsInTurn :
    let passed := (importsInTurn.elide [(text "x", true)] {}).2
    importsInTurn.kind = .program ∧ importsInTurn.WellTyped ∧
      (∀ stmt ∈ importsInTurn.children, ∀ n ∈ stmt.subnodes, n.kind ≠ .program) ∧
      passed.binding = ⟨some (text "all"), false, some (text "known"), some (text "register")⟩ := by
  intro passed
  have hroot : importsInTurn.kind = .program := rfl
  have htyped : importsInTurn.WellTyped := by decide
  have hinner : ∀ stmt ∈ importsInTurn.children, ∀ n ∈ stmt.subnodes, n.kind ≠ .program := by
    decide
  obtain ⟨-, -, hbinding, -⟩ := Node.elide_binds_first hroot htyped hinner [(text "x", true)]
  exact ⟨hroot, htyped, hinner, hbinding.trans (by decide +kernel)⟩

end FlagFold
