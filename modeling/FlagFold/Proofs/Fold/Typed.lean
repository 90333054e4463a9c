/-
  FlagFold.Proofs.Fold.Typed

  Trees whose parts are of the kinds that their holders are made of: declarations
  consist of declarators, imports of import names and a string, import names of an
  identifier.  The parser delivers no others, and on these the evaluation of
  pragmas meets no fault.
-/

import FlagFold.Proofs.Fold.Elision

namespace FlagFold

/-- The kinds of the specifiers of an import. -/
def Kind.isImportName : Kind → Bool
  | importDefault | importNamespace | importSpecifier => true
  | _ => false

/-- The parts of a shape are of the kinds that belong there. -/
def Shape.isTyped : Shape Node → Bool
  | variableDeclaration _ ds => ds.all (·.kind = .variableDeclarator)
  | importDeclaration names source =>
    names.all (·.kind.isImportName) && source.all (·.kind = .string)
  | importDefault binding | importNamespace binding | importSpecifier _ binding =>
    binding.all (·.kind = .identifier)
  | _ => true

/-- Every node in `n` has parts of the kinds that belong there. -/
def Node.WellTyped (n : Node) : Prop := ∀ m ∈ n.subnodes, m.shape.isTyped

instance (n : Node) : Decidable n.WellTyped := inferInstanceAs (Decidable (∀ m ∈ n.subnodes, _))

namespace Node

theorem WellTyped.isTyped {n : Node} (h : n.WellTyped) : n.shape.isTyped :=
  h n (mem_subnodes_self n)

theorem WellTyped.of_mem_children {n c : Node} (h : n.WellTyped) (hc : c ∈ n.children) :
    c.WellTyped :=
  fun m hm => h m (mem_subnodes_of_mem_children hc hm)

/-! ## Nodes of a known kind -/

theorem literalValue_of_kind {n : Node} (h : n.kind = .string) :
    ∃ t, n.literalValue = .ok (.words t) := by
  unfold kind at h
  unfold literalValue
  cases hn : n.shape with
  | string value raw => exact ⟨value, rfl⟩
  | _ => simp [hn, Shape.kind] at h

theorem name_of_kind {n : Node} (h : n.kind = .identifier) : ∃ t, n.name = .ok t := by
  unfold kind at h
  unfold name
  cases hn : n.shape with
  | identifier name => exact ⟨name, rfl⟩
  | _ => simp [hn, Shape.kind] at h

/-- `elidableModule` does not fail for a typed statement. -/
theorem elidableModule_of_isTyped {stmt : Node} (h : stmt.shape.isTyped) :
    ∃ module, stmt.elidableModule = .ok module := by
  unfold elidableModule
  cases stmt.bareRequire? with
  | some module => exact ⟨_, rfl⟩
  | none =>
    cases hstmt : stmt.shape with
    | variableDeclaration keyword ds =>
      -- Only of a declaration with one declarator is the declarator looked at.
      match ds with
      | [] | _ :: _ :: _ => exact ⟨none, rfl⟩
      | [d] =>
        have hd : d.kind = .variableDeclarator := by simpa [hstmt, Shape.isTyped] using h
        unfold kind at hd
        cases hd' : d.shape with
        | variableDeclarator target init => simp only [hd', Except.ok.injEq, exists_eq']
        | _ => simp [hd', Shape.kind] at hd
    | importDeclaration names source =>
      cases source with
      | none => exact ⟨none, rfl⟩
      | some source =>
        obtain ⟨t, ht⟩ := literalValue_of_kind (n := source)
          (by simp_all [Shape.isTyped])
        exact ⟨some (.words t), by simp [ht, bind, Except.bind, pure, Except.pure]⟩
    | _ => exact ⟨none, rfl⟩

end Node

/-! ## Binding names -/

namespace Binder

variable {α β : Type}

/-- The run of `x >>= f` from `b`. -/
theorem run_bind (x : Binder α) (f : α → Binder β) (b : Binding) :
    (x >>= f).run.run b =
      match x.run.run b with
      | (.ok a, b) => (f a).run.run b
      | (.error fault, b) => (.error fault, b) := by
  simp only [Bind.bind, ExceptT.bind, ExceptT.run, ExceptT.mk, StateT.bind, StateT.run]
  rcases x b with ⟨a | a, b⟩ <;> rfl

/-- `x` meets no fault, whatever is bound. -/
def Succeeds (x : Binder α) : Prop := ∀ b, ∃ a, (x.run.run b).1 = .ok a

theorem succeeds_pure (a : α) : Succeeds (pure a) := fun _ => ⟨a, rfl⟩

theorem succeeds_modifyGet (op : Binding → α × Binding) : Succeeds (modifyGet op) :=
  fun b => ⟨(op b).1, rfl⟩

/-- If the check of a part succeeds with `a`, it is enough that `f a` succeeds. -/
theorem succeeds_of_ok {x : Except ShapeFault α} {f : α → Binder β} {a : α} (h : x = .ok a)
    (hf : (f a).Succeeds) : Succeeds (liftM x >>= f) := by
  rw [h]
  exact hf

theorem Succeeds.bind {x : Binder α} {f : α → Binder β} (hx : x.Succeeds)
    (hf : ∀ a, (f a).Succeeds) : Succeeds (x >>= f) := by
  intro b
  obtain ⟨a, ha⟩ := hx b
  rw [run_bind]
  rcases hrun : x.run.run b with ⟨_, b'⟩
  rw [hrun] at ha
  cases ha
  exact hf a b'

theorem declarators_succeeds {ds : List Node} (h : ∀ d ∈ ds, d.kind = .variableDeclarator) :
    (declarators ds).Succeeds := by
  induction ds with
  | nil => exact succeeds_pure false
  | cons d rest ih =>
    simp only [List.forall_mem_cons] at h
    have hrest := ih h.2
    have hd := h.1
    rw [declarators]
    unfold Node.kind at hd
    cases hshape : d.shape with
    | variableDeclarator target init =>
      simp only
      split
      · split
        · exact succeeds_modifyGet _
        · exact hrest
      · exact hrest
    | _ => simp [hshape, Shape.kind] at hd

theorem specifier_succeeds {s : Node} (hs : s.shape.isTyped) (hkind : s.kind.isImportName) :
    (specifier s).Succeeds := by
  unfold specifier
  unfold Node.kind at hkind
  -- A name is there or not; if it is, it is an identifier.
  have hnamed : ∀ {binding : Node} (op : Text → Binder Bool), (∀ t, (op t).Succeeds) →
      binding.kind = .identifier → Succeeds (do op (← binding.name)) := by
    intro binding op hop hbinding
    obtain ⟨t, ht⟩ := Node.name_of_kind hbinding
    exact succeeds_of_ok ht (hop t)
  cases hshape : s.shape with
  | importDefault binding | importNamespace binding =>
    cases binding with
    | none => exact succeeds_pure false
    | some binding =>
      exact hnamed _ (fun t => succeeds_modifyGet _) (by simpa [hshape, Shape.isTyped] using hs)
  | importSpecifier imported binding =>
    cases binding with
    | none => exact succeeds_pure false
    | some binding =>
      have hbinding : binding.kind = .identifier := by simpa [hshape, Shape.isTyped] using hs
      simp only
      split
      · exact hnamed _ (fun t => succeeds_modifyGet _) hbinding
      split
      · exact hnamed _ (fun t => (succeeds_modifyGet _).bind fun _ => succeeds_pure _) hbinding
      split
      · exact hnamed _ (fun t => (succeeds_modifyGet _).bind fun _ => succeeds_pure _) hbinding
      · exact succeeds_pure false
  | _ => simp [hshape, Shape.kind, Kind.isImportName] at hkind

theorem specifiers_succeeds {names : List Node}
    (h : ∀ s ∈ names, s.shape.isTyped ∧ s.kind.isImportName) : (specifiers names).Succeeds := by
  induction names with
  | nil => exact succeeds_pure false
  | cons s rest ih =>
    simp only [List.forall_mem_cons] at h
    exact (specifier_succeeds h.1.1 h.1.2).bind fun _ =>
      (ih h.2).bind fun _ => succeeds_pure _

/-- `statement n` succeeds for a well-typed `n`. -/
theorem statement_succeeds {n : Node} (h : n.WellTyped) : (statement n).Succeeds := by
  refine Succeeds.bind (fun b => ⟨b, rfl⟩) fun b => ?_
  have hn := h.isTyped
  cases hshape : n.shape with
  | variableDeclaration keyword ds =>
    simp only [hshape, Shape.isTyped, List.all_eq_true, decide_eq_true_eq] at hn
    simp only
    split
    · exact succeeds_pure false
    · exact declarators_succeeds hn
  | importDeclaration names source =>
    simp only [hshape, Shape.isTyped, Bool.and_eq_true, List.all_eq_true] at hn
    cases source with
    | none => exact succeeds_pure false
    | some source =>
      obtain ⟨t, ht⟩ := Node.literalValue_of_kind (n := source) (by simpa using hn.2)
      apply succeeds_of_ok ht
      simp only
      split
      · exact specifiers_succeeds fun s hs =>
          ⟨(h.of_mem_children (by simp [Node.children, hshape, Shape.nodes, hs])).isTyped,
            hn.1 s hs⟩
      · exact succeeds_pure false
  | _ => exact succeeds_pure false

end Binder

/-! ## The pass -/

theorem ElisionState.step_of_isTyped {stmt : Node} (h : stmt.shape.isTyped)
    (features : FeatureMap) (state : ElisionState) :
    ∃ verdict, (state.step features stmt).1 = .ok verdict := by
  obtain ⟨module, hmodule⟩ := Node.elidableModule_of_isTyped h
  unfold step
  cases stmt.pragma? with
  | some p => cases hvalue : p.evaluate? features <;> simp [hvalue]
  | none => cases state <;> simp [hmodule, Except.map]

theorem Elision.bindFrom_fault {stmt : Node} (h : stmt.WellTyped) (cs : List Comment)
    (s : Elision) : (s.bindFrom (stmt.withComments cs)).fault = s.fault := by
  obtain ⟨bound, hbound⟩ := Binder.statement_succeeds h s.binding
  -- Comments do not matter to what a statement binds.
  have hcomments : Binder.statement (stmt.withComments cs) = Binder.statement stmt := rfl
  rw [bindFrom, hcomments]
  rcases hrun : (Binder.statement stmt).run.run s.binding with ⟨_, binding⟩
  rw [hrun] at hbound
  cases hbound
  cases bound <;> rfl

theorem Elision.enterStatement_fault {stmt : Node} (h : stmt.WellTyped) (features : FeatureMap)
    (p : Place) {s : Elision} (hs : s.fault = none) :
    (enterStatement features p stmt s).2.fault = none := by
  obtain ⟨verdict, hverdict⟩ := ElisionState.step_of_isTyped h.isTyped features s.machine
  rcases hstep : s.machine.step features stmt with ⟨_, machine⟩
  rw [hstep] at hverdict
  cases hverdict
  unfold enterStatement
  simp only [ElisionState.step_withComments, hstep]
  cases verdict with
  | some v => simp only; split <;> exact hs
  | none =>
    simp only
    split <;> split <;> simp only [bindFrom_fault h, hs]

/-- `traverse` of a well-typed node meets no fault if it starts without one. -/
theorem Elision.traverse_fault {n : Node} (h : n.WellTyped) (features : FeatureMap)
    (place : Option Place) {s : Elision} (hs : s.fault = none) :
    (n.traverse (visitor features) place s).2.fault = none := by
  refine Node.traverse_keeps (v := visitor features) (P := fun s => s.fault = none)
    (Q := Node.WellTyped) (fun n hn c hc => hn.of_mem_children hc) ?_ ?_ n h place s hs
  · intro place n s hn hs
    simp only [visitor, hs, Option.isSome_none, Bool.false_eq_true, if_false]
    cases place with
    | none => exact hs
    | some p =>
      simp only
      split
      · exact enterStatement_fault hn features p hs
      · exact hs
  · intro place n s hs
    simp only [visitor]
    split <;> exact hs

/-- `elide` of a well-typed program meets no fault. -/
theorem Node.elide_fault_of_wellTyped {program : Node} (h : program.WellTyped)
    (features : FeatureMap) (binding : Binding) :
    (program.elide features binding).2.fault = none :=
  Elision.traverse_fault h features none rfl

end FlagFold
