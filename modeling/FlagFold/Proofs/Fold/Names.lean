/-
  FlagFold.Proofs.Fold.Names

  The names that the first pass binds, without its state.  Each statement of a
  program offers names for the slots of the binding (`Node.offers`), and a slot keeps
  the first name that it is offered.  What is bound after the pass is what the
  statements offer that the pass has left (`Node.binding_elide`): nothing that is
  taken out binds a name.
-/

import FlagFold.Fold.Query
import FlagFold.Proofs.Fold.Typed

namespace FlagFold

/-! ## Offers -/

/-- A name for the feature-query module (`value`), or for its function `exists` (`presence`) or
`add` (`registration`). -/
structure Offer where
  slot : Query
  name : Text
  /-- The module can be called by this name. -/
  directCall : Bool := true
  deriving DecidableEq

namespace Binding

/-- The name that `b` has for a kind of query. -/
def slot (b : Binding) : Query → Option Text
  | .value => b.name
  | .presence => b.existsName
  | .registration => b.addName

/-- `b` with the name of `o`, unless its slot is taken. -/
def take (b : Binding) (o : Offer) : Binding :=
  match o.slot with
  | .value => (b.bind o.name o.directCall).2
  | .presence => (b.bindExists o.name).2
  | .registration => (b.bindAdd o.name).2

/-- `take` of an offer for a slot that is taken changes nothing. -/
theorem take_of_isSome {b : Binding} {o : Offer} (h : (b.slot o.slot).isSome) : b.take o = b := by
  unfold take
  cases hslot : o.slot <;> rw [hslot, slot] at h
  · simp only [bind, h, if_true]
  · simp only [bindExists, h, if_true]
  · simp only [bindAdd, h, if_true]

/-- After `take` the slot of `o` is taken. -/
theorem isSome_slot_take (b : Binding) (o : Offer) : ((b.take o).slot o.slot).isSome := by
  unfold take
  cases hslot : o.slot with
  | value =>
    simp only [bind, slot]
    split <;> simp [*]
  | presence =>
    simp only [bindExists, slot]
    split <;> simp [*]
  | registration =>
    simp only [bindAdd, slot]
    split <;> simp [*]

/-- `take` keeps the name of a slot that is taken. -/
theorem slot_take {b : Binding} {query : Query} (h : (b.slot query).isSome) (o : Offer) :
    (b.take o).slot query = b.slot query := by
  by_cases hsame : o.slot = query
  · rw [take_of_isSome (by rwa [hsame])]
  · unfold take
    cases hslot : o.slot <;> cases query <;> first
      | exact absurd hslot hsame
      | (simp only [bind, bindExists, bindAdd, slot]; split <;> rfl)

theorem slot_foldl_take {b : Binding} {query : Query} (h : (b.slot query).isSome)
    (offers : List Offer) : (offers.foldl take b).slot query = b.slot query := by
  induction offers generalizing b with
  | nil => rfl
  | cons o rest ih =>
    have hslot := slot_take h o
    rw [List.foldl_cons, ih (by rwa [hslot]), hslot]

/-- After folding `take` over `offers` all their slots are taken. -/
theorem isSome_slot_foldl_take {offers : List Offer} {o : Offer} (h : o ∈ offers) (b : Binding) :
    ((offers.foldl take b).slot o.slot).isSome := by
  induction offers generalizing b with
  | nil => simp at h
  | cons first rest ih =>
    rw [List.foldl_cons]
    rcases List.mem_cons.mp h with rfl | h
    · rw [slot_foldl_take (isSome_slot_take b o)]
      exact isSome_slot_take b o
    · exact ih h _

/-- Folding `take` over offers for taken slots changes nothing. -/
theorem foldl_take_of_isSome {offers : List Offer} {b : Binding}
    (h : ∀ o ∈ offers, (b.slot o.slot).isSome) : offers.foldl take b = b := by
  induction offers with
  | nil => rfl
  | cons first rest ih =>
    rw [List.forall_mem_cons] at h
    rw [List.foldl_cons, take_of_isSome h.1, ih h.2]

end Binding

/-! ## What statements offer -/

/-- The slot for which the name `imported` from the feature-query module is offered. -/
def importedSlot? (imported : Text) : Option Query :=
  if imported = text "default" then some .value
  else if imported = text "exists" then some .presence
  else if imported = text "add" then some .registration
  else none

namespace Node

/-- The name of `n`, if it is an identifier. -/
def name? (n : Node) : Option Text :=
  match n.shape with
  | .identifier name => some name
  | _ => none

/-- The value of `n`, if it is a string literal. -/
def words? (n : Node) : Option Text :=
  match n.shape with
  | .string value _ => some value
  | _ => none

/-- What a declarator `X = require('…/has')` offers. -/
def declaratorOffer? (d : Node) : Option Offer :=
  match d.shape with
  | .variableDeclarator target init =>
    if (requiredModule? init).any isQueryModule then
      (target.bind name?).map fun name => ⟨.value, name, true⟩
    else none
  | _ => none

/-- What the specifier `s` of an import from the feature-query module offers. -/
def specifierOffer? (s : Node) : Option Offer :=
  match s.shape with
  | .importDefault binding => (binding.bind name?).map fun name => ⟨.value, name, true⟩
  | .importNamespace binding => (binding.bind name?).map fun name => ⟨.value, name, false⟩
  | .importSpecifier imported binding =>
    (importedSlot? imported).bind fun slot =>
      (binding.bind name?).map fun name => ⟨slot, name, true⟩
  | _ => none

/-- The names that `stmt` offers as a statement of a program, in order: of a declaration the first
that fits, of an import from the feature-query module all. -/
def offers (stmt : Node) : List Offer :=
  match stmt.shape with
  | .variableDeclaration _ ds => (ds.findSome? declaratorOffer?).toList
  | .importDeclaration names (some source) =>
    if source.words?.any isQueryModule then names.filterMap specifierOffer? else []
  | _ => []

/-- The offer of a declarator is for the slot `value`. -/
theorem slot_of_declaratorOffer? {d : Node} {o : Offer} (h : d.declaratorOffer? = some o) :
    o.slot = .value := by
  unfold declaratorOffer? at h
  split at h
  case h_1 target init hshape =>
    rw [Option.ite_none_right_eq_some] at h
    obtain ⟨name, -, rfl⟩ := Option.map_eq_some_iff.mp h.2
    rfl
  case h_2 => cases h

theorem name_eq_ok {n : Node} {t : Text} (h : n.name? = some t) : n.name = .ok t := by
  unfold name? at h
  split at h
  case h_1 hshape => cases h; rw [name, hshape]
  case h_2 => cases h

theorem literalValue_eq_ok {n : Node} {t : Text} (h : n.words? = some t) :
    n.literalValue = .ok (.words t) := by
  unfold words? at h
  split at h
  case h_1 hshape => cases h; rw [literalValue, hshape]
  case h_2 => cases h

theorem exists_name? {n : Node} (h : n.kind = .identifier) : ∃ t, n.name? = some t := by
  unfold kind at h
  unfold name?
  cases hn : n.shape with
  | identifier name => exact ⟨name, rfl⟩
  | _ => simp [hn, Shape.kind] at h

theorem exists_words? {n : Node} (h : n.kind = .string) : ∃ t, n.words? = some t := by
  unfold kind at h
  unfold words?
  cases hn : n.shape with
  | string value raw => exact ⟨value, rfl⟩
  | _ => simp [hn, Shape.kind] at h

end Node

/-! ## What statements bind -/

namespace Binder

variable {α β : Type}

/-- `x` takes `offers`, one after the other. -/
def Takes (x : Binder α) (offers : List Offer) : Prop :=
  ∀ b, (x.run.run b).2 = offers.foldl Binding.take b

theorem takes_pure (a : α) : Takes (pure a) [] := fun _ => rfl

/-- An action that looks at the bound names first `Takes` what the rest of it does. -/
theorem takes_of_get {f : Binding → Binder β} {offers : List Offer}
    (h : ∀ b, ((f b).run.run b).2 = offers.foldl Binding.take b) : Takes (get >>= f) offers :=
  fun b => h b

/-- If `x` takes `first` and meets no fault, and `f` takes `second`, `x >>= f` takes both in
turn. -/
theorem Takes.bind {x : Binder α} {f : α → Binder β} {first second : List Offer}
    (hx : x.Takes first) (hsucceeds : x.Succeeds) (hf : ∀ a, (f a).Takes second) :
    Takes (x >>= f) (first ++ second) := by
  intro b
  obtain ⟨a, ha⟩ := hsucceeds b
  have hb := hx b
  rw [run_bind, List.foldl_append, ← hb]
  rcases hrun : x.run.run b with ⟨_, b'⟩
  rw [hrun] at ha
  cases ha
  exact hf a b'

theorem takes_of_ok {x : Except ShapeFault α} {f : α → Binder β} {a : α} {offers : List Offer}
    (h : x = .ok a) (hf : (f a).Takes offers) : Takes (liftM x >>= f) offers := by
  rw [h]
  exact hf

theorem declarators_takes {ds : List Node} (h : ∀ d ∈ ds, d.kind = .variableDeclarator) :
    (declarators ds).Takes (ds.findSome? Node.declaratorOffer?).toList := by
  induction ds with
  | nil => exact takes_pure false
  | cons d rest ih =>
    simp only [List.forall_mem_cons] at h
    have hrest := ih h.2
    have hd := h.1
    rw [declarators, List.findSome?_cons, Node.declaratorOffer?]
    unfold Node.kind at hd
    cases hshape : d.shape with
    | variableDeclarator target init =>
      simp only
      cases target with
      | none => simpa using hrest
      | some target =>
        rw [Option.map_some, Option.bind_some, Node.name?]
        -- Only a declarator with a plain name and a module that is loaded offers anything; the
        -- first one that fits ends the scan.
        cases htarget : target.shape with
        | identifier name =>
          cases hmodule : (Node.requiredModule? init).any isQueryModule with
          | true =>
            have hfits : ((Node.requiredModule? init).map isQueryModule).getD false = true := by
              cases hinit : Node.requiredModule? init <;> simp_all
            simp only [hfits, if_true]
            exact fun _ => rfl
          | false =>
            have hfits : ((Node.requiredModule? init).map isQueryModule).getD false = false := by
              cases hinit : Node.requiredModule? init <;> simp_all
            simpa [hfits] using hrest
        | _ => simpa using hrest
    | _ => simp [hshape, Shape.kind] at hd

theorem specifier_takes {s : Node} (hs : s.shape.isTyped) (hkind : s.kind.isImportName) :
    (specifier s).Takes s.specifierOffer?.toList := by
  unfold specifier Node.specifierOffer?
  unfold Node.kind at hkind
  cases hshape : s.shape with
  | importDefault binding | importNamespace binding =>
    cases binding with
    | none => exact takes_pure false
    | some binding =>
      obtain ⟨t, ht⟩ := Node.exists_name? (n := binding)
        (by simpa [hshape, Shape.isTyped] using hs)
      simp only [Option.bind_some, ht]
      exact takes_of_ok (Node.name_eq_ok ht) fun _ => rfl
  | importSpecifier imported binding =>
    cases binding with
    | none =>
      simp only [Option.bind_none, Option.map_none]
      cases importedSlot? imported <;> exact takes_pure false
    | some binding =>
      obtain ⟨t, ht⟩ := Node.exists_name? (n := binding)
        (by simpa [hshape, Shape.isTyped] using hs)
      simp only [Option.bind_some, ht, importedSlot?]
      split
      · exact takes_of_ok (Node.name_eq_ok ht) fun _ => rfl
      split
      · exact takes_of_ok (Node.name_eq_ok ht) fun _ => rfl
      split
      · exact takes_of_ok (Node.name_eq_ok ht) fun _ => rfl
      · exact takes_pure false
  | _ => simp [hshape, Shape.kind, Kind.isImportName] at hkind

theorem specifiers_takes {names : List Node}
    (h : ∀ s ∈ names, s.shape.isTyped ∧ s.kind.isImportName) :
    (specifiers names).Takes (names.filterMap Node.specifierOffer?) := by
  induction names with
  | nil => exact takes_pure false
  | cons s rest ih =>
    simp only [List.forall_mem_cons] at h
    have hoffers : (s :: rest).filterMap Node.specifierOffer? =
        s.specifierOffer?.toList ++ (rest.filterMap Node.specifierOffer? ++ []) := by
      rw [List.append_nil, List.filterMap_cons]
      cases s.specifierOffer? <;> rfl
    rw [hoffers]
    exact (specifier_takes h.1.1 h.1.2).bind (specifier_succeeds h.1.1 h.1.2) fun _ =>
      (ih h.2).bind (specifiers_succeeds h.2) fun _ => takes_pure _

/-- `statement n` takes `n.offers`. -/
theorem statement_takes {n : Node} (h : n.WellTyped) : (statement n).Takes n.offers := by
  refine takes_of_get fun b => ?_
  have hn := h.isTyped
  unfold Node.offers
  cases hshape : n.shape with
  | variableDeclaration keyword ds =>
    simp only [hshape, Shape.isTyped, List.all_eq_true, decide_eq_true_eq] at hn
    simp only
    split
    case isTrue hbound =>
      -- What a declaration offers is a name for the module.
      symm
      apply Binding.foldl_take_of_isSome
      intro o ho
      obtain ⟨d, -, hd⟩ := List.exists_of_findSome?_eq_some (Option.mem_toList.mp ho)
      rwa [Node.slot_of_declaratorOffer? hd]
    case isFalse => exact declarators_takes hn b
  | importDeclaration names source =>
    simp only [hshape, Shape.isTyped, Bool.and_eq_true, List.all_eq_true] at hn
    cases source with
    | none => rfl
    | some source =>
      obtain ⟨t, ht⟩ := Node.exists_words? (n := source) (by simpa using hn.2)
      refine takes_of_ok (Node.literalValue_eq_ok ht) ?_ b
      simp only [ht, Option.any_some]
      split
      · exact specifiers_takes fun s hs =>
          ⟨(h.of_mem_children (by simp [Node.children, hshape, Shape.nodes, hs])).isTyped,
            hn.1 s hs⟩
      · exact takes_pure false
  | _ => rfl

end Binder

/-! ## What is left of a statement -/

namespace Node

theorem requiredModule?_call (info : Info) (callee argument : Node) (optional : Bool) :
    requiredModule? (some (.mk info (.call (some callee) [argument] optional))) =
      if callee.name? = some (text "require") then argument.words? else none := by
  obtain ⟨calleeInfo, callee⟩ := callee
  obtain ⟨argumentInfo, argument⟩ := argument
  cases callee with
  | identifier name => cases argument <;> simp [requiredModule?, name?, words?]
  | _ => simp [requiredModule?, name?]

/-- `requiredModule?` of a call depends on the name of its callee and the value of its argument. -/
theorem requiredModule?_map {f : Node → Node} {shape : Shape Node}
    (hname : ∀ c ∈ shape.nodes, (f c).name? = c.name?)
    (hwords : ∀ c ∈ shape.nodes, (f c).words? = c.words?) (info info' : Info) :
    requiredModule? (some (mk info' (shape.map f))) = requiredModule? (some (mk info shape)) := by
  cases shape with
  | call callee arguments optional =>
    rcases callee with _ | callee
    · rfl
    rcases arguments with _ | ⟨argument, _ | ⟨second, rest⟩⟩
    · rfl
    · have hcallee := hname callee (by simp [Shape.nodes])
      have hargument := hwords argument (by simp [Shape.nodes])
      rw [requiredModule?_call, ← hcallee, ← hargument, ← requiredModule?_call info']
      rfl
    · rfl
  | _ => rfl

/-- `declaratorOffer?` depends on the name in a declarator and on the module that it loads. -/
theorem declaratorOffer?_map {f : Node → Node} {shape : Shape Node}
    (hname : ∀ c ∈ shape.nodes, (f c).name? = c.name?)
    (hmodule : ∀ c ∈ shape.nodes, requiredModule? (some (f c)) = requiredModule? (some c))
    (info info' : Info) :
    (mk info' (shape.map f)).declaratorOffer? = (mk info shape).declaratorOffer? := by
  cases shape with
  | variableDeclarator target init =>
    have htarget : (target.map f).bind name? = target.bind name? := by
      cases target with
      | none => rfl
      | some target => exact hname target (by simp [Shape.nodes])
    have hinit : requiredModule? (init.map f) = requiredModule? init := by
      cases init with
      | none => rfl
      | some init => exact hmodule init (by simp [Shape.nodes])
    simp only [declaratorOffer?, shape_mk, Shape.map, htarget, hinit]
  | _ => rfl

/-- `specifierOffer?` depends on the local name. -/
theorem specifierOffer?_map {f : Node → Node} {shape : Shape Node}
    (hname : ∀ c ∈ shape.nodes, (f c).name? = c.name?) (info info' : Info) :
    (mk info' (shape.map f)).specifierOffer? = (mk info shape).specifierOffer? := by
  cases shape with
  | importDefault binding | importNamespace binding | importSpecifier _ binding =>
    have hbinding : (binding.map f).bind name? = binding.bind name? := by
      cases binding with
      | none => rfl
      | some binding => exact hname binding (by simp [Shape.nodes])
    simp only [specifierOffer?, shape_mk, Shape.map, hbinding]
  | _ => rfl

/-- `offers` depend on the declarators of a declaration, or on the names and the module of an
import. -/
theorem offers_map {f : Node → Node} {shape : Shape Node}
    (hwords : ∀ c ∈ shape.nodes, (f c).words? = c.words?)
    (hdeclarator : ∀ c ∈ shape.nodes, (f c).declaratorOffer? = c.declaratorOffer?)
    (hspecifier : ∀ c ∈ shape.nodes, (f c).specifierOffer? = c.specifierOffer?)
    (info info' : Info) : (mk info' (shape.map f)).offers = (mk info shape).offers := by
  cases shape with
  | variableDeclaration keyword ds =>
    have hds : (ds.map f).findSome? declaratorOffer? = ds.findSome? declaratorOffer? := by
      induction ds with
      | nil => rfl
      | cons d rest ih =>
        simp only [Shape.nodes, List.forall_mem_cons] at hdeclarator hwords hspecifier ih
        rw [List.map_cons, List.findSome?_cons, List.findSome?_cons, hdeclarator.1,
          ih hwords.2 hdeclarator.2 hspecifier.2]
    simp only [offers, shape_mk, Shape.map, hds]
  | importDeclaration names source =>
    cases source with
    | none => rfl
    | some source =>
      simp only [Shape.nodes, Option.toList_some, List.forall_mem_append, List.forall_mem_cons]
        at hwords hspecifier
      have hnames : (names.map f).filterMap specifierOffer? = names.filterMap specifierOffer? := by
        rw [List.filterMap_map]
        exact List.filterMap_congr hspecifier.1
      simp only [offers, shape_mk, Shape.map, Option.map_some, hwords.2.1, hnames]
  | _ => rfl

variable {features : FeatureMap}

/-- A `view` with one value for all statement lists, that looks at other nodes only so far as their
shapes go, says the same of `n` and of the elided node. -/
theorem view_elided {α : Type} (view : Node → α) (other : α)
    (hlist : ∀ info shape, shape.kind.isStatementList → view (mk info shape) = other)
    (hmap : ∀ info info' shape,
      view (mk info' (shape.map (·.elided features []))) = view (mk info shape))
    (n : Node) (cs : List Comment) : view (n.elided features cs) = view n := by
  cases n with
  | mk info shape =>
    by_cases hshape : shape.kind.isStatementList
    · have hkind := @kind_elided features (mk info shape) cs
      generalize (mk info shape).elided features cs = left at hkind
      obtain ⟨info', shape'⟩ := left
      rw [hlist info' shape' (by rwa [← shape_mk info' shape', ← kind, hkind]),
        hlist info shape hshape]
    · rw [elided_of_not_isStatementList hshape]
      exact hmap info _ shape

theorem name?_elided (n : Node) (cs : List Comment) : (n.elided features cs).name? = n.name? := by
  refine view_elided name? none ?_ ?_ n cs
  · rintro info (_ | _) h <;> first | rfl | cases h
  · rintro info info' (_ | _) <;> rfl

theorem words?_elided (n : Node) (cs : List Comment) :
    (n.elided features cs).words? = n.words? := by
  refine view_elided words? none ?_ ?_ n cs
  · rintro info (_ | _) h <;> first | rfl | cases h
  · rintro info info' (_ | _) <;> rfl

theorem requiredModule?_elided (n : Node) (cs : List Comment) :
    requiredModule? (some (n.elided features cs)) = requiredModule? (some n) := by
  refine view_elided (fun n => requiredModule? (some n)) none ?_ ?_ n cs
  · rintro info (_ | _) h <;> first | rfl | cases h
  · exact fun info info' shape => requiredModule?_map (fun c _ => name?_elided c [])
      (fun c _ => words?_elided c []) info info'

theorem declaratorOffer?_elided (n : Node) (cs : List Comment) :
    (n.elided features cs).declaratorOffer? = n.declaratorOffer? := by
  refine view_elided declaratorOffer? none ?_ ?_ n cs
  · rintro info (_ | _) h <;> first | rfl | cases h
  · exact fun info info' shape => declaratorOffer?_map (fun c _ => name?_elided c [])
      (fun c _ => requiredModule?_elided c []) info info'

theorem specifierOffer?_elided (n : Node) (cs : List Comment) :
    (n.elided features cs).specifierOffer? = n.specifierOffer? := by
  refine view_elided specifierOffer? none ?_ ?_ n cs
  · rintro info (_ | _) h <;> first | rfl | cases h
  · exact fun info info' shape => specifierOffer?_map (fun c _ => name?_elided c []) info info'

/-- `elided` keeps the offers of a statement. -/
theorem offers_elided (n : Node) (cs : List Comment) :
    (n.elided features cs).offers = n.offers := by
  refine view_elided offers [] ?_ ?_ n cs
  · rintro info (_ | _) h <;> first | rfl | cases h
  · exact fun info info' shape => offers_map (fun c _ => words?_elided c [])
      (fun c _ => declaratorOffer?_elided c []) (fun c _ => specifierOffer?_elided c []) info info'

/-! ## What a tree offers -/

/-- What `n` offers right below a node of the kind `parent`: only the statements of programs bind
names. -/
def offersIn (parent : Kind) (n : Node) : List Offer := if parent = .program then n.offers else []

/-- The offers of the statements of all programs in a tree, in the order in which a walk comes to
them. -/
def namings : Node → List Offer :=
  foldUp fun _ shape => shape.nodes.flatMap fun p => p.1.offersIn shape.kind ++ p.2

theorem namings_mk (info : Info) (shape : Shape Node) :
    (mk info shape).namings = shape.nodes.flatMap fun c => c.offersIn shape.kind ++ c.namings := by
  rw [namings, foldUp_mk, Shape.nodes_map, Shape.kind_map, List.flatMap_map]

theorem offersIn_elided (parent : Kind) (n : Node) (cs : List Comment) :
    (n.elided features cs).offersIn parent = n.offersIn parent := by
  rw [offersIn, offersIn, offers_elided]

/-- A placeholder offers nothing. -/
theorem offersIn_makeRemoved (parent : Kind) (n : Node) (cs : List Comment) :
    ((makeRemoved n).withComments cs).offersIn parent = [] := by
  rw [offersIn]
  split <;> rfl

theorem namings_makeRemoved (n : Node) (cs : List Comment) :
    ((makeRemoved n).withComments cs).namings = [] :=
  namings_mk { (makeRemoved n).info with comments := cs } .removed

end Node

/-! ## The pass -/

namespace Elision

variable {features : FeatureMap}

theorem bindFrom_binding {stmt : Node} (h : stmt.WellTyped) (cs : List Comment) (s : Elision) :
    (s.bindFrom (stmt.withComments cs)).binding = stmt.offers.foldl Binding.take s.binding := by
  have htakes := Binder.statement_takes h s.binding
  -- Comments do not matter to what a statement binds.
  have hcomments : Binder.statement (stmt.withComments cs) = Binder.statement stmt := rfl
  rw [bindFrom, hcomments]
  rcases hrun : (Binder.statement stmt).run.run s.binding with ⟨_ | _ | _, binding⟩ <;>
    rw [hrun] at htakes <;> exact htakes

/-- `enterStatement` binds nothing for a statement that is taken out, and what `stmt` offers for any
other, if it is one of a program. -/
theorem enterStatement_binding {stmt : Node} (h : stmt.WellTyped) (p : Place) (s : Elision) :
    (enterStatement features p stmt s).2.binding =
      match (s.machine.step features stmt).1 with
      | .ok none => (stmt.offersIn p.parent).foldl Binding.take s.binding
      | _ => s.binding := by
  unfold enterStatement
  rcases hstep : s.machine.step features stmt with ⟨verdict, machine⟩
  simp only [ElisionState.step_withComments, hstep]
  cases verdict with
  | error fault => rfl
  | ok verdict =>
    cases verdict with
    | some v => simp only; split <;> rfl
    | none =>
      rw [Node.offersIn]
      simp only
      split
      case isTrue hprogram => split <;> rw [bindFrom_binding h]
      case isFalse => split <;> rfl

theorem leave_binding (place : Option Place) (n : Node) (s : Elision) :
    ((visitor features).leave place n s).2.binding = s.binding := by
  simp only [visitor]
  split <;> rfl

/-- From a settled state, the visits below `n` bind the `namings` of the elided node. -/
def Scans (features : FeatureMap) (n : Node) : Prop :=
  ∀ (s : Elision) (cs : List Comment), s.Settled →
    (traversePlaces (visitor features) n.shape.places s).2.binding =
      (n.elided features cs).namings.foldl Binding.take s.binding

/-- The visit of a node that is no statement binds the `namings` of the elided node. -/
theorem binding_of_not_isStatement (place : Option Place) {n : Node} (hn : Scans features n)
    {s : Elision} (hs : s.Settled) (hplace : ∀ p, place = some p → ¬ p.isStatement) :
    (n.traverse (visitor features) place s).2.binding =
      (n.elided features []).namings.foldl Binding.take s.binding := by
  cases n with
  | mk info shape =>
    have henter : (visitor features).enter place (.mk info shape) s = (.descend info, s) := by
      simp only [visitor, hs.fault, Option.isSome_none, Bool.false_eq_true, if_false]
      cases place with
      | none => rfl
      | some p => simp only [if_neg (hplace p rfl), Node.info_mk]
    simp only [Node.traverse_mk, henter, leave_binding]
    exact hn s [] hs

/-- The visit of a statement that stays binds its offers and then its `namings`, that of one that is
taken out nothing. -/
theorem binding_of_isStatement {p : Place} {n : Node} (hn : Scans features n)
    (htyped : n.WellTyped) {s : Elision} (hs : s.fault = none) (hplace : p.isStatement) :
    (n.traverse (visitor features) (some p) s).2.binding =
      match (s.machine.step features n).1 with
      | .ok none => (n.offersIn p.parent ++ (n.elided features s.carried).namings).foldl
          Binding.take s.binding
      | _ => s.binding := by
  cases n with
  | mk info shape =>
    have henter : (visitor features).enter (some p) (.mk info shape) s =
        enterStatement features p (.mk info shape) s := by
      simp only [visitor, hs, Option.isSome_none, Bool.false_eq_true, if_false, hplace, if_true]
    have hfault := enterStatement_fault htyped features p hs
    have hbinding := @enterStatement_binding features _ htyped p s
    rw [Node.traverse_mk, henter]
    rcases enterStatement_cases features p (.mk info shape) s with
      hsome | ⟨v, machine, hstep, notes, hskip⟩ | ⟨hstep, after, hdescend, hafter⟩
    · rw [hfault] at hsome
      cases hsome
    · rw [hskip, hstep]
    · rw [hdescend, hstep] at hbinding
      rw [hdescend, hstep]
      simp only [leave_binding, List.foldl_append] at hbinding ⊢
      rw [← hbinding]
      exact hn after s.carried hafter

/-- The visit of a list binds the offers and `namings` of what `elidedItems` leaves. -/
theorem binding_of_listPlaces (parent : Kind) (field : Field) {items : List Node} (index : Nat)
    {s : Elision} (hn : ∀ n ∈ items, Scans features n) (htyped : ∀ n ∈ items, n.WellTyped)
    (hprogram : parent = .program → ∀ i k, Place.isStatement ⟨parent, field, some i, k⟩)
    (hs : s.fault = none)
    (hbefore : (∀ k, ¬ Place.isStatement ⟨parent, field, some index, k⟩) → s.Settled) :
    let read := elidedItems features parent field index s.machine s.carried
      (items.map fun n => (n, n.elided features))
    (traversePlaces (visitor features) (listPlaces parent field index items) s).2.binding =
      (read.1.flatMap fun n => n.offersIn parent ++ n.namings).foldl Binding.take s.binding := by
  induction items generalizing index s with
  | nil => rfl
  | cons n rest ih =>
    rw [List.forall_mem_cons] at hn htyped
    simp only [listPlaces, traversePlaces, List.map_cons, elidedItems, List.length_map]
    have hfault := traverse_fault htyped.1 features
      (some ⟨parent, field, some index, rest.length⟩) hs
    by_cases hplace : Place.isStatement ⟨parent, field, some index, rest.length⟩
    · have hbinding := binding_of_isStatement hn.1 htyped.1 hs hplace
      have hvisit := traverse_of_isStatement (elided features n) hs hplace
      -- Behind a statement nothing is asked of the state.
      have hnext : ¬ ∀ k, ¬ Place.isStatement ⟨parent, field, some (index + 1), k⟩ :=
        fun h => h 0 (isStatement_succ hplace 0)
      generalize (n.traverse (visitor features) _ s) = visited at hbinding hvisit hfault ⊢
      have hrest := ih (index + 1) hn.2 htyped.2 hfault fun h => absurd h hnext
      rw [if_pos hplace]
      rcases hvisit with hsome | ⟨v, machine, hstep, -, -, rfl, hcarried⟩ | ⟨hstep, -, hafter⟩
      · rw [hfault] at hsome
        cases hsome
      · rw [hstep] at hbinding
        rw [hrest, hbinding, hcarried, hstep]
        simp only [List.flatMap_cons, Node.offersIn_makeRemoved, Node.namings_makeRemoved,
          List.nil_append]
      · rw [hstep] at hbinding
        rw [hrest, hbinding, hafter.carried, hafter.machine, hstep]
        simp only [List.flatMap_cons, Node.offersIn_elided, List.foldl_append]
    · -- No statement has come yet, so this is no list of a program.
      have hsettled : s.Settled := hbefore fun k => hplace
      have hplaces : ∀ p, some (⟨parent, field, some index, rest.length⟩ : Place) = some p →
          ¬ p.isStatement := by
        rintro _ ⟨⟩
        exact hplace
      have hparent : parent ≠ .program := fun h => hplace (hprogram h _ _)
      have hbinding := binding_of_not_isStatement _ hn.1 hsettled hplaces
      have hvisit := traverse_of_not_isStatement _ (elided features n) hsettled hplaces
      generalize (n.traverse (visitor features) _ s) = visited at hbinding hvisit hfault ⊢
      rcases hvisit with hsome | ⟨-, hafter⟩
      · rw [hfault] at hsome
        cases hsome
      · have hrest := ih (index + 1) hn.2 htyped.2 hfault fun _ => hafter
        rw [if_neg hplace, hrest, hbinding, hafter.carried, hafter.machine, hsettled.carried,
          hsettled.machine]
        simp only [List.flatMap_cons, Node.offersIn, if_neg hparent, List.nil_append,
          List.foldl_append]

/-- Where no place is that of a statement, a visit binds the `namings` of the elided nodes only. -/
theorem binding_of_places {ps : List (Place × Node)} (hn : ∀ p ∈ ps, Scans features p.2)
    (htyped : ∀ p ∈ ps, p.2.WellTyped) (hplace : ∀ p ∈ ps, ¬ p.1.isStatement) {s : Elision}
    (hs : s.Settled) :
    (traversePlaces (visitor features) ps s).2.binding =
      ((ps.map (·.2)).flatMap fun n => (n.elided features []).namings).foldl Binding.take
        s.binding := by
  induction ps generalizing s with
  | nil => rfl
  | cons p rest ih =>
    rw [List.forall_mem_cons] at hn htyped hplace
    have hplaces : ∀ q, some p.1 = some q → ¬ q.isStatement := by
      rintro _ ⟨⟩
      exact hplace.1
    simp only [traversePlaces]
    rcases traverse_of_not_isStatement _ (elided features p.2) hs hplaces with
      hsome | ⟨-, hafter⟩
    · rw [traverse_fault htyped.1 features _ hs.fault] at hsome
      cases hsome
    · rw [ih hn.2 htyped.2 hplace.2 hafter, binding_of_not_isStatement _ hn.1 hs hplaces,
        List.map_cons, List.flatMap_cons, List.foldl_append]

/-- Every well-typed node `Scans`; by induction on the tree. -/
theorem scans {n : Node} (h : n.WellTyped) : Scans features n := by
  induction n using Node.induction with
  | mk info shape ih =>
    intro s cs hs
    have htyped : ∀ c ∈ shape.nodes, c.WellTyped := fun c => h.of_mem_children
    have hn : ∀ c ∈ shape.nodes, Scans features c := fun c hc => ih c hc (htyped c hc)
    rw [Node.shape_mk]
    -- Only in a list of statements does the machine go from one node to the next.
    by_cases hlist : shape.kind.isStatementList
    · rw [Node.elided_mk, Node.namings_mk]
      cases shape with
      | program body source =>
        have hlist := binding_of_listPlaces .program .body 0 hn htyped (fun _ _ _ => rfl)
          hs.fault fun _ => hs
        rwa [hs.machine, hs.carried] at hlist
      | generic name items =>
        have hlist := binding_of_listPlaces (.generic name) .children 0 hn htyped (by simp)
          hs.fault fun _ => hs
        rwa [hs.machine, hs.carried] at hlist
      | _ => simp [Shape.kind, Kind.isStatementList] at hlist
    · have hmem : ∀ p ∈ shape.places, p.2 ∈ shape.nodes := fun p hp =>
        Shape.mem_nodes_of_mem_places hp
      have hkind : shape.kind ≠ .program := by
        rintro hprogram
        simp [hprogram, Kind.isStatementList] at hlist
      rw [binding_of_places (fun p hp => hn p.2 (hmem p hp)) (fun p hp => htyped p.2 (hmem p hp))
        (fun p hp => not_isStatement_of_mem_places hlist hp) hs, Shape.map_snd_places,
        Node.elided_of_not_isStatementList hlist, Node.namings_mk, Shape.nodes_map,
        Shape.kind_map, List.flatMap_map]
      simp only [Node.offersIn, if_neg hkind, List.nil_append]

end Elision

/-- `elide` binds, after `binding`, the `namings` of the tree that it leaves, in order. -/
theorem Node.binding_elide {program : Node} (h : program.WellTyped) (features : FeatureMap)
    (binding : Binding) :
    (program.elide features binding).2.binding =
      (program.elide features binding).1.namings.foldl Binding.take binding := by
  rw [elide_eq_elided (elide_fault_of_wellTyped h features binding)]
  exact Elision.binding_of_not_isStatement none (Elision.scans h) ⟨rfl, rfl, rfl⟩ (by simp)

end FlagFold
