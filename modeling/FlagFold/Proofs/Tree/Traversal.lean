/-
  FlagFold.Proofs.Tree.Traversal

  The traversal of trees, described by the list of the places below a node.  A
  visit of a form is a visit of its places one after the other, in the state that
  the place before has left (`traverseShape_eq`); what the visit puts into the
  places is then put back into the form.
-/

import FlagFold.Proofs.Tree.Nodes
import FlagFold.Tree.Walk

namespace FlagFold

/-! ## Places -/

/-- The places of a list part, the first at `index`. -/
def listPlaces {α : Type} (parent : Kind) (field : Field) (index : Nat) :
    List α → List (Place × α)
  | [] => []
  | n :: rest =>
    (⟨parent, field, some index, rest.length⟩, n) :: listPlaces parent field (index + 1) rest

/-- The place of an optional part. -/
def optionPlaces {α : Type} (parent : Kind) (field : Field) (o : Option α) : List (Place × α) :=
  o.toList.map fun n => (⟨parent, field, none, 0⟩, n)

namespace Shape

variable {α β : Type}

/-- The places below a node of this shape, each with the node there, in the order in which they are
visited. -/
def places : Shape α → List (Place × α)
  | program body _ => listPlaces .program .body 0 body
  | expressionStatement e => optionPlaces .expressionStatement .expression e
  | variableDeclaration _ ds => listPlaces .variableDeclaration .declarations 0 ds
  | variableDeclarator t i =>
    optionPlaces .variableDeclarator .target t ++ optionPlaces .variableDeclarator .init i
  | importDeclaration ss s =>
    listPlaces .importDeclaration .specifiers 0 ss ++ optionPlaces .importDeclaration .source s
  | importDefault b => optionPlaces .importDefault .binding b
  | importNamespace b => optionPlaces .importNamespace .binding b
  | importSpecifier _ b => optionPlaces .importSpecifier .binding b
  | call c as _ => optionPlaces .call .callee c ++ listPlaces .call .arguments 0 as
  | member o p _ => optionPlaces .member .object o ++ optionPlaces .member .property p
  | template _ es => listPlaces .template .expressions 0 es
  | generic kind cs => listPlaces (.generic kind) .children 0 cs
  | identifier .. | string .. | boolean .. | removed => []

/-- The shape with other nodes in its places. -/
def refill : Shape α → List β → Shape β
  | program _ source, ns => .program ns source
  | expressionStatement _, ns => .expressionStatement ns.head?
  | variableDeclaration keyword _, ns => .variableDeclaration keyword ns
  | variableDeclarator t _, ns =>
    .variableDeclarator (ns.take t.toList.length).head? (ns.drop t.toList.length).head?
  | importDeclaration ss _, ns =>
    .importDeclaration (ns.take ss.length) (ns.drop ss.length).head?
  | importDefault _, ns => .importDefault ns.head?
  | importNamespace _, ns => .importNamespace ns.head?
  | importSpecifier imported _, ns => .importSpecifier imported ns.head?
  | call c _ optional, ns =>
    .call (ns.take c.toList.length).head? (ns.drop c.toList.length) optional
  | member o _ optional, ns =>
    .member (ns.take o.toList.length).head? (ns.drop o.toList.length).head? optional
  | template chunks _, ns => .template chunks ns
  | generic kind _, ns => .generic kind ns
  | identifier name, _ => .identifier name
  | string value raw, _ => .string value raw
  | boolean value, _ => .boolean value
  | removed, _ => .removed

end Shape

@[simp] theorem map_snd_listPlaces {α : Type} (parent : Kind) (field : Field) (index : Nat)
    (ns : List α) : (listPlaces parent field index ns).map (·.2) = ns := by
  induction ns generalizing index with
  | nil => rfl
  | cons n rest ih => simp only [listPlaces, List.map_cons, ih]

@[simp] theorem map_snd_optionPlaces {α : Type} (parent : Kind) (field : Field) (o : Option α) :
    (optionPlaces parent field o).map (·.2) = o.toList := by
  cases o <;> rfl

namespace Shape

variable {α β : Type}

@[simp] theorem map_snd_places (s : Shape α) : s.places.map (·.2) = s.nodes := by
  cases s <;> simp [places, nodes]

theorem mem_nodes_of_mem_places {s : Shape α} {p : Place × α} (h : p ∈ s.places) :
    p.2 ∈ s.nodes := by
  rw [← map_snd_places]
  exact List.mem_map_of_mem h

/-- `refill` with `f` applied to the nodes is `map f`. -/
theorem refill_map (f : α → β) (s : Shape α) : s.refill (s.nodes.map f) = s.map f := by
  cases s with
  | expressionStatement e => cases e <;> rfl
  | variableDeclarator t i => cases t <;> cases i <;> rfl
  | importDefault b => cases b <;> rfl
  | importNamespace b => cases b <;> rfl
  | importSpecifier imported b => cases b <;> rfl
  | member o p optional => cases o <;> cases p <;> rfl
  | call c as optional => cases c <;> simp [refill, nodes, map]
  | importDeclaration ss s =>
    simp only [refill, nodes, map, List.map_append]
    rw [List.take_left' (List.length_map f), List.drop_left' (List.length_map f)]
    cases s <;> rfl
  | program | variableDeclaration | template | generic => rfl
  | identifier | string | boolean | removed => rfl

/-- `refill` with the nodes of `s` changes nothing. -/
theorem refill_nodes (s : Shape α) : s.refill s.nodes = s := by
  simpa using refill_map (fun n => n) s

end Shape

/-! ## Visits -/

section

variable {σ : Type}

/-- Visits places one after the other. -/
def traversePlaces (v : Visitor σ) : List (Place × Node) → σ → List Node × σ
  | [], s => ([], s)
  | (place, n) :: rest, s =>
    let (n, s) := n.traverse v (some place) s
    let (ns, s) := traversePlaces v rest s
    (n :: ns, s)

theorem traversePlaces_append (v : Visitor σ) (ps qs : List (Place × Node)) (s : σ) :
    traversePlaces v (ps ++ qs) s =
      ((traversePlaces v ps s).1 ++ (traversePlaces v qs (traversePlaces v ps s).2).1,
        (traversePlaces v qs (traversePlaces v ps s).2).2) := by
  induction ps generalizing s with
  | nil => rfl
  | cons p rest ih => simp only [List.cons_append, traversePlaces, ih]

@[simp] theorem length_traversePlaces (v : Visitor σ) (ps : List (Place × Node)) (s : σ) :
    (traversePlaces v ps s).1.length = ps.length := by
  induction ps generalizing s with
  | nil => rfl
  | cons p rest ih => simp only [traversePlaces, List.length_cons, ih]

private theorem traverseList_eq (v : Visitor σ) (parent : Kind) (field : Field) (index : Nat)
    (ns : List Node) (s : σ) :
    traverseList v parent field index ns s =
      traversePlaces v (listPlaces parent field index ns) s := by
  induction ns generalizing index s with
  | nil => simp only [traverseList, listPlaces, traversePlaces]
  | cons n rest ih => simp only [traverseList, listPlaces, traversePlaces, ih]

private theorem traverseOption_eq (v : Visitor σ) (parent : Kind) (field : Field)
    (o : Option Node) (s : σ) :
    traverseOption v parent field o s =
      ((traversePlaces v (optionPlaces parent field o) s).1.head?,
        (traversePlaces v (optionPlaces parent field o) s).2) := by
  cases o <;> simp [traverseOption, optionPlaces, traversePlaces]

/-- `traverseShape` visits the `places` of a shape in order, and refills it. -/
theorem traverseShape_eq (v : Visitor σ) (shape : Shape Node) (s : σ) :
    traverseShape v shape s =
      (shape.refill (traversePlaces v shape.places s).1,
        (traversePlaces v shape.places s).2) := by
  have hopt : ∀ (parent : Kind) (field : Field) (o : Option Node) (s : σ),
      (traversePlaces v (optionPlaces parent field o) s).1.length = o.toList.length := by
    intro parent field o s
    simp [optionPlaces]
  have hlist : ∀ (parent : Kind) (field : Field) (ns : List Node) (s : σ),
      (traversePlaces v (listPlaces parent field 0 ns) s).1.length = ns.length := by
    intro parent field ns s
    rw [length_traversePlaces, ← List.length_map (fun p : Place × Node => p.2),
      map_snd_listPlaces]
  cases shape with
  | call | variableDeclarator | importDeclaration | member =>
    -- Two parts: what comes back is split where the first part ends.
    simp only [traverseShape, Shape.places, Shape.refill, traverseList_eq, traverseOption_eq,
      traversePlaces_append]
    simp [hopt, hlist]
  | _ =>
    simp only [traverseShape, Shape.places, Shape.refill, traverseList_eq, traverseOption_eq,
      traversePlaces]

/-- `traverse` of a node, by cases of what `enter` gives. -/
theorem Node.traverse_mk (v : Visitor σ) (place : Option Place) (info : Info)
    (shape : Shape Node) (s : σ) :
    (Node.mk info shape).traverse v place s =
      match v.enter place (.mk info shape) s with
      | (.skip replacement, s) => (replacement, s)
      | (.descend info, s) =>
        v.leave place (.mk info (shape.refill (traversePlaces v shape.places s).1))
          (traversePlaces v shape.places s).2 := by
  rw [Node.traverse]
  cases v.enter place (.mk info shape) s with
  | mk entry s => cases entry <;> simp only [traverseShape_eq]

/-- If `P` holds of the state and is kept by `enter` and `leave` at every node with `Q`, it holds
after the visit of `n`. -/
theorem Node.traverse_keeps {v : Visitor σ} {P : σ → Prop} {Q : Node → Prop}
    (hchildren : ∀ n, Q n → ∀ c ∈ n.children, Q c)
    (henter : ∀ place n s, Q n → P s → P (v.enter place n s).2)
    (hleave : ∀ place n s, P s → P (v.leave place n s).2)
    (n : Node) (hn : Q n) (place : Option Place) (s : σ) (hs : P s) :
    P (n.traverse v place s).2 := by
  induction n using Node.induction generalizing place s with
  | mk info shape ih =>
    have hentered := henter place (.mk info shape) s hn hs
    rw [Node.traverse_mk]
    split
    case h_1 heq => rwa [heq] at hentered
    case h_2 info' s' heq =>
      rw [heq] at hentered
      -- The nodes below are visited one after the other, each in a state that has the property.
      have hvisits : ∀ ps : List (Place × Node), (∀ p ∈ ps, p.2 ∈ shape.nodes) →
          ∀ s, P s → P (traversePlaces v ps s).2 := by
        intro ps hps
        induction ps with
        | nil => exact fun s hs => hs
        | cons p rest ihps =>
          intro s hs
          simp only [List.forall_mem_cons] at hps
          exact ihps hps.2 _ (ih p.2 hps.1 (hchildren _ hn _ hps.1) _ _ hs)
      exact hleave _ _ _ (hvisits _ (fun p hp => Shape.mem_nodes_of_mem_places hp) _ hentered)

/-! ## Visits that keep no account -/

/-- A tree in which every node becomes what `entry` says of it. -/
def Node.rebuild (entry : Node → Entry) : Node → Node :=
  Node.foldUp fun info shape =>
    match entry (.mk info (shape.map (·.1))) with
    | .skip replacement => replacement
    | .descend info => .mk info (shape.map (·.2))

theorem Node.rebuild_mk (entry : Node → Entry) (info : Info) (shape : Shape Node) :
    (Node.mk info shape).rebuild entry =
      match entry (.mk info shape) with
      | .skip replacement => replacement
      | .descend info => .mk info (shape.map (·.rebuild entry)) := by
  have hself : (fun p : Node × Node => p.1) ∘ (fun n => (n, n.rebuild entry)) = fun n => n := rfl
  rw [rebuild, foldUp_mk, ← rebuild]
  simp only [Shape.map_map, hself, Shape.map_id']
  rfl

variable {v : Visitor σ} {entry : Node → Entry}

/-- If the visit of each node of `shape` gives `f` of it, that of its places gives all of these. -/
theorem traversePlaces_eq_map {f : Node → Node} {shape : Shape Node}
    (h : ∀ n ∈ shape.nodes, ∀ p s, (n.traverse v (some p) s).1 = f n) (s : σ) :
    (traversePlaces v shape.places s).1 = shape.nodes.map f := by
  -- Said of any list of places, so that the induction can go along the list.
  have hplaces : ∀ ps : List (Place × Node), (∀ p ∈ ps, p.2 ∈ shape.nodes) →
      ∀ s, (traversePlaces v ps s).1 = (ps.map (·.2)).map f := by
    intro ps hps
    induction ps with
    | nil => exact fun s => rfl
    | cons p rest ih =>
      intro s
      simp only [List.forall_mem_cons] at hps
      simp only [traversePlaces, List.map_cons, h p.2 hps.1, ih hps.2]
  rw [hplaces _ fun p hp => Shape.mem_nodes_of_mem_places hp, Shape.map_snd_places]

/-- `traverse` is `rebuild`, if `enter` depends on the node alone and `leave` does nothing. -/
theorem Node.traverse_eq_rebuild (henter : ∀ p n s, (v.enter (some p) n s).1 = entry n)
    (hleave : ∀ place n s, v.leave place n s = (n, s)) (n : Node) (p : Place) (s : σ) :
    (n.traverse v (some p) s).1 = n.rebuild entry := by
  induction n using Node.induction generalizing p s with
  | mk info shape ih =>
    have hplaces := traversePlaces_eq_map ih
    have hentry := henter p (.mk info shape) s
    rw [traverse_mk, rebuild_mk]
    rcases henter' : v.enter (some p) (.mk info shape) s with ⟨_ | info', s'⟩
    · rw [henter'] at hentry
      simp only [← hentry]
    · rw [henter'] at hentry
      simp only [← hentry, hleave, hplaces, Shape.refill_map]

/-! ## Visits that keep an account -/

/-- If the visit of each node of `shape` takes the steps of its walk, as `account` tells, that of
its places takes the steps of all walks in turn. -/
theorem account_traversePlaces {τ : Type} {account : σ → τ} {step : τ → Node → τ}
    {walk : Node → List Node} {shape : Shape Node}
    (h : ∀ n ∈ shape.nodes, ∀ p s,
      account (n.traverse v (some p) s).2 = (walk n).foldl step (account s)) (s : σ) :
    account (traversePlaces v shape.places s).2 =
      (shape.nodes.flatMap walk).foldl step (account s) := by
  -- Said of any list of places, so that the induction can go along the list.
  have hplaces : ∀ ps : List (Place × Node), (∀ p ∈ ps, p.2 ∈ shape.nodes) →
      ∀ s, account (traversePlaces v ps s).2 =
        ((ps.map (·.2)).flatMap walk).foldl step (account s) := by
    intro ps hps
    induction ps with
    | nil => exact fun s => rfl
    | cons p rest ih =>
      intro s
      simp only [List.forall_mem_cons] at hps
      simp only [traversePlaces, List.map_cons, List.flatMap_cons, List.foldl_append,
        ih hps.2, h p.2 hps.1]
  rw [hplaces _ fun p hp => Shape.mem_nodes_of_mem_places hp, Shape.map_snd_places]

/-- What a visit makes of the state, as far as `account` tells: each node that is entered takes a
`step`, in the order of a walk that goes into the nodes that are gone into. -/
theorem Node.account_traverse {τ : Type} {account : σ → τ} {step : τ → Node → τ}
    {goes : Node → Bool} (henter : ∀ p n s, (v.enter (some p) n s).1 = entry n)
    (hleave : ∀ place n s, v.leave place n s = (n, s))
    (hskip : ∀ n replacement, entry n = .skip replacement → goes n = false)
    (hdescend : ∀ n info, entry n = .descend info → goes n = true)
    (hstep : ∀ p n s, account (v.enter (some p) n s).2 = step (account s) n)
    (n : Node) (p : Place) (s : σ) :
    account (n.traverse v (some p) s).2 = (n.preorder goes).foldl step (account s) := by
  induction n using Node.induction generalizing p s with
  | mk info shape ih =>
    have hentry := henter p (.mk info shape) s
    have haccount := hstep p (.mk info shape) s
    rw [traverse_mk, preorder_mk, List.foldl_cons, ← haccount]
    rcases hentered : v.enter (some p) (.mk info shape) s with ⟨replacement | info', s'⟩
    · rw [hentered] at hentry
      rw [hskip _ _ hentry.symm]
      rfl
    · rw [hentered] at hentry
      rw [hdescend _ _ hentry.symm, if_pos rfl]
      simp only [hleave]
      exact account_traversePlaces ih s'

/-! ## Visits that keep a log -/

/-- The visitor that acts as `v` does and logs what `log` says on entering each node, in order. -/
def Visitor.logging {α : Type} (v : Visitor σ) (log : Option Place → Node → σ → List α) :
    Visitor (σ × List α) where
  enter place n s := ((v.enter place n s.1).1, (v.enter place n s.1).2, s.2 ++ log place n s.1)
  leave place n s := ((v.leave place n s.1).1, (v.leave place n s.1).2, s.2)

section

variable {α : Type} (v : Visitor σ) (log : Option Place → Node → σ → List α)

/-- What is logged in the visit of `n`. -/
def Node.logged (n : Node) (place : Option Place) (s : σ) : List α :=
  (n.traverse (v.logging log) place (s, [])).2.2

/-- What is logged in the visit of the places `ps`. -/
def loggedPlaces (ps : List (Place × Node)) (s : σ) : List α :=
  (traversePlaces (v.logging log) ps (s, [])).2.2

/-- If logging does not disturb the visit of each of `ps`, it does not disturb that of all. -/
private theorem traversePlaces_logging_of_forall (ps : List (Place × Node))
    (h : ∀ p ∈ ps, ∀ s l, p.2.traverse (v.logging log) (some p.1) (s, l) =
      ((p.2.traverse v (some p.1) s).1, (p.2.traverse v (some p.1) s).2,
        l ++ p.2.logged v log (some p.1) s)) (s : σ) (l : List α) :
    traversePlaces (v.logging log) ps (s, l) =
      ((traversePlaces v ps s).1, (traversePlaces v ps s).2, l ++ loggedPlaces v log ps s) := by
  induction ps generalizing s l with
  | nil => simp only [loggedPlaces, traversePlaces, List.append_nil]
  | cons p rest ih =>
    rw [List.forall_mem_cons] at h
    have hrest := ih h.2
    rw [loggedPlaces]
    simp only [traversePlaces, h.1, List.nil_append]
    rw [hrest, hrest _ (p.2.logged v log (some p.1) s), List.append_assoc]

/-- Logging does not disturb the visit of `n`, and adds `n.logged` to the log. -/
theorem Node.traverse_logging (n : Node) (place : Option Place) (s : σ) (l : List α) :
    n.traverse (v.logging log) place (s, l) =
      ((n.traverse v place s).1, (n.traverse v place s).2, l ++ n.logged v log place s) := by
  induction n using Node.induction generalizing place s l with
  | mk info shape ih =>
    have hplaces : ∀ s l, traversePlaces (v.logging log) shape.places (s, l) =
        ((traversePlaces v shape.places s).1, (traversePlaces v shape.places s).2,
          l ++ loggedPlaces v log shape.places s) := by
      apply traversePlaces_logging_of_forall
      intro p hp s l
      exact ih p.2 (Shape.mem_nodes_of_mem_places hp) (some p.1) s l
    rw [logged, traverse_mk, traverse_mk, traverse_mk]
    rcases henter : v.enter place (.mk info shape) s with ⟨_ | info', s'⟩
    · simp only [Visitor.logging, henter, List.nil_append]
    · simp only [Visitor.logging, henter, List.nil_append] at hplaces ⊢
      simp only [hplaces, List.append_assoc]

/-- In the visit of a node something is logged for the node, and for what is below it unless the
visit does not go there. -/
theorem Node.logged_mk (info : Info) (shape : Shape Node) (place : Option Place) (s : σ) :
    (Node.mk info shape).logged v log place s =
      log place (.mk info shape) s ++
        match v.enter place (.mk info shape) s with
        | (.skip _, _) => []
        | (.descend _, s) => loggedPlaces v log shape.places s := by
  have hplaces := traversePlaces_logging_of_forall v log shape.places
    fun p _ => p.2.traverse_logging v log (some p.1)
  rw [logged, traverse_mk]
  rcases henter : v.enter place (.mk info shape) s with ⟨_ | info', s'⟩
  · simp only [Visitor.logging, henter, List.nil_append, List.append_nil]
  · simp only [Visitor.logging, henter, List.nil_append] at hplaces ⊢
    simp only [hplaces]

@[simp] theorem loggedPlaces_nil (s : σ) : loggedPlaces v log [] s = [] := rfl

theorem loggedPlaces_cons (p : Place × Node) (rest : List (Place × Node)) (s : σ) :
    loggedPlaces v log (p :: rest) s =
      p.2.logged v log (some p.1) s ++
        loggedPlaces v log rest (p.2.traverse v (some p.1) s).2 := by
  have hrest := traversePlaces_logging_of_forall v log rest
    fun p _ => p.2.traverse_logging v log (some p.1)
  rw [loggedPlaces, traversePlaces, p.2.traverse_logging v log]
  simp only [List.nil_append]
  rw [hrest]

end

end

end FlagFold
