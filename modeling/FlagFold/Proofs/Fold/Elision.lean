/-
  FlagFold.Proofs.Fold.Elision

  What the traversal that evaluates pragmas makes of a tree, without its state.
  The machine and the comments on their way live through one list of statements
  only: whenever the traversal enters a node other than a statement, and whenever
  it has left any node, the machine is idle and no comment is on its way
  (`Elision.Settled`).  So each list can be read on its own (`elidedItems`), and
  the whole traversal is a recursion over the tree (`Node.elided`).
-/

import FlagFold.Fold.Pragma
import FlagFold.Proofs.Tree.Traversal

namespace FlagFold

/-! ## Reading one statement -/

@[simp] theorem Node.info_withComments (n : Node) (cs : List Comment) :
    (n.withComments cs).info = { n.info with comments := cs } := rfl

/-- `step` does not look at the comments of a statement. -/
@[simp] theorem ElisionState.step_withComments (features : FeatureMap) (state : ElisionState)
    (stmt : Node) (cs : List Comment) :
    state.step features (stmt.withComments cs) = state.step features stmt := rfl

/-- A statement that stays leaves the machine `idle`. -/
theorem ElisionState.step_of_none {features : FeatureMap} {state : ElisionState} {stmt : Node}
    (h : (state.step features stmt).1 = .ok none) : (state.step features stmt).2 = .idle := by
  unfold ElisionState.step at h ⊢
  split at h <;> split at h <;> first | rfl | simp at h

/-! ## The lists and the tree, without the state -/

/-- The items of a list from `index` on, read with the machine and the `carried` comments that the
items before them have left: what stands in their places, and the comments left after the last. Each
item comes with what becomes of it if it stays, given the comments that it takes over. -/
def elidedItems (features : FeatureMap) (parent : Kind) (field : Field) :
    Nat → ElisionState → List Comment → List (Node × (List Comment → Node)) →
      List Node × List Comment
  | _, _, carried, [] => ([], carried)
  | index, machine, carried, (stmt, kept) :: rest =>
    if Place.isStatement ⟨parent, field, some index, rest.length⟩ then
      match machine.step features stmt with
      | (.ok (some v), machine) =>
        let left := carried ++ stmt.comments ++ [⟨v.comment, true⟩]
        -- The last statement of a switch clause keeps its comments.
        let own := if rest.length = 0 && parent.isSwitchClause then left else []
        let passed := if rest.length = 0 && parent.isSwitchClause then [] else left
        let (items, after) := elidedItems features parent field (index + 1) machine passed rest
        ((Node.makeRemoved stmt).withComments own :: items, after)
      | (_, machine) =>
        let (items, after) := elidedItems features parent field (index + 1) machine [] rest
        (kept carried :: items, after)
    else
      let (items, after) := elidedItems features parent field (index + 1) machine carried rest
      (kept [] :: items, after)

/-- A shape with its statements read, if it holds a list of them, and the comments that are left at
the end of the list. -/
def elidedShape (features : FeatureMap) :
    Shape (Node × (List Comment → Node)) → Shape Node × List Comment
  | .program body source =>
    let (items, left) := elidedItems features .program .body 0 .idle [] body
    (.program items source, left)
  | .generic kind children =>
    let (items, left) := elidedItems features (.generic kind) .children 0 .idle [] children
    (.generic kind items, left)
  | shape => (shape.map fun p => p.2 [], [])

/-- A node with all statement lists below it read, given the comments that it takes over. -/
def Node.elided (features : FeatureMap) : Node → List Comment → Node :=
  Node.foldUp fun info shape carried =>
    let (shape, left) := elidedShape features shape
    .mk { info with comments := carried ++ info.comments ++ Comment.atEnd left } shape

theorem Node.elided_mk (features : FeatureMap) (info : Info) (shape : Shape Node)
    (carried : List Comment) :
    (Node.mk info shape).elided features carried =
      let read := elidedShape features (shape.map fun n => (n, n.elided features))
      .mk { info with comments := carried ++ info.comments ++ Comment.atEnd read.2 } read.1 := by
  rw [Node.elided, Node.foldUp_mk]

/-- Without statements `elidedItems` leaves every item as it is, but for what is below it. -/
theorem elidedItems_of_not_isStatement {features : FeatureMap} {parent : Kind} {field : Field}
    (hplace : ∀ index following, ¬ Place.isStatement ⟨parent, field, some index, following⟩)
    (index : Nat) (machine : ElisionState) (carried : List Comment)
    (items : List (Node × (List Comment → Node))) :
    elidedItems features parent field index machine carried items =
      (items.map fun p => p.2 [], carried) := by
  induction items generalizing index with
  | nil => rfl
  | cons item rest ih =>
    simp only [elidedItems, if_neg (hplace _ _), ih, List.map_cons]

/-- All `listPlaces` have the `parent` and the `field` of the list. -/
theorem place_of_mem_listPlaces {α : Type} {parent : Kind} {field : Field} {index : Nat}
    {ns : List α} {p : Place × α} (h : p ∈ listPlaces parent field index ns) :
    p.1.parent = parent ∧ p.1.field = field := by
  induction ns generalizing index with
  | nil => simp [listPlaces] at h
  | cons n rest ih =>
    rw [listPlaces, List.mem_cons] at h
    rcases h with rfl | h
    · exact ⟨rfl, rfl⟩
    · exact ih h

/-- The places of an optional part have no index. -/
theorem place_of_mem_optionPlaces {α : Type} {parent : Kind} {field : Field} {o : Option α}
    {p : Place × α} (h : p ∈ optionPlaces parent field o) : p.1.index = none := by
  cases o with
  | none => simp [optionPlaces] at h
  | some n =>
    rw [optionPlaces, Option.toList_some, List.map_singleton, List.mem_singleton] at h
    rw [h]

/-- Only a shape that is a statement list has places of statements. -/
theorem not_isStatement_of_mem_places {α : Type} {shape : Shape α}
    (hshape : ¬ shape.kind.isStatementList) {p : Place × α} (hp : p ∈ shape.places) :
    ¬ p.1.isStatement := by
  -- Every part is a list or holds at most one node.
  have hlist : ∀ {parent : Kind} {field : Field} {ns : List α}, parent.isStatementList = false →
      p ∈ listPlaces parent field 0 ns → ¬ p.1.isStatement := by
    intro parent field ns hparent h
    rw [Place.isStatement, (place_of_mem_listPlaces h).1]
    cases p.1.index <;> cases parent <;> simp_all [Kind.isStatementList]
  have hoption : ∀ {parent : Kind} {field : Field} {o : Option α},
      p ∈ optionPlaces parent field o → ¬ p.1.isStatement := by
    intro parent field o h
    simp [Place.isStatement, place_of_mem_optionPlaces h]
  cases shape <;> simp only [Shape.places, List.mem_append, List.not_mem_nil] at hp
  case program => exact absurd rfl hshape
  case generic => exact hlist (by simpa [Shape.kind] using hshape) hp
  case variableDeclarator | member => exact hp.elim hoption hoption
  case importDeclaration => exact hp.elim (hlist rfl) hoption
  case call => exact hp.elim hoption (hlist rfl)
  case variableDeclaration | template => exact hlist rfl hp
  all_goals exact hoption hp

/-- `elidedShape` of a shape that is no statement list is its map. -/
theorem elidedShape_of_not_isStatementList {features : FeatureMap}
    {shape : Shape (Node × (List Comment → Node))} (h : ¬ shape.kind.isStatementList) :
    elidedShape features shape = (shape.map fun p => p.2 [], []) := by
  cases shape with
  | program body source => exact absurd rfl h
  | generic kind children =>
    have hplace : ∀ index following,
        ¬ Place.isStatement ⟨.generic kind, .children, some index, following⟩ := by
      intro index following
      simp_all [Shape.kind, Place.isStatement]
    simp only [elidedShape, elidedItems_of_not_isStatement hplace, Shape.map]
  | _ => rfl

@[simp] theorem Node.kind_elided {features : FeatureMap} (n : Node) (cs : List Comment) :
    (n.elided features cs).kind = n.kind := by
  cases n with
  | mk info shape => rw [elided_mk]; cases shape <;> rfl

/-- `elided` of a node that is no statement list gives it the comments `cs` and only changes what is
below it. -/
theorem Node.elided_of_not_isStatementList {features : FeatureMap} {info : Info}
    {shape : Shape Node} (h : ¬ shape.kind.isStatementList) (cs : List Comment) :
    (mk info shape).elided features cs =
      mk { info with comments := cs ++ info.comments } (shape.map (·.elided features [])) := by
  rw [elided_mk, elidedShape_of_not_isStatementList (by rwa [Shape.kind_map])]
  simp only [Shape.map_map, Comment.atEnd, List.map_nil, List.append_nil]
  rfl

/-- What holds of the placeholders for `items` and of what is kept of them holds of all that
`elidedItems` leaves. -/
theorem forall_mem_elidedItems {P : Node → Prop} {features : FeatureMap} {parent : Kind}
    {field : Field} {items : List (Node × (List Comment → Node))}
    (hitems : ∀ item ∈ items, ∀ cs,
      P ((Node.makeRemoved item.1).withComments cs) ∧ P (item.2 cs))
    (index : Nat) (machine : ElisionState) (carried : List Comment) :
    ∀ n ∈ (elidedItems features parent field index machine carried items).1, P n := by
  induction items generalizing index machine carried with
  | nil => simp [elidedItems]
  | cons item rest ih =>
    rw [List.forall_mem_cons] at hitems
    have hrest := ih hitems.2 (index + 1)
    simp only [elidedItems]
    split
    · split
      · exact List.forall_mem_cons.mpr ⟨(hitems.1 _).1, hrest _ _⟩
      · exact List.forall_mem_cons.mpr ⟨(hitems.1 _).2, hrest _ _⟩
    · exact List.forall_mem_cons.mpr ⟨(hitems.1 _).2, hrest _ _⟩

/-- What holds of the placeholders for the children of `n` and of what is kept of them holds of all
children of the elided node. -/
theorem Node.forall_mem_children_elided {P : Node → Prop} {features : FeatureMap} {n : Node}
    (hchildren : ∀ c ∈ n.children, ∀ cs,
      P ((makeRemoved c).withComments cs) ∧ P (c.elided features cs)) (cs : List Comment) :
    ∀ c ∈ (n.elided features cs).children, P c := by
  cases n with
  | mk info shape =>
    have hitems : ∀ item ∈ shape.nodes.map fun n => (n, n.elided features), ∀ cs,
        P ((makeRemoved item.1).withComments cs) ∧ P (item.2 cs) :=
      List.forall_mem_map.mpr hchildren
    by_cases hlist : shape.kind.isStatementList
    · rw [elided_mk]
      cases shape with
      | program | generic => exact forall_mem_elidedItems hitems 0 .idle []
      | _ => simp [Shape.kind, Kind.isStatementList] at hlist
    · rw [elided_of_not_isStatementList hlist, children_mk, Shape.nodes_map, List.forall_mem_map]
      exact fun c hc => (hchildren c hc []).2

/-! ## The state between statements -/

namespace Elision

/-- The state in which every node that is no statement is entered, and every node is left: no
`fault`, an idle `machine`, and no comments `carried`. -/
structure Settled (s : Elision) : Prop where
  fault : s.fault = none
  machine : s.machine = .idle
  carried : s.carried = []

/-- After a fault `traverse` changes nothing. -/
theorem traverse_of_fault {features : FeatureMap} {s : Elision} (h : s.fault.isSome)
    (place : Option Place) (n : Node) : n.traverse (visitor features) place s = (n, s) := by
  cases n with
  | mk info shape => simp only [Node.traverse_mk, visitor, h, if_true]

/-- After a fault `traversePlaces` changes nothing. -/
theorem traversePlaces_of_fault {features : FeatureMap} {s : Elision} (h : s.fault.isSome)
    (ps : List (Place × Node)) :
    traversePlaces (visitor features) ps s = (ps.map (·.2), s) := by
  induction ps with
  | nil => rfl
  | cons p rest ih => simp only [traversePlaces, traverse_of_fault h, ih, List.map_cons]

/-- After a fault `leave` changes nothing. -/
theorem leave_of_fault {features : FeatureMap} {s : Elision} (h : s.fault.isSome)
    (place : Option Place) (n : Node) : (visitor features).leave place n s = (n, s) := by
  have hnone : s.fault.isNone = false := by simpa using h
  simp only [visitor, hnone, Bool.false_and, Bool.false_eq_true, if_false]

/-- The outcomes of `enterStatement`: a fault, a placeholder with its record, or a statement that
stays. -/
theorem enterStatement_cases (features : FeatureMap) (p : Place) (stmt : Node) (s : Elision) :
    (enterStatement features p stmt s).2.fault.isSome ∨
    (∃ v machine, s.machine.step features stmt = (.ok (some v), machine) ∧
      ∃ notes, enterStatement features p stmt s =
        let left := s.carried ++ stmt.comments ++ [⟨v.comment, true⟩]
        let last := p.following = 0 && p.parent.isSwitchClause
        (.skip ((Node.makeRemoved stmt).withComments (if last then left else [])),
          { s with carried := if last then [] else left, machine, notes })) ∨
    (s.machine.step features stmt = (.ok none, .idle) ∧
      ∃ after, enterStatement features p stmt s =
        (.descend { stmt.info with comments := s.carried ++ stmt.comments }, after) ∧
        after.Settled) := by
  rcases hstep : s.machine.step features stmt with ⟨verdict, machine⟩
  unfold enterStatement
  simp only [ElisionState.step_withComments, hstep]
  cases verdict with
  | error fault => exact .inl rfl
  | ok verdict =>
    cases verdict with
    | some v =>
      refine .inr (.inl ⟨v, machine, rfl, (v.note? stmt.info.line).toList ++ s.notes, ?_⟩)
      by_cases hlast : (p.following = 0 && p.parent.isSwitchClause) = true
      · simp only [hlast, if_true]
        rfl
      · simp only [hlast, Bool.false_eq_true, if_false]
        rfl
    | none =>
      have hidle : machine = .idle := by
        have h : (s.machine.step features stmt).2 = .idle :=
          ElisionState.step_of_none (by rw [hstep])
        rwa [hstep] at h
      subst hidle
      -- Binding names keeps the machine and the comments, and may end in a fault.
      set s' := (if p.parent = .program then
        bindFrom { s with machine := .idle, carried := [] }
          (stmt.withComments (s.carried ++ stmt.comments))
        else { s with machine := .idle, carried := [] }) with hs'
      have hkeeps : s'.machine = .idle ∧ s'.carried = [] := by
        rw [hs']
        split
        · unfold bindFrom
          split
          split <;> exact ⟨rfl, rfl⟩
        · exact ⟨rfl, rfl⟩
      cases hfault : s'.fault with
      | some fault => exact .inl (by simp [hfault])
      | none =>
        refine .inr (.inr ⟨rfl, s', ?_, hfault, hkeeps.1, hkeeps.2⟩)
        simp

/-! ## The visits -/

/-- `leave` of a node whose places have been visited gives it the comments on their way, and leaves
a settled state. -/
theorem leave_settled (features : FeatureMap) (place : Option Place) (info : Info)
    (shape : Shape Node) {s : Elision} (hfault : s.fault = none)
    (hkeeps : ¬ shape.kind.isStatementList → s.Settled) :
    let after := (visitor features).leave place (.mk info shape) s
    after.1 = .mk { info with comments := info.comments ++ Comment.atEnd s.carried } shape ∧
      after.2.Settled := by
  by_cases hlist : shape.kind.isStatementList
  · simp only [visitor, hfault, Node.kind, Node.shape_mk, hlist, Option.isNone_none,
      Bool.and_self, if_true]
    exact ⟨rfl, rfl, rfl, rfl⟩
  · have hs := hkeeps hlist
    have hleave : (visitor features).leave place (.mk info shape) s = (.mk info shape, s) := by
      simp only [visitor, Node.kind, Node.shape_mk, hlist, Bool.and_false, Bool.false_eq_true,
        if_false]
    simp only [hleave, hs.carried, Comment.atEnd, List.map_nil, List.append_nil, hs, and_self]

/-- The visit below `n` from a settled state: it leaves `n.elided`, and a settled state again,
unless there was a fault. -/
def Elided (features : FeatureMap) (n : Node) : Prop :=
  ∀ (place : Option Place) (carried : List Comment) (s : Elision), s.Settled →
    let visited := traversePlaces (visitor features) n.shape.places s
    let after := (visitor features).leave place
      (.mk { n.info with comments := carried ++ n.info.comments }
        (n.shape.refill visited.1)) visited.2
    after.2.fault.isSome ∨ after.1 = n.elided features carried ∧ after.2.Settled

/-- The visit of a node that is no statement, from a settled state. -/
theorem traverse_of_not_isStatement {features : FeatureMap} (place : Option Place) {n : Node}
    {s : Elision} (hn : Elided features n) (hs : s.Settled)
    (hplace : ∀ p, place = some p → ¬ p.isStatement) :
    let visited := n.traverse (visitor features) place s
    visited.2.fault.isSome ∨ visited.1 = n.elided features [] ∧ visited.2.Settled := by
  cases n with
  | mk info shape =>
    have henter : (visitor features).enter place (.mk info shape) s = (.descend info, s) := by
      simp only [visitor, hs.fault, Option.isSome_none, Bool.false_eq_true, if_false]
      cases place with
      | none => rfl
      | some p => simp only [if_neg (hplace p rfl), Node.info_mk]
    simp only [Node.traverse_mk, henter]
    exact hn place [] s hs

/-- The visit of a statement: the machine takes its step, and what is below it is visited if it
stays. -/
theorem traverse_of_isStatement {features : FeatureMap} {p : Place} {n : Node} {s : Elision}
    (hn : Elided features n) (hs : s.fault = none) (hplace : p.isStatement) :
    let visited := n.traverse (visitor features) (some p) s
    visited.2.fault.isSome ∨
    (∃ v machine, s.machine.step features n = (.ok (some v), machine) ∧
      let left := s.carried ++ n.comments ++ [⟨v.comment, true⟩]
      let last := p.following = 0 && p.parent.isSwitchClause
      visited.1 = (Node.makeRemoved n).withComments (if last then left else []) ∧
        visited.2.fault = none ∧ visited.2.machine = machine ∧
        visited.2.carried = if last then [] else left) ∨
    (s.machine.step features n = (.ok none, .idle) ∧
      visited.1 = n.elided features s.carried ∧ visited.2.Settled) := by
  cases n with
  | mk info shape =>
    have henter : (visitor features).enter (some p) (.mk info shape) s =
        enterStatement features p (.mk info shape) s := by
      simp only [visitor, hs, Option.isSome_none, Bool.false_eq_true, if_false, hplace, if_true]
    simp only [Node.traverse_mk, henter]
    obtain hfault | ⟨v, machine, hstep, notes, hskip⟩ | ⟨hstep, after, hdescend, hafter⟩ :=
      enterStatement_cases features p (.mk info shape) s
    · -- After a fault the nodes below are visited in vain.
      left
      rcases henter' : enterStatement features p (.mk info shape) s with ⟨entry, after⟩
      rw [henter'] at hfault
      cases entry with
      | skip replacement => exact hfault
      | descend info' =>
        simpa only [traversePlaces_of_fault hfault, leave_of_fault hfault] using hfault
    · right; left
      rw [hskip]
      exact ⟨v, machine, hstep, rfl, hs, rfl, rfl⟩
    · rw [hdescend]
      rcases hn (some p) s.carried after hafter with hfault | hkept
      · exact .inl hfault
      · exact .inr (.inr ⟨hstep, hkept⟩)

/-- The visit of places none of which is that of a statement, from a settled state. -/
theorem traversePlaces_of_not_isStatement {features : FeatureMap} {ps : List (Place × Node)}
    {s : Elision} (hn : ∀ p ∈ ps, Elided features p.2) (hs : s.Settled)
    (hplace : ∀ p ∈ ps, ¬ p.1.isStatement) :
    let visited := traversePlaces (visitor features) ps s
    visited.2.fault.isSome ∨
      visited.1 = (ps.map (·.2)).map (·.elided features []) ∧ visited.2.Settled := by
  induction ps generalizing s with
  | nil => exact .inr ⟨rfl, hs⟩
  | cons p rest ih =>
    simp only [List.forall_mem_cons] at hn hplace
    simp only [traversePlaces, List.map_cons]
    rcases traverse_of_not_isStatement (some p.1) hn.1 hs
      (by rintro _ ⟨⟩; exact hplace.1) with hfault | ⟨hnode, hsettled⟩
    · exact .inl (by simpa only [traversePlaces_of_fault hfault] using hfault)
    · rcases ih hn.2 hsettled hplace.2 with hfault | ⟨hrest, hafter⟩
      · exact .inl hfault
      · exact .inr ⟨by rw [hnode, hrest], hafter⟩

/-- Behind a statement of a list there are only statements. -/
theorem isStatement_succ {parent : Kind} {field : Field} {index following : Nat}
    (h : Place.isStatement ⟨parent, field, some index, following⟩) (following' : Nat) :
    Place.isStatement ⟨parent, field, some (index + 1), following'⟩ := by
  cases parent <;> simp_all [Place.isStatement]

/-- The visit of a list leaves what `elidedItems` says. Before its first statement the state is
settled, and from there on the machine and the comments on their way are those that the statements
before have left. -/
theorem traversePlaces_listPlaces {features : FeatureMap} (parent : Kind) (field : Field)
    {items : List Node} (index : Nat) {s : Elision} (hn : ∀ n ∈ items, Elided features n)
    (hs : s.fault = none)
    (hbefore : (∀ k, ¬ Place.isStatement ⟨parent, field, some index, k⟩) → s.Settled) :
    let visited := traversePlaces (visitor features) (listPlaces parent field index items) s
    visited.2.fault.isSome ∨
      visited.2.fault = none ∧
      (visited.1, visited.2.carried) = elidedItems features parent field index s.machine
        s.carried (items.map fun n => (n, n.elided features)) := by
  induction items generalizing index s with
  | nil => exact .inr ⟨hs, rfl⟩
  | cons n rest ih =>
    simp only [List.forall_mem_cons] at hn
    simp only [listPlaces, traversePlaces, List.map_cons, elidedItems, List.length_map]
    by_cases hplace : Place.isStatement ⟨parent, field, some index, rest.length⟩
    · have hvisit := traverse_of_isStatement hn.1 hs hplace
      -- Behind a statement nothing is asked of the state.
      have hnext : ¬ ∀ k, ¬ Place.isStatement ⟨parent, field, some (index + 1), k⟩ :=
        fun h => h 0 (isStatement_succ hplace 0)
      generalize n.traverse (visitor features) _ s = visited at hvisit ⊢
      obtain ⟨n', s'⟩ := visited
      rw [if_pos hplace]
      rcases hvisit with
        hfault | ⟨v, machine, hstep, rfl, hfault, rfl, hcarried⟩ | ⟨hstep, rfl, hafter⟩
      · exact .inl (by simpa only [traversePlaces_of_fault hfault] using hfault)
      · rcases ih _ hn.2 hfault (fun h => absurd h hnext) with hfault' | ⟨hfault', heq⟩
        · exact .inl hfault'
        · refine .inr ⟨hfault', ?_⟩
          simp only [hstep, ← hcarried, ← heq]
      · rcases ih _ hn.2 hafter.fault (fun h => absurd h hnext) with hfault' | ⟨hfault', heq⟩
        · exact .inl hfault'
        · refine .inr ⟨hfault', ?_⟩
          rw [hafter.carried, hafter.machine] at heq
          simp only [hstep, ← heq]
    · -- No statement has come yet, or this would be one.
      have hsettled : s.Settled := hbefore fun k => hplace
      have hvisit := traverse_of_not_isStatement (some ⟨parent, field, some index, rest.length⟩)
        hn.1 hsettled (by rintro _ ⟨⟩; exact hplace)
      generalize n.traverse (visitor features) _ s = visited at hvisit ⊢
      obtain ⟨n', s'⟩ := visited
      rw [if_neg hplace]
      rcases hvisit with hfault | ⟨rfl, hafter⟩
      · exact .inl (by simpa only [traversePlaces_of_fault hfault] using hfault)
      · rcases ih _ hn.2 hafter.fault (fun _ => hafter) with hfault' | ⟨hfault', heq⟩
        · exact .inl hfault'
        · refine .inr ⟨hfault', ?_⟩
          rw [hafter.carried, hafter.machine] at heq
          simp only [hsettled.carried, hsettled.machine, ← heq]

/-- The visit of a statement list from its start, and leaving it. -/
theorem leave_list {features : FeatureMap} (place : Option Place) (info : Info)
    (shape : Shape Node) (parent : Kind) (field : Field) (items : List Node) {s : Elision}
    (hn : ∀ n ∈ items, Elided features n) (hs : s.Settled)
    (hshape : shape.kind.isStatementList) :
    let visited := traversePlaces (visitor features) (listPlaces parent field 0 items) s
    let read := elidedItems features parent field 0 .idle []
      (items.map fun n => (n, n.elided features))
    let after := (visitor features).leave place (.mk info shape) visited.2
    after.2.fault.isSome ∨ visited.1 = read.1 ∧
      after.1 = .mk { info with comments := info.comments ++ Comment.atEnd read.2 } shape ∧
      after.2.Settled := by
  rcases traversePlaces_listPlaces parent field 0 hn hs.fault fun _ => hs with
    hfault | ⟨hfault, heq⟩
  · exact .inl (by rwa [leave_of_fault hfault])
  · have hleave := leave_settled features place info shape hfault
      fun h => absurd hshape h
    rw [hs.machine, hs.carried] at heq
    have hcarried := congrArg Prod.snd heq
    refine .inr ⟨congrArg Prod.fst heq, ?_, hleave.2⟩
    rw [hleave.1, ← hcarried]

/-- Every node is `Elided`; by induction on the tree. -/
theorem elided (features : FeatureMap) (n : Node) : Elided features n := by
  induction n using Node.induction with
  | mk info shape ih =>
    intro place carried s hs
    simp only [Node.info_mk, Node.shape_mk, Node.elided_mk]
    by_cases hlist : shape.kind.isStatementList
    · cases shape with
      | program body source =>
        rcases leave_list place { info with comments := carried ++ info.comments }
          (.program (traversePlaces (visitor features) (listPlaces .program .body 0 body) s).1
            source)
          .program .body body ih hs rfl with hfault | ⟨hitems, hnode, hsettled⟩
        · exact .inl hfault
        · refine .inr ⟨hnode.trans ?_, hsettled⟩
          simp only [Shape.map, elidedShape, hitems]
      | generic kind children =>
        rcases leave_list place { info with comments := carried ++ info.comments }
          (.generic kind (traversePlaces (visitor features)
            (listPlaces (.generic kind) .children 0 children) s).1)
          (.generic kind) .children children ih hs hlist with hfault | ⟨hitems, hnode, hsettled⟩
        · exact .inl hfault
        · refine .inr ⟨hnode.trans ?_, hsettled⟩
          simp only [Shape.map, elidedShape, hitems]
      | _ => simp [Shape.kind, Kind.isStatementList] at hlist
    · -- None of the places below is that of a statement, so they are visited in settled states.
      have hshape : ¬ (shape.map fun n => (n, n.elided features)).kind.isStatementList := by
        rwa [Shape.kind_map]
      have hplaces : ∀ p ∈ shape.places, Elided features p.2 := by
        intro p hp
        exact ih p.2 (Shape.mem_nodes_of_mem_places hp)
      rcases traversePlaces_of_not_isStatement hplaces hs
        (fun p hp => not_isStatement_of_mem_places hlist hp) with hfault | ⟨heq, hsettled⟩
      · exact .inl (by rwa [leave_of_fault hfault])
      · have hleave := leave_settled features place
          { info with comments := carried ++ info.comments } (shape.map (·.elided features []))
          hsettled.fault fun _ => hsettled
        simp only [heq, Shape.map_snd_places, Shape.refill_map,
          elidedShape_of_not_isStatementList hshape, Shape.map_map]
        rw [hsettled.carried] at hleave
        exact .inr hleave

end Elision

/-- Unless it meets a fault, `elide` makes of `program` what `elided` says. -/
theorem Node.elide_eq_elided {program : Node} {features : FeatureMap} {binding : Binding}
    (h : (program.elide features binding).2.fault = none) :
    (program.elide features binding).1 = program.elided features [] := by
  have hs : Elision.Settled { binding } := ⟨rfl, rfl, rfl⟩
  rcases Elision.traverse_of_not_isStatement none (Elision.elided features program) hs
    (by simp) with hfault | ⟨heq, -⟩
  · rw [elide] at h
    simp [h] at hfault
  · exact heq

end FlagFold
