/-
  FlagFold.Proofs.Tree.Occurrences

  The nodes of a tree with where they stand: the path down to a node and the nodes
  above it.  One node may stand in several places; what a pass makes of it there is
  said of the occurrence.
-/

import FlagFold.Proofs.Tree.Traversal
import FlagFold.Tree.Path

namespace FlagFold

/-! ## Steps to places -/

/-- The step down to the place `p`. -/
def Place.step (p : Place) : Step := ⟨p.field, p.index⟩

theorem listPlaces_map {α β : Type} (f : α → β) (parent : Kind) (field : Field) (index : Nat)
    (ns : List α) : listPlaces parent field index (ns.map f) =
      (listPlaces parent field index ns).map fun p => (p.1, f p.2) := by
  induction ns generalizing index with
  | nil => rfl
  | cons n rest ih => simp only [List.map_cons, listPlaces, ih, List.length_map]

theorem optionPlaces_map {α β : Type} (f : α → β) (parent : Kind) (field : Field) (o : Option α) :
    optionPlaces parent field (o.map f) =
      (optionPlaces parent field o).map fun p => (p.1, f p.2) := by
  cases o <;> rfl

theorem getElem?_of_mem_listPlaces {α : Type} {parent : Kind} {field : Field} {index : Nat}
    {ns : List α} {p : Place × α} (h : p ∈ listPlaces parent field index ns) :
    p.1.field = field ∧ ∃ i, p.1.index = some (index + i) ∧ ns[i]? = some p.2 := by
  induction ns generalizing index with
  | nil => simp [listPlaces] at h
  | cons n rest ih =>
    rw [listPlaces, List.mem_cons] at h
    rcases h with rfl | h
    · exact ⟨rfl, 0, rfl, rfl⟩
    · obtain ⟨hfield, i, hindex, hi⟩ := ih h
      exact ⟨hfield, i + 1, by rw [hindex]; congr 1; omega, hi⟩

theorem eq_some_of_mem_optionPlaces {α : Type} {parent : Kind} {field : Field} {o : Option α}
    {p : Place × α} (h : p ∈ optionPlaces parent field o) :
    p.1.field = field ∧ p.1.index = none ∧ o = some p.2 := by
  cases o with
  | none => simp [optionPlaces] at h
  | some n =>
    rw [optionPlaces, Option.toList_some, List.map_singleton, List.mem_singleton] at h
    rw [h]
    exact ⟨rfl, rfl, rfl⟩

namespace Shape

variable {α β : Type}

theorem places_map (f : α → β) (s : Shape α) :
    (s.map f).places = s.places.map fun p => (p.1, f p.2) := by
  cases s <;> simp [map, places, listPlaces_map, optionPlaces_map]

/-- `at?` of a mapped shape is the mapped node. -/
theorem at?_map (f : α → β) (step : Step) (s : Shape α) :
    (s.map f).at? step = (s.at? step).map f := by
  obtain ⟨field, _ | i⟩ := step
  · cases s <;> cases field <;> rfl
  · cases s <;> cases field <;> first | rfl | simp [at?, map, list?]

/-- The step down to a place leads to the node there. -/
theorem at?_step {s : Shape α} {p : Place × α} (h : p ∈ s.places) :
    s.at? p.1.step = some p.2 := by
  have hlist : ∀ {parent : Kind} {field : Field} {ns : List α},
      p ∈ listPlaces parent field 0 ns → s.list? field = some ns →
        s.at? p.1.step = some p.2 := by
    intro parent field ns hp hs
    obtain ⟨hfield, i, hindex, hi⟩ := getElem?_of_mem_listPlaces hp
    simp only [Place.step, at?, hfield, hindex, hs, Option.bind_some, Nat.zero_add, hi]
  have hoption : ∀ {parent : Kind} {field : Field} {o : Option α},
      p ∈ optionPlaces parent field o → s.node? field = o → s.at? p.1.step = some p.2 := by
    intro parent field o hp hs
    obtain ⟨hfield, hindex, ho⟩ := eq_some_of_mem_optionPlaces hp
    simp only [Place.step, at?, hfield, hindex, hs, ho]
  cases s <;> simp only [places, List.mem_append, List.not_mem_nil] at h
  case variableDeclarator | member => exact h.elim (hoption · rfl) (hoption · rfl)
  case importDeclaration => exact h.elim (hlist · rfl) (hoption · rfl)
  case call => exact h.elim (hoption · rfl) (hlist · rfl)
  case program | generic | variableDeclaration | template => exact hlist h rfl
  all_goals exact hoption h rfl

end Shape

/-! ## Occurrences -/

/-- A `node` at its place in a tree. -/
structure Occurrence where
  /-- The way down from the root. -/
  path : List Step
  /-- The nodes above it, from the root on. -/
  above : List Node
  node : Node

/-- `o` seen from `n`, one `step` above its root. -/
def Occurrence.below (step : Step) (n : Node) (o : Occurrence) : Occurrence :=
  ⟨step :: o.path, n :: o.above, o.node⟩

namespace Node

/-- All occurrences of nodes in a tree, each before those below it. -/
def occurrences : Node → List Occurrence :=
  foldUp fun info shape =>
    let n := mk info (shape.map (·.1))
    ⟨[], [], n⟩ :: shape.places.flatMap fun p => p.2.2.map (Occurrence.below p.1.step n)

theorem occurrences_mk (info : Info) (shape : Shape Node) :
    (mk info shape).occurrences = ⟨[], [], mk info shape⟩ ::
      shape.places.flatMap fun p =>
        p.2.occurrences.map (Occurrence.below p.1.step (mk info shape)) := by
  have hself : (fun p : Node × List Occurrence => p.1) ∘ (fun n => (n, n.occurrences)) =
      fun n => n := rfl
  rw [occurrences, foldUp_mk, ← occurrences]
  simp only [Shape.map_map, hself, Shape.map_id', Shape.places_map, List.flatMap_map]

/-- `path ++ path'` leads on by `path'` from where `path` leads. -/
theorem at?_append (path path' : List Step) (n : Node) :
    n.at? (path ++ path') = (n.at? path).bind (at? path') := by
  induction path generalizing n with
  | nil => rfl
  | cons step rest ih =>
    rw [List.cons_append, at?, at?, Option.bind_assoc]
    exact congrArg _ (funext fun c => ih c)

/-- The path of an occurrence in `n` leads to its node. -/
theorem at?_path {n : Node} {o : Occurrence} (h : o ∈ n.occurrences) :
    n.at? o.path = some o.node := by
  induction n using Node.induction generalizing o with
  | mk info shape ih =>
    rw [occurrences_mk, List.mem_cons] at h
    rcases h with rfl | h
    · rfl
    · obtain ⟨p, hp, h⟩ := List.mem_flatMap.mp h
      obtain ⟨o, ho, rfl⟩ := List.mem_map.mp h
      have hmem := Shape.mem_nodes_of_mem_places hp
      simp only [Occurrence.below, at?, shape_mk, Shape.at?_step hp, Option.bind_some]
      exact ih p.2 hmem ho

/-- The occurrences below nodes that all satisfy `enter` are those of the walk `preorder enter`, in
its order. -/
theorem map_node_filter_occurrences (enter : Node → Bool) (n : Node) :
    (n.occurrences.filter (·.above.all enter)).map (·.node) = n.preorder enter := by
  induction n using Node.induction with
  | mk info shape ih =>
    have hbelow : ∀ p ∈ shape.places, ((p.2.occurrences.map
        (Occurrence.below p.1.step (mk info shape))).filter (·.above.all enter)).map (·.node) =
        if enter (mk info shape) then p.2.preorder enter else [] := by
      intro p hp
      have hmem := Shape.mem_nodes_of_mem_places hp
      rw [List.filter_map, List.map_map, ← ih p.2 hmem]
      split
      case isTrue henter => simp [Function.comp_def, Occurrence.below, henter]
      case isFalse henter => simp [Function.comp_def, Occurrence.below, henter]
    have hplaces : shape.nodes = shape.places.map (·.2) := (Shape.map_snd_places shape).symm
    rw [occurrences_mk, preorder_mk, List.filter_cons_of_pos (by rfl), List.map_cons,
      List.filter_flatMap, List.map_flatMap, List.flatMap_congr hbelow, hplaces]
    split
    case isTrue => rw [List.flatMap_map]
    case isFalse => rw [List.flatMap_eq_nil_iff.mpr fun _ _ => rfl]

end Node
end FlagFold
