/-
  FlagFold.Proofs.Tree.Callbacks

  The order in which a walk enters and leaves the nodes of a tree when some are skipped,
  each perhaps for a node put in its place.  A node is entered unless it stands below one
  that is skipped, and left unless it is skipped itself (`PrunedOrder`); nothing else
  matters, neither what happens beside it nor what was walked over before
  (`Node.walk_choosing`).
-/

import FlagFold.Proofs.Tree.Occurrences
import FlagFold.Proofs.Tree.Walker
import Mathlib.Data.List.Infix
import Mathlib.Data.List.Nodup
import Mathlib.Data.List.Perm.Basic

namespace FlagFold

/-! ## Calls of the visitor -/

/-- What a visitor is called for: the `path` of a `node`, the `place` it is told, and the node. -/
structure Visit where
  path : List Step
  place : Option Place
  node : Node

/-- A call of the visitor. -/
inductive Callback where
  | enter (visit : Visit)
  | leave (visit : Visit)

namespace Callback

def entered? : Callback → Option Visit
  | enter visit => some visit
  | leave _ => none

def left? : Callback → Option Visit
  | enter _ => none
  | leave visit => some visit

/-- The callback as a trace has it. -/
def event : Callback → Event
  | enter visit => .entered visit.node.kind visit.place
  | leave visit => .left visit.node.kind visit.place

end Callback

/-- Which nodes are skipped, and what is put in the place of each: the node itself if nothing is. -/
abbrev Choice := List Step → Node → Option Node

/-- The nodes of the kinds that `skip` picks are skipped, and nothing is put in their place. -/
def Choice.ofKinds (skip : Kind → Bool) : Choice := fun _ n => if skip n.kind then some n else none

/-- The `path` of the node gone into last and not left, and the `calls` until now. -/
structure Account where
  path : List Step := []
  calls : List Callback := []

/-- Skips the nodes that `choose` picks, and keeps an `Account` of all calls. -/
def Visitor.choosing (choose : Choice) : Visitor Account where
  enter place n a :=
    let path := a.path ++ (place.map Place.step).toList
    let calls := a.calls ++ [.enter ⟨path, place, n⟩]
    match choose path n with
    | some replacement => (.skip replacement, { a with calls })
    | none => (.descend n.info, { path, calls })
  leave place n a :=
    (n, { path := a.path.dropLast, calls := a.calls ++ [.leave ⟨a.path, place, n⟩] })

/-! ## The pruned order -/

namespace Node

variable (choose : Choice)

/-- The tree below a path with the chosen nodes replaced. -/
def replaceBy : Node → List Step → Node :=
  foldUp fun info shape path =>
    let n := mk info (shape.map (·.1))
    match choose path n with
    | some replacement => replacement
    | none => mk info (n.shape.refill (shape.places.map fun p => p.2.2 (path ++ [p.1.step])))

theorem replaceBy_mk (info : Info) (shape : Shape Node) (path : List Step) :
    (mk info shape).replaceBy choose path =
      match choose path (mk info shape) with
      | some replacement => replacement
      | none => mk info
          (shape.refill (shape.places.map fun p => p.2.replaceBy choose (path ++ [p.1.step]))) := by
  have hself : (fun p : Node × (List Step → Node) => p.1) ∘ (fun n => (n, n.replaceBy choose)) =
      fun n => n := rfl
  rw [replaceBy, foldUp_mk, ← replaceBy]
  simp only [Shape.map_map, hself, Shape.map_id', Shape.places_map, List.map_map, shape_mk]
  rfl

/-- The calls of a walk that enters a node and, unless it is chosen, goes through the places below
it in their order and leaves it. -/
def callbacks : Node → List Step → Option Place → List Callback :=
  foldUp fun info shape path place =>
    let n := mk info (shape.map (·.1))
    .enter ⟨path, place, n⟩ ::
      match choose path n with
      | some _ => []
      | none =>
        (shape.places.flatMap fun p => p.2.2 (path ++ [p.1.step]) (some p.1)) ++
          [.leave ⟨path, place, n.replaceBy choose path⟩]

theorem callbacks_mk (info : Info) (shape : Shape Node) (path : List Step)
    (place : Option Place) :
    (mk info shape).callbacks choose path place =
      .enter ⟨path, place, mk info shape⟩ ::
        match choose path (mk info shape) with
        | some _ => []
        | none =>
          (shape.places.flatMap fun p => p.2.callbacks choose (path ++ [p.1.step]) (some p.1)) ++
            [.leave ⟨path, place, (mk info shape).replaceBy choose path⟩] := by
  have hself : (fun p : Node × (List Step → Option Place → List Callback) => p.1) ∘
      (fun n => (n, n.callbacks choose)) = fun n => n := rfl
  rw [callbacks, foldUp_mk, ← callbacks]
  simp only [Shape.map_map, hself, Shape.map_id', Shape.places_map, List.flatMap_map]

/-! ### Traversals -/

variable {choose}

/-- If the visit of each of `ps` adds to a `record`, their visits add one after the other. -/
theorem traversePlaces_record {σ α : Type} {v : Visitor σ} {record : List α → σ}
    {node : Place × Node → Node} {added : Place × Node → List α} {ps : List (Place × Node)}
    (h : ∀ p ∈ ps, ∀ items,
      p.2.traverse v (some p.1) (record items) = (node p, record (items ++ added p)))
    (items : List α) :
    traversePlaces v ps (record items) = (ps.map node, record (items ++ ps.flatMap added)) := by
  induction ps generalizing items with
  | nil => simp [traversePlaces]
  | cons p rest ih =>
    rw [List.forall_mem_cons] at h
    simp only [traversePlaces, h.1, ih h.2, List.map_cons, List.flatMap_cons, List.append_assoc]

/-- `traverse` with `choosing` makes the `callbacks`, if the account starts with the path of the
node above. -/
theorem traverse_choosing (n : Node) {place : Option Place} {path above : List Step}
    (hpath : path = above ++ (place.map Place.step).toList) (habove : path.dropLast = above)
    (calls : List Callback) :
    n.traverse (.choosing choose) place ⟨above, calls⟩ =
      (n.replaceBy choose path, ⟨above, calls ++ n.callbacks choose path place⟩) := by
  induction n using Node.induction generalizing place path above calls with
  | mk info shape ih =>
    have hplaces := traversePlaces_record fun (p : Place × Node) (hp : p ∈ shape.places) =>
      have hstep : path ++ [p.1.step] = path ++ ((some p.1).map Place.step).toList := rfl
      ih p.2 (Shape.mem_nodes_of_mem_places hp) hstep List.dropLast_concat
    rw [traverse_mk, replaceBy_mk, callbacks_mk, Visitor.choosing]
    dsimp only
    rw [← hpath, replaceBy_mk]
    cases hchoice : choose path (mk info shape) with
    | some replacement => rfl
    | none =>
      dsimp only [info_mk]
      rw [← Visitor.choosing, hplaces]
      simp only [habove, List.append_assoc, List.cons_append, List.nil_append]

end Node

/-! ## What is entered and what is left -/

/-- No node above `o` is chosen. -/
def Occurrence.isReached (choose : Choice) (o : Occurrence) : Bool :=
  (o.path.inits.zip o.above).all fun (path, n) => (choose path n).isNone

theorem Occurrence.isReached_below (choose : Choice) (step : Step) (n : Node) (o : Occurrence) :
    (o.below step n).isReached choose =
      ((choose [] n).isNone && o.isReached fun path => choose (step :: path)) := by
  rw [isReached, isReached, below, List.inits_cons, List.zip_cons_cons, List.all_cons,
    List.zip_map_left, List.all_map]
  rfl

/-- The visit on leaving the node, with what is chosen below it replaced. -/
def Visit.onLeaving (choose : Choice) (v : Visit) : Visit :=
  { v with node := v.node.replaceBy choose v.path }

/-- The visitor is told where in `root` the node stands: its parent is what the path leads to one
step before, and has the node at the place. -/
inductive Visit.InPlace (root : Node) : Visit → Prop
  | root : InPlace root ⟨[], none, root⟩
  | below {above : List Step} {parent : Node} {p : Place × Node}
      (hparent : root.at? above = some parent) (hp : p ∈ parent.shape.places) :
      InPlace root ⟨above ++ [p.1.step], some p.1, p.2⟩

/-- `calls` are those of a walk that skips just the chosen nodes. -/
structure PrunedOrder (choose : Choice) (root : Node) (calls : List Callback) : Prop where
  /-- The calls for the nodes below one that is gone into come, in the order of the places, between
  those on entering and on leaving it. -/
  balanced : calls = root.callbacks choose [] none
  /-- The nodes entered are those of the tree that do not stand below a chosen one. -/
  entered : (calls.filterMap Callback.entered?).map (fun v => (v.path, v.node)) =
    (root.occurrences.filter (·.isReached choose)).map fun o => (o.path, o.node)
  entered_once : ((calls.filterMap Callback.entered?).map (·.path)).Nodup
  in_place : ∀ v ∈ calls.filterMap Callback.entered?, v.InPlace root
  /-- A node is left, once, if it was entered and is not chosen. -/
  left : (calls.filterMap Callback.left?).Perm
    (((calls.filterMap Callback.entered?).filter fun v => (choose v.path v.node).isNone).map
      (·.onLeaving choose))

/-! ### Places -/

/-- The steps down from a node differ. -/
theorem Shape.nodup_steps {α : Type} (shape : Shape α) :
    (shape.places.map (·.1.step)).Nodup := by
  have hlist : ∀ {parent : Kind} {field : Field} {index : Nat} {ns : List α},
      (listPlaces parent field index ns).map (·.1.step) =
        (List.range' index ns.length).map fun i => ⟨field, some i⟩ := by
    intro parent field index ns
    induction ns generalizing index with
    | nil => rfl
    | cons n rest ih =>
      rw [listPlaces, List.map_cons, ih, List.length_cons, List.range'_succ, List.map_cons]
      rfl
  have hlistNodup : ∀ (field : Field) (count : Nat),
      ((List.range' 0 count).map fun i => (⟨field, some i⟩ : Step)).Nodup := by
    intro field count
    refine List.Nodup.map (fun i j h => ?_) List.nodup_range'
    simpa using h
  have hoption : ∀ {parent : Kind} {field : Field} {o : Option α},
      (optionPlaces parent field o).map (·.1.step) = o.toList.map fun _ => ⟨field, none⟩ := by
    intro parent field o
    cases o <;> rfl
  -- Places of one list differ in their index, others in their field.
  cases shape with
  | identifier | string | boolean | removed => exact List.nodup_nil
  | program | variableDeclaration | template | generic =>
    rw [places, hlist]
    exact hlistNodup _ _
  | expressionStatement o | importDefault o | importNamespace o | importSpecifier _ o =>
    rw [places, hoption]
    cases o <;> simp
  | variableDeclarator o o' | member o o' =>
    rw [places, List.map_append, hoption, hoption]
    cases o <;> cases o' <;> simp
  | importDeclaration _ o | call o =>
    rw [places, List.map_append, hlist, hoption, List.nodup_append]
    refine ⟨?_, ?_, ?_⟩ <;> first | exact hlistNodup _ _ | cases o <;> simp

/-- The paths down to the nodes of a tree differ. -/
theorem Node.nodup_paths (n : Node) : (n.occurrences.map (·.path)).Nodup := by
  induction n using Node.induction with
  | mk info shape ih =>
    rw [occurrences_mk, List.map_cons, List.nodup_cons, List.map_flatMap]
    have hpaths : ∀ p : Place × Node,
        (p.2.occurrences.map (Occurrence.below p.1.step (mk info shape))).map (·.path) =
          (p.2.occurrences.map (·.path)).map (p.1.step :: ·) := by
      intro p
      rw [List.map_map, List.map_map]
      rfl
    simp only [hpaths]
    refine ⟨by simp, List.nodup_flatMap.mpr ⟨fun p hp => ?_, ?_⟩⟩
    · exact (ih p.2 (Shape.mem_nodes_of_mem_places hp)).map List.cons_injective
    · refine (List.pairwise_map.mp shape.nodup_steps).imp fun {p q} hne => ?_
      refine List.disjoint_left.mpr fun path hp hq => ?_
      obtain ⟨_, _, rfl⟩ := List.mem_map.mp hp
      obtain ⟨_, _, heq⟩ := List.mem_map.mp hq
      exact hne (List.cons.inj heq).1.symm

/-! ### The parts of the pruned order -/

namespace Node

variable (choose : Choice)

/-- The visits on entering nodes among the `callbacks`. -/
def enters (n : Node) (path : List Step) (place : Option Place) : List Visit :=
  (n.callbacks choose path place).filterMap Callback.entered?

/-- The visits on leaving nodes among the `callbacks`. -/
def leaves (n : Node) (path : List Step) (place : Option Place) : List Visit :=
  (n.callbacks choose path place).filterMap Callback.left?

theorem enters_mk (info : Info) (shape : Shape Node) (path : List Step) (place : Option Place) :
    (mk info shape).enters choose path place = ⟨path, place, mk info shape⟩ ::
      if (choose path (mk info shape)).isNone then
        shape.places.flatMap fun p => p.2.enters choose (path ++ [p.1.step]) (some p.1)
      else [] := by
  rw [enters, callbacks_mk, List.filterMap_cons]
  dsimp only [Callback.entered?]
  cases choose path (mk info shape) with
  | some replacement => rfl
  | none =>
    dsimp only
    rw [List.filterMap_append, List.filterMap_flatMap]
    exact congrArg _ (List.append_nil _)

theorem leaves_mk (info : Info) (shape : Shape Node) (path : List Step) (place : Option Place) :
    (mk info shape).leaves choose path place =
      if (choose path (mk info shape)).isNone then
        (shape.places.flatMap fun p => p.2.leaves choose (path ++ [p.1.step]) (some p.1)) ++
          [⟨path, place, (mk info shape).replaceBy choose path⟩]
      else [] := by
  rw [leaves, callbacks_mk, List.filterMap_cons]
  dsimp only [Callback.left?]
  cases choose path (mk info shape) with
  | some replacement => rfl
  | none =>
    dsimp only
    rw [List.filterMap_append, List.filterMap_flatMap]
    rfl

theorem leaves_perm (n : Node) (path : List Step) (place : Option Place) :
    (n.leaves choose path place).Perm
      (((n.enters choose path place).filter fun v => (choose v.path v.node).isNone).map
        (·.onLeaving choose)) := by
  induction n using Node.induction generalizing path place with
  | mk info shape ih =>
    rw [leaves_mk, enters_mk, List.filter_cons]
    split
    case isTrue hchoice =>
      rw [List.map_cons, List.filter_flatMap, List.map_flatMap]
      refine (List.perm_append_singleton _ _).trans (List.Perm.cons _ ?_)
      exact List.Perm.flatMap_left _ fun p hp => ih p.2 (Shape.mem_nodes_of_mem_places hp) _ _
    case isFalse => exact .nil

theorem enters_eq (n : Node) (path : List Step) (place : Option Place) :
    (n.enters choose path place).map (fun v => (v.path, v.node)) =
      (n.occurrences.filter (·.isReached fun below => choose (path ++ below))).map fun o =>
        (path ++ o.path, o.node) := by
  induction n using Node.induction generalizing path place with
  | mk info shape ih =>
    rw [enters_mk, occurrences_mk, List.map_cons, List.filter_cons_of_pos (by rfl), List.map_cons]
    -- Whether the node itself is chosen decides for all that is below it.
    have hbelow : ∀ p ∈ shape.places,
        ((p.2.occurrences.map (Occurrence.below p.1.step (mk info shape))).filter
          (·.isReached fun below => choose (path ++ below))).map
            (fun o => (path ++ o.path, o.node)) =
          if (choose path (mk info shape)).isNone then
            (p.2.enters choose (path ++ [p.1.step]) (some p.1)).map fun v => (v.path, v.node)
          else [] := by
      intro p hp
      rw [ih p.2 (Shape.mem_nodes_of_mem_places hp), List.filter_map, List.map_map]
      simp only [Function.comp_def, Occurrence.isReached_below, List.append_nil,
        List.append_assoc, List.cons_append, List.nil_append]
      split
      case isTrue hchoice =>
        simp only [hchoice, Bool.true_and]
        rfl
      case isFalse hchoice => simp [hchoice]
    rw [List.append_nil, List.filter_flatMap, List.map_flatMap, List.flatMap_congr hbelow]
    split
    case isTrue => rw [List.map_flatMap]
    case isFalse => simp

theorem inPlace_of_mem_enters {root n : Node} {path : List Step} {place : Option Place}
    (hpath : root.at? path = some n) (hn : (Visit.mk path place n).InPlace root) :
    ∀ v ∈ n.enters choose path place, v.InPlace root := by
  induction n using Node.induction generalizing path place with
  | mk info shape ih =>
    rw [enters_mk, List.forall_mem_cons]
    refine ⟨hn, fun v hv => ?_⟩
    split at hv
    case isFalse => cases hv
    case isTrue =>
      obtain ⟨p, hp, hv⟩ := List.mem_flatMap.mp hv
      refine ih p.2 (Shape.mem_nodes_of_mem_places hp) ?_ (.below hpath hp) v hv
      rw [at?_append, hpath]
      simp [at?, Shape.at?_step hp]

theorem prunedOrder_callbacks (root : Node) :
    PrunedOrder choose root (root.callbacks choose [] none) := by
  have hentered := root.enters_eq choose [] none
  simp only [List.nil_append] at hentered
  refine ⟨rfl, hentered, ?_, inPlace_of_mem_enters choose rfl .root,
    root.leaves_perm choose [] none⟩
  have hpaths := congrArg (List.map Prod.fst) hentered
  rw [List.map_map, List.map_map] at hpaths
  change (List.map (·.path) (root.enters choose [] none)).Nodup
  exact hpaths ▸ (List.filter_sublist.map _).nodup root.nodup_paths

/-- `walk` with `choosing` over `root` calls the visitor in the `PrunedOrder`, and ends with the
chosen nodes replaced and with the flag down, whichever nodes `earlier` walks of the process have
gone into, if among all these nodes the names of kinds tell the kinds. -/
theorem walk_choosing {earlier : List Node} {table : PartTable} {root : Node}
    (htable : table.FilledFrom earlier) (hnames : NamesTellKinds (earlier ++ root.subnodes))
    (flag : Bool) :
    ∃ (table' : PartTable) (calls : List Callback),
      root.walk (.choosing choose) none ⟨table, flag, {}⟩ =
        .ok (root.replaceBy choose [], ⟨table', false, { calls }⟩) ∧
      PrunedOrder choose root calls ∧ table'.FilledFrom (earlier ++ root.subnodes) := by
  obtain ⟨table', htable', hwalk⟩ := root.followed hnames (List.subset_append_right _ _) table
    (htable.mono (List.subset_append_left _ _)) none flag ({} : Account)
  rw [root.traverse_choosing rfl rfl] at hwalk
  exact ⟨table', _, hwalk, prunedOrder_callbacks choose root, htable'⟩

/-- `f(g(x), y)`, a statement. -/
def nestedCall : Node :=
  .mk {} (.program [.mk {} (.expressionStatement (some (callOf "f"
    [callOf "g" [name "x"], name "y"])))] [])
where
  name (s : String) : Node := .mk {} (.identifier (text s))
  callOf (s : String) (arguments : List Node) : Node :=
    .mk {} (.call (some (name s)) arguments false)

/-- A walk over `nestedCall` in which the inner call is replaced by a truth value, after one over a
call without a callee: the other argument is still entered. -/
theorem walk_choosing_nestedCall :
    let choose : Choice := fun path n =>
      if path.length = 3 && n.kind = .call then some (.makeBoolean true n) else none
    let earlier : List Node := [.mk {} (.call none [] false)]
    (PartTable.after earlier).FilledFrom earlier ∧
      NamesTellKinds (earlier ++ nestedCall.subnodes) ∧
      ∃ (table : PartTable) (calls : List Callback),
        nestedCall.walk (.choosing choose) none ⟨.after earlier, true, {}⟩ =
          .ok (nestedCall.replaceBy choose [], ⟨table, false, { calls }⟩) ∧
        PrunedOrder choose nestedCall calls ∧
        (calls.filterMap Callback.entered?).map (·.node.kind.name) = ["Program",
          "ExpressionStatement", "CallExpression", "Identifier", "CallExpression", "Identifier"] ∧
        (calls.filterMap Callback.left?).map (·.node.kind.name) = ["Identifier", "Identifier",
          "CallExpression", "ExpressionStatement", "Program"] := by
  intro choose earlier
  have htable : (PartTable.after earlier).FilledFrom earlier := ⟨earlier, fun _ h => h, rfl⟩
  have hnames : NamesTellKinds (earlier ++ nestedCall.subnodes) := by decide
  obtain ⟨table, calls, hwalk, horder, -⟩ := walk_choosing choose htable hnames true
  refine ⟨htable, hnames, table, calls, hwalk, horder, ?_, ?_⟩
  · rw [horder.balanced]
    decide +kernel
  · rw [horder.balanced]
    decide +kernel

/-- A construct with one part whose kind has the name of the kind of names. -/
def namesake : Node := .mk {} (.generic "Identifier" [nestedCall.name "b"])

/-- After a walk over a name, which has no members with nodes, the node below its `namesake` is not
found. -/
theorem namesake_hides :
    ¬ ∀ (choose : Choice) (earlier : List Node) (table : PartTable) (root : Node) (flag : Bool),
      table.FilledFrom earlier → ∃ (table' : PartTable) (calls : List Callback),
        root.walk (.choosing choose) none ⟨table, flag, {}⟩ =
          .ok (root.replaceBy choose [], ⟨table', false, { calls }⟩) ∧
        PrunedOrder choose root calls ∧ table'.FilledFrom (earlier ++ root.subnodes) := by
  intro h
  obtain ⟨table', calls, hwalk, horder, -⟩ := h (fun _ _ => none) [nestedCall.name "a"]
    (.after [nestedCall.name "a"]) namesake false ⟨_, List.Subset.refl _, rfl⟩
  have hnames : ((PartTable.after [nestedCall.name "a"]).consult namesake).1 = [] := rfl
  have hentered : (Visitor.choosing fun _ _ => none).enter none namesake {} =
      (.descend {}, { calls := [.enter ⟨[], none, namesake⟩] }) := rfl
  rw [namesake, walk_mk, ← namesake, hentered] at hwalk
  dsimp only at hwalk
  rw [hnames, walkMembers] at hwalk
  have hshort : calls.length = 2 := by
    cases hwalk
    rfl
  have hlong : calls.length = 4 := congrArg List.length horder.balanced
  exact absurd (hshort.symm.trans hlong) (by decide)

/-! ### Traces -/

theorem replaceBy_ofKinds (skip : Kind → Bool) (n : Node) (path : List Step) :
    n.replaceBy (.ofKinds skip) path = n := by
  induction n using Node.induction generalizing path with
  | mk info shape ih =>
    have hnodes : (shape.places.map fun p => p.2.replaceBy (.ofKinds skip) (path ++ [p.1.step])) =
        shape.nodes := by
      rw [← Shape.map_snd_places]
      exact List.map_congr_left fun p hp => ih p.2 (Shape.mem_nodes_of_mem_places hp) _
    rw [replaceBy_mk, hnodes, Shape.refill_nodes, Choice.ofKinds]
    split
    case h_1 replacement hchoice =>
      split at hchoice
      · exact (Option.some.inj hchoice).symm
      · cases hchoice
    case h_2 => rfl

/-- `calls` as they are recorded, last first. -/
def recorded (calls : List Callback) : List Event := (calls.map Callback.event).reverse

/-- `traverse` with `tracing` records the `callbacks` that skip nodes of some kinds. -/
theorem traverse_tracing (skip : Kind → Bool) (n : Node) (path : List Step)
    (place : Option Place) (calls : List Callback) :
    n.traverse (.tracing skip) place (recorded calls) =
      (n, recorded (calls ++ n.callbacks (.ofKinds skip) path place)) := by
  induction n using Node.induction generalizing path place calls with
  | mk info shape ih =>
    have hplaces := traversePlaces_record fun (p : Place × Node) (hp : p ∈ shape.places) =>
      ih p.2 (Shape.mem_nodes_of_mem_places hp) (path ++ [p.1.step]) (some p.1)
    have hentered : Event.entered (mk info shape).kind place :: recorded calls =
        recorded (calls ++ [.enter ⟨path, place, mk info shape⟩]) := by
      simp [recorded, Callback.event]
    rw [traverse_mk, callbacks_mk, replaceBy_ofKinds, Visitor.tracing, Choice.ofKinds]
    dsimp only
    by_cases hskip : skip (mk info shape).kind
    · rw [if_pos hskip, if_pos hskip, hentered]
    · rw [if_neg hskip, if_neg hskip, hentered]
      dsimp only
      rw [← Visitor.tracing, hplaces, Shape.map_snd_places]
      simp [Shape.refill_nodes, recorded, Callback.event]

/-- `trace` of a tree has the `callbacks`, whichever nodes `earlier` walks of the process have gone
into, if among all these nodes the names of kinds tell the kinds. -/
theorem trace_eq_callbacks {earlier : List Node} {table : PartTable} {root : Node}
    (htable : table.FilledFrom earlier) (hnames : NamesTellKinds (earlier ++ root.subnodes))
    (skip : Kind → Bool) :
    ∃ table' : PartTable, table'.FilledFrom (earlier ++ root.subnodes) ∧
      root.trace skip table =
        .ok ((root.callbacks (.ofKinds skip) [] none).map Callback.event, table') := by
  obtain ⟨table', htable', hwalk⟩ := root.followed hnames (List.subset_append_right _ _) table
    (htable.mono (List.subset_append_left _ _)) none false (recorded [])
  refine ⟨table', htable', ?_⟩
  rw [root.traverse_tracing skip [] none, List.nil_append] at hwalk
  have hnone : recorded [] = [] := rfl
  rw [hnone] at hwalk
  rw [trace, hwalk]
  simp only [bind, Except.bind, pure, Except.pure, recorded, List.reverse_reverse]

end Node

end FlagFold
