/-
  FlagFold.Proofs.Tree.Walker

  Walks are traversals.  A walk takes the members in which it looks for nodes from a table
  that earlier walks have filled, and has one flag for all nodes.  As long as the names of
  kinds tell the kinds, the table has for a node the members of that node, whichever nodes
  it was filled from (`PartTable.FilledFrom.consult`), and the flag is down whenever a node
  is come to; so whatever the visitor does, the walk is the traversal of the tree
  (`Node.followed`).
-/

import FlagFold.Proofs.Tree.Traversal
import FlagFold.Tree.Walker
import Mathlib.Data.List.Induction

namespace FlagFold

/-! ## The table -/

namespace Kind

/-- The names of the members in which a walk looks for the nodes below a node of this kind. -/
def partNames : Kind → List String
  | program => ["body"]
  | expressionStatement => ["expression"]
  | variableDeclaration => ["declarations"]
  | variableDeclarator => ["id", "init"]
  | importDeclaration => ["specifiers", "source"]
  | importDefault | importNamespace | importSpecifier => ["local"]
  | call => ["callee", "arguments"]
  | member => ["object", "property"]
  | template => ["quasis", "expressions"]
  | identifier | string | boolean | removed => []
  | generic _ => ["children"]

end Kind

/-- `partNames` of a shape depends on its kind only: members that may hold a node count as parts
even when they hold none. -/
theorem Shape.partNames_eq {α : Type} (shape : Shape α) :
    shape.partNames = shape.kind.partNames := by
  cases shape <;> rfl

/-- The nodes that a member holds. -/
def Held.contents {α : Type} : Held α → List α
  | node _ o => o.toList
  | nodes _ ns => ns
  | items | value => []

namespace Shape

variable {α : Type} {shape : Shape α} {name : String}

/-- The nodes of a shape are those that its members hold. -/
theorem nodes_eq_contents (shape : Shape α) :
    shape.nodes = shape.members.flatMap (·.2.contents) := by
  cases shape <;> simp [nodes, members, commonMembers, ownMembers, ownMembers.node,
    ownMembers.nodes, Held.contents]

theorem mem_nodes_of_lookup {held : Held α} (h : shape.members.lookup name = some held) {n : α}
    (hn : n ∈ held.contents) : n ∈ shape.nodes := by
  rw [nodes_eq_contents]
  exact List.mem_flatMap.mpr ⟨_, mem_members_of_lookup h, hn⟩

/-- A shape has each member of its `partNames`. -/
theorem lookup_ne_none_of_mem_partNames (h : name ∈ shape.partNames) :
    shape.members.lookup name ≠ none := by
  obtain ⟨p, hp, rfl⟩ := List.mem_map.mp h
  intro hnone
  have hne := List.lookup_eq_none_iff.mp hnone p (List.mem_filter.mp hp).1
  simp at hne

end Shape

/-- Nodes of `ns` whose kinds have the same name are of the same kind. -/
def NamesTellKinds (ns : List Node) : Prop :=
  ∀ n ∈ ns, ∀ m ∈ ns, n.kind.name = m.kind.name → n.kind = m.kind

instance (ns : List Node) : Decidable (NamesTellKinds ns) :=
  inferInstanceAs (Decidable (∀ n ∈ ns, ∀ m ∈ ns, _ → _))

namespace PartTable

/-- The table after the nodes `seen` were gone into. -/
def after (seen : List Node) : PartTable := seen.foldl (fun table n => (table.consult n).2) []

theorem after_append_singleton (seen : List Node) (n : Node) :
    after (seen ++ [n]) = ((after seen).consult n).2 := by
  rw [after, List.foldl_append, ← after, List.foldl_cons, List.foldl_nil]

/-- The table has the names from the first node of a kind. -/
theorem lookup_after (seen : List Node) (name : String) :
    (after seen).lookup name =
      (seen.find? (·.kind.name = name)).map (·.shape.partNames) := by
  induction seen using List.reverseRecOn generalizing name with
  | nil => rfl
  | append_singleton seen n ih =>
    rw [after_append_singleton, consult, List.find?_append]
    -- The last node counts only where none before it has a kind of its name.
    have hn := ih n.kind.name
    cases hfind : seen.find? (·.kind.name = n.kind.name) with
    | some m =>
      rw [hfind] at hn
      rw [hn]
      dsimp only [Option.map_some]
      rw [ih name]
      by_cases hname : n.kind.name = name
      · rw [← hname, hfind, Option.some_or]
      · rw [List.find?_singleton, if_neg (by simpa using hname), Option.or_none]
    | none =>
      rw [hfind] at hn
      rw [hn]
      dsimp only [Option.map_none]
      rw [List.lookup_cons, List.find?_singleton]
      by_cases hname : n.kind.name = name
      · subst hname
        rw [hfind]
        simp
      · rw [if_neg (by simpa using hname), Option.or_none, ← ih name,
          beq_false_of_ne (Ne.symm hname)]

/-- The table comes from some nodes of `all` being gone into, in any order. -/
def FilledFrom (all : List Node) (table : PartTable) : Prop := ∃ seen ⊆ all, table = after seen

theorem FilledFrom.mono {all all' : List Node} {table : PartTable} (h : table.FilledFrom all)
    (hsubset : all ⊆ all') : table.FilledFrom all' := by
  obtain ⟨seen, hseen, rfl⟩ := h
  exact ⟨seen, List.Subset.trans hseen hsubset, rfl⟩

/-- If the names of kinds tell the kinds, `consult` gives for a node the members of that node,
whatever the table was filled from. -/
theorem FilledFrom.consult {all : List Node} {table : PartTable} (h : table.FilledFrom all)
    (hall : NamesTellKinds all) {n : Node} (hn : n ∈ all) :
    (table.consult n).1 = n.shape.partNames ∧ (table.consult n).2.FilledFrom all := by
  obtain ⟨seen, hseen, rfl⟩ := h
  constructor
  · rw [PartTable.consult, lookup_after]
    cases hfind : seen.find? (·.kind.name = n.kind.name) with
    | none => rfl
    | some m =>
      have hname : m.kind.name = n.kind.name := by simpa using List.find?_some hfind
      have hkind := hall m (hseen (List.mem_of_find?_eq_some hfind)) n hn hname
      change m.shape.partNames = n.shape.partNames
      rw [Shape.partNames_eq, Shape.partNames_eq]
      exact congrArg Kind.partNames hkind
  · refine ⟨seen ++ [n], List.append_subset.mpr ⟨hseen, ?_⟩, (after_append_singleton seen n).symm⟩
    simpa using hn

end PartTable

/-! ## Walks and traversals -/

section

variable {σ : Type}

/-- Visits the nodes in the members with these names; `result` is the shape with what stands in the
members before. -/
def traverseMembers (v : Visitor σ) (shape : Shape Node) :
    List String → Shape Node → σ → Shape Node × σ
  | [], result, s => (result, s)
  | name :: names, result, s =>
    match shape.members.lookup name with
    | some (.node part (some n)) =>
      let (n, s) := n.traverse v (some ⟨shape.kind, part, none, 0⟩) s
      traverseMembers v shape names (result.setNode n part) s
    | some (.nodes part ns) =>
      let (ns, s) := traverseList v shape.kind part 0 ns s
      traverseMembers v shape names (result.setList ns part) s
    | _ => traverseMembers v shape names result s

theorem traverseShape_eq_traverseMembers (v : Visitor σ) (shape : Shape Node) (s : σ) :
    traverseShape v shape s = traverseMembers v shape shape.partNames shape s := by
  rw [Shape.partNames_eq]
  cases shape with
  | expressionStatement o | importDefault o | importNamespace o | importSpecifier _ o =>
    cases o <;> rfl
  | importDeclaration _ o | call o => cases o <;> rfl
  | variableDeclarator o o' | member o o' => cases o <;> cases o' <;> rfl
  | _ => rfl

/-- The walk does what the traversal does, and leaves the table filled from `all` and the flag
down. -/
def Follows {α : Type} (all : List Node) (walked : Except NoMember (α × Walker σ))
    (traversed : α × σ) : Prop :=
  ∃ table : PartTable, table.FilledFrom all ∧
    walked = .ok (traversed.1, ⟨table, false, traversed.2⟩)

/-- Every walk of `n` follows its traversal, whatever the table was filled from. -/
def Node.Followed (v : Visitor σ) (all : List Node) (n : Node) : Prop :=
  ∀ table : PartTable, table.FilledFrom all → ∀ place flag s,
    Follows all (n.walk v place ⟨table, flag, s⟩) (n.traverse v place s)

section

variable {v : Visitor σ} {all : List Node} {table : PartTable}

theorem Follows.bind {α β : Type} {walked : Except NoMember (α × Walker σ)} {traversed : α × σ}
    (h : Follows all walked traversed) {f : α × Walker σ → Except NoMember (β × Walker σ)}
    {t : β × σ} (hf : ∀ table : PartTable, table.FilledFrom all →
      Follows all (f (traversed.1, ⟨table, false, traversed.2⟩)) t) :
    Follows all (walked >>= f) t := by
  obtain ⟨table, htable, rfl⟩ := h
  exact hf table htable

theorem walkNodes_follows {parent : Kind} {part : Field} {ns : List Node}
    (h : ∀ n ∈ ns, n.Followed v all) (htable : table.FilledFrom all) (index : Nat) (s : σ) :
    Follows all (walkNodes v parent part index ns ⟨table, false, s⟩)
      (traverseList v parent part index ns s) := by
  induction ns generalizing table index s with
  | nil =>
    rw [walkNodes, traverseList]
    exact ⟨table, htable, rfl⟩
  | cons n rest ih =>
    rw [List.forall_mem_cons] at h
    rw [walkNodes, traverseList]
    refine (h.1 table htable _ false s).bind fun table htable => ?_
    exact (ih h.2 htable (index + 1) _).bind fun table htable => ⟨table, htable, rfl⟩

/-- `walkMembers` follows `traverseMembers`, if the walk of each node of `shape` follows its
traversal. -/
theorem walkMembers_follows {shape : Shape Node} (h : ∀ n ∈ shape.nodes, n.Followed v all)
    {names : List String} (hnames : ∀ name ∈ names, shape.members.lookup name ≠ none)
    (htable : table.FilledFrom all) (result : Shape Node) (s : σ) :
    Follows all (walkMembers v shape names result ⟨table, false, s⟩)
      (traverseMembers v shape names result s) := by
  -- Each node is walked over with the table that the one before has left, which is filled from
  -- `all` again.
  induction names generalizing table result s with
  | nil =>
    rw [walkMembers, traverseMembers]
    exact ⟨table, htable, rfl⟩
  | cons name names ih =>
    rw [List.forall_mem_cons] at hnames
    rw [walkMembers, traverseMembers]
    split
    case h_1 hnone => exact absurd hnone hnames.1
    case h_2 part n hlookup =>
      rw [hlookup]
      have hn := Shape.mem_nodes_of_lookup hlookup (List.mem_singleton_self n)
      exact (h n hn table htable _ false s).bind fun table htable => ih hnames.2 htable _ _
    case h_3 part ns hlookup =>
      rw [hlookup]
      have hns : ∀ n ∈ ns, n.Followed v all := fun n hn =>
        h n (Shape.mem_nodes_of_lookup hlookup hn)
      exact (walkNodes_follows hns htable 0 s).bind fun table htable => ih hnames.2 htable _ _
    case h_4 held hnode hnodes hlookup =>
      rw [hlookup]
      cases held with
      | node part o =>
        cases o with
        | none => exact ih hnames.2 htable _ _
        | some n => exact absurd rfl (hnode part n)
      | nodes part ns => exact absurd rfl (hnodes part ns)
      | items | value => exact ih hnames.2 htable _ _

/-- `walk` of a node, by cases of what `enter` gives: what then stands in its place has its shape,
and so is looked up as it is. -/
theorem Node.walk_mk (v : Visitor σ) (place : Option Place) (info : Info) (shape : Shape Node)
    (table : PartTable) (flag : Bool) (s : σ) :
    (mk info shape).walk v place ⟨table, flag, s⟩ =
      match v.enter place (mk info shape) s with
      | (.skip replacement, s) => .ok (replacement, ⟨table, false, s⟩)
      | (.descend info', s) => do
        let (shape, w) ← walkMembers v shape (table.consult (mk info shape)).1 shape
          ⟨(table.consult (mk info shape)).2, false, s⟩
        let (n, own) := v.leave place (mk info' shape) w.own
        return (n, { w with own }) := by
  rw [walk]
  rcases hentered : v.enter place (mk info shape) s with ⟨replacement | info', s'⟩
  · simp only [Walker.enter, hentered]
    rfl
  · simp only [Walker.enter, hentered]
    rfl

/-- If the names of kinds tell the kinds, every walk of `n` follows its traversal; by induction on
the tree. -/
theorem Node.followed (hall : NamesTellKinds all) (n : Node) (hn : n.subnodes ⊆ all) :
    n.Followed v all := by
  induction n using Node.induction with
  | mk info shape ih =>
    intro table htable place flag s
    have hchildren : ∀ c ∈ shape.nodes, c.Followed v all := fun c hc =>
      ih c hc fun m hm => hn (mem_subnodes_of_mem_children hc hm)
    obtain ⟨hnames, htable'⟩ := htable.consult hall (hn (mem_subnodes_self _))
    rw [walk_mk, traverse]
    rcases v.enter place (mk info shape) s with ⟨replacement | info', s'⟩
    · exact ⟨table, htable, rfl⟩
    · dsimp only
      rw [hnames, traverseShape_eq_traverseMembers]
      refine (walkMembers_follows hchildren (fun _ => Shape.lookup_ne_none_of_mem_partNames)
        htable' shape s').bind fun table htable => ?_
      exact ⟨table, htable, rfl⟩

end

end

end FlagFold
