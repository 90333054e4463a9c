/-
  FlagFold.Tree.Walker

  Walks over trees as they are carried out.  In which members of a node to look for the
  nodes below it is kept in a table by the name of the kind, filled from the first node
  of each that is gone into, which all walks of a process share.  That the nodes below a
  node are to be left out is told by a flag, of which a walk has only one.
-/

import FlagFold.Tree.Path
import FlagFold.Tree.Walk

namespace FlagFold

/-! ## Members -/

/-- What a member of a node holds. -/
inductive Held (α : Type) where
  /-- A node, or nothing. -/
  | node (part : Field) (o : Option α)
  /-- A list of nodes. -/
  | nodes (part : Field) (ns : List α)
  /-- A list of other things. -/
  | items
  /-- Anything else. -/
  | value

/-- Nothing, a node or a list: this is where a walk looks for nodes. -/
def Held.mayHoldNodes {α : Type} : Held α → Bool
  | .value => false
  | .node .. | .nodes .. | .items => true

namespace Shape

variable {α : Type}

/-- The members that every node has. -/
def commonMembers : List (String × Held α) :=
  [("type", .value), ("start", .value), ("end", .value), ("line", .value), ("column", .value),
    ("comments", .items), ("synthetic", .value)]

/-- The members that a node of this form has of its own. -/
def ownMembers : Shape α → List (String × Held α)
  | program body _ => [nodes .body body, ("source", .value)]
  | expressionStatement e => [node .expression e]
  | variableDeclaration _ ds => [("kind", .value), nodes .declarations ds]
  | variableDeclarator t i => [node .target t, node .init i]
  | importDeclaration ss s => [nodes .specifiers ss, node .source s]
  | importDefault b => [node .binding b]
  | importNamespace b => [node .binding b]
  | importSpecifier _ b => [("imported", .value), node .binding b]
  | call c as _ => [node .callee c, nodes .arguments as, ("optional", .value)]
  | member o p _ => [node .object o, node .property p, ("optional", .value)]
  | identifier _ => [("name", .value)]
  | string .. => [("value", .value), ("raw", .value)]
  | template _ es => [("quasis", .items), nodes .expressions es]
  | boolean _ => [("value", .value)]
  | generic _ cs => [nodes .children cs]
  | removed => []
where
  node (part : Field) (o : Option α) : String × Held α := (part.name, .node part o)
  nodes (part : Field) (ns : List α) : String × Held α := (part.name, .nodes part ns)

/-- The members of a node of this form, by name and in their order. -/
def members (shape : Shape α) : List (String × Held α) := commonMembers ++ shape.ownMembers

/-- The members in which a walk never looks for nodes. -/
def otherMembers : List String := ["comments"]

/-- The names of the members in which a walk looks for the nodes below a node of this form. -/
def partNames (shape : Shape α) : List String :=
  (shape.members.filter fun (name, held) =>
    !otherMembers.contains name && held.mayHoldNodes).map (·.1)

/-- What a member that a form has under a name holds. -/
theorem mem_members_of_lookup {shape : Shape α} {name : String} {held : Held α}
    (h : shape.members.lookup name = some held) : (name, held) ∈ shape.members := by
  obtain ⟨before, after, hsplit, -⟩ := List.lookup_eq_some_iff.mp h
  rw [hsplit]
  simp

/-- The node of a member is smaller than the form. -/
theorem sizeOf_lt_of_lookup_node {shape : Shape Node} {name : String} {part : Field} {n : Node}
    (h : shape.members.lookup name = some (.node part (some n))) : sizeOf n < sizeOf shape := by
  have hmem := mem_members_of_lookup h
  cases shape <;>
    simp [members, commonMembers, ownMembers, ownMembers.node, ownMembers.nodes] at hmem <;> grind

/-- So is the list of a member. -/
theorem sizeOf_lt_of_lookup_nodes {shape : Shape Node} {name : String} {part : Field}
    {ns : List Node} (h : shape.members.lookup name = some (.nodes part ns)) :
    sizeOf ns < sizeOf shape := by
  have hmem := mem_members_of_lookup h
  cases shape <;>
    simp [members, commonMembers, ownMembers, ownMembers.node, ownMembers.nodes] at hmem <;> grind

end Shape

/-! ## The table of names -/

/-- The names of the members in which walks look for nodes, by the name of the kind. -/
abbrev PartTable := List (String × List String)

/-- The names for a node: those of the first node whose kind has the same name. -/
def PartTable.consult (table : PartTable) (n : Node) : List String × PartTable :=
  match table.lookup n.kind.name with
  | some names => (names, table)
  | none => (n.shape.partNames, (n.kind.name, n.shape.partNames) :: table)

/-! ## Walks -/

/-- The state of a walk: the table, whether the node just entered is not to be gone into, and
what the visitor keeps. -/
structure Walker (σ : Type) where
  table : PartTable
  skipping : Bool
  own : σ

/-- A member in which a walk looks for nodes is missing. -/
structure NoMember where
  kind : Kind
  name : String
  deriving DecidableEq

section

variable {σ : Type}

/-- Lets the visitor enter a node, and gives what then stands in its place. -/
def Walker.enter (v : Visitor σ) (place : Option Place) (n : Node) (w : Walker σ) :
    Node × Walker σ :=
  match v.enter place n w.own with
  | (.skip replacement, own) => (replacement, { w with skipping := true, own })
  | (.descend info, own) => (.mk info n.shape, { w with own })

mutual

/-- Walks over a node and what is below it. -/
def Node.walk (v : Visitor σ) (place : Option Place) :
    Node → Walker σ → Except NoMember (Node × Walker σ)
  | .mk info shape, w => do
    let (n, w) := { w with skipping := false }.enter v place (.mk info shape)
    if w.skipping then
      return (n, { w with skipping := false })
    else
      let (names, table) := w.table.consult n
      let (shape, w) ← walkMembers v shape names shape { w with table }
      let (n, own) := v.leave place (.mk n.info shape) w.own
      return (n, { w with own })
termination_by n => (sizeOf n, 0)

/-- Walks over the nodes in the members of a form; `result` is the form with what stands in the
members before. -/
def walkMembers (v : Visitor σ) (shape : Shape Node) :
    List String → Shape Node → Walker σ → Except NoMember (Shape Node × Walker σ)
  | [], result, w => .ok (result, w)
  | name :: names, result, w =>
    match _h : shape.members.lookup name with
    | none => .error ⟨shape.kind, name⟩
    | some (.node part (some n)) => do
      let (n, w) ← n.walk v (some ⟨shape.kind, part, none, 0⟩) w
      walkMembers v shape names (result.setNode n part) w
    | some (.nodes part ns) => do
      let (ns, w) ← walkNodes v shape.kind part 0 ns w
      walkMembers v shape names (result.setList ns part) w
    | some _ => walkMembers v shape names result w
termination_by names => (sizeOf shape, names.length)
decreasing_by
  · exact Prod.Lex.left _ _ (Shape.sizeOf_lt_of_lookup_node ‹_›)
  · exact Prod.Lex.right _ (Nat.lt_succ_self _)
  · exact Prod.Lex.left _ _ (Shape.sizeOf_lt_of_lookup_nodes ‹_›)
  · exact Prod.Lex.right _ (Nat.lt_succ_self _)
  · exact Prod.Lex.right _ (Nat.lt_succ_self _)

/-- Walks over the nodes of a list, the first being at `index`. -/
def walkNodes (v : Visitor σ) (parent : Kind) (part : Field) (index : Nat) :
    List Node → Walker σ → Except NoMember (List Node × Walker σ)
  | [], w => .ok ([], w)
  | n :: rest, w => do
    let (n, w) ← n.walk v (some ⟨parent, part, some index, rest.length⟩) w
    let (rest, w) ← walkNodes v parent part (index + 1) rest w
    return (n :: rest, w)
termination_by ns => (sizeOf ns, 0)

end

end

/-! ## The trace of a walk -/

/-- One step of a walk that changes nothing. -/
inductive Event where
  | entered (kind : Kind) (place : Option Place)
  | left (kind : Kind) (place : Option Place)
  deriving DecidableEq

/-- Records every step, last first, skipping the nodes of which `skip` holds. -/
def Visitor.tracing (skip : Kind → Bool) : Visitor (List Event) where
  enter place node events :=
    let events := .entered node.kind place :: events
    if skip node.kind then (.skip node, events) else (.descend node.info, events)
  leave place node events := (node, .left node.kind place :: events)

/-- The steps of a walk that goes into no node of which `skip` holds, and the table after it. -/
def Node.trace (skip : Kind → Bool) (table : PartTable) (root : Node) :
    Except NoMember (List Event × PartTable) := do
  let (_, w) ← root.walk (.tracing skip) none ⟨table, false, []⟩
  return (w.own.reverse, w.table)

end FlagFold
