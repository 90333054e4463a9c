/-
  FlagFold.Proofs.Tree.Nodes

  Induction and recursion over trees by way of the nodes that a node holds, so that
  no statement about all trees has to go through the forms one by one.

    * `Node.induction` proves a statement about all trees from the step "it holds
      of a node if it holds of the nodes that the node holds".
    * `Node.foldUp` computes on trees in the same way.
    * `Node.preorder` lists the nodes that a walk from the root enters, and
      `Node.subnodes` all of them.
-/

import FlagFold.Tree.Basic
import Mathlib.Data.List.Basic

namespace FlagFold

namespace Shape

variable {α β γ : Type}

/-- The shape with `f` applied to every node in it. -/
def map (f : α → β) : Shape α → Shape β
  | program body source => .program (body.map f) source
  | expressionStatement e => .expressionStatement (e.map f)
  | variableDeclaration keyword ds => .variableDeclaration keyword (ds.map f)
  | variableDeclarator t i => .variableDeclarator (t.map f) (i.map f)
  | importDeclaration ss s => .importDeclaration (ss.map f) (s.map f)
  | importDefault b => .importDefault (b.map f)
  | importNamespace b => .importNamespace (b.map f)
  | importSpecifier imported b => .importSpecifier imported (b.map f)
  | call c as optional => .call (c.map f) (as.map f) optional
  | member o p optional => .member (o.map f) (p.map f) optional
  | identifier name => .identifier name
  | string value raw => .string value raw
  | template chunks es => .template chunks (es.map f)
  | boolean value => .boolean value
  | generic kind cs => .generic kind (cs.map f)
  | removed => .removed

@[simp] theorem nodes_map (f : α → β) (s : Shape α) : (s.map f).nodes = s.nodes.map f := by
  cases s <;> simp [map, nodes, Option.toList_map]

@[simp] theorem kind_map (f : α → β) (s : Shape α) : (s.map f).kind = s.kind := by
  cases s <;> rfl

@[simp] theorem map_map (f : α → β) (g : β → γ) (s : Shape α) :
    (s.map f).map g = s.map (g ∘ f) := by
  cases s <;> simp [map]

@[simp] theorem map_id' (s : Shape α) : s.map (fun n => n) = s := by
  cases s <;> simp [map]

/-- `map` depends on what the function does to the nodes of `s` only. -/
theorem map_congr {f g : α → β} {s : Shape α} (h : ∀ n ∈ s.nodes, f n = g n) :
    s.map f = s.map g := by
  cases s with
  | identifier | string | boolean | removed => rfl
  | program body source => simpa [map, nodes] using h
  | variableDeclaration keyword ds => simpa [map, nodes] using h
  | template chunks es => simpa [map, nodes] using h
  | generic kind cs => simpa [map, nodes] using h
  | expressionStatement e => cases e <;> simp_all [map, nodes]
  | importDefault b => cases b <;> simp_all [map, nodes]
  | importNamespace b => cases b <;> simp_all [map, nodes]
  | importSpecifier imported b => cases b <;> simp_all [map, nodes]
  | variableDeclarator t i => cases t <;> cases i <;> simp_all [map, nodes]
  | member o p optional => cases o <;> cases p <;> simp_all [map, nodes]
  | call c as optional =>
    cases c with
    | none => simpa [map, nodes] using h
    | some c =>
      simp only [nodes, Option.toList_some, List.cons_append, List.nil_append,
        List.forall_mem_cons] at h
      simp only [map, Option.map_some, h.1, List.map_congr_left h.2]
  | importDeclaration ss s =>
    simp only [nodes, List.forall_mem_append] at h
    cases s with
    | none => simp only [map, Option.map_none, List.map_congr_left h.1]
    | some s => simp only [map, Option.map_some, List.map_congr_left h.1, h.2 s (by simp)]

end Shape

/-! ## Induction -/

/-- A node of `shape` is smaller than a node of that shape. -/
theorem Node.sizeOf_lt_of_mem_nodes {n : Node} {info : Info} {shape : Shape Node}
    (h : n ∈ shape.nodes) : sizeOf n < sizeOf (Node.mk info shape) := by
  have hlist : ∀ {ns : List Node}, n ∈ ns → sizeOf n < sizeOf ns := List.sizeOf_lt_of_mem
  have hopt : ∀ {o : Option Node}, n ∈ o.toList → sizeOf n < sizeOf o := by
    intro o ho
    rw [Option.mem_toList] at ho
    cases ho
    simp
  -- In each form the node is in a list or is what an optional part holds.
  cases shape <;> simp only [Shape.nodes, List.mem_append, List.not_mem_nil] at h <;>
    simp only [Node.mk.sizeOf_spec, Shape.program.sizeOf_spec,
      Shape.expressionStatement.sizeOf_spec, Shape.variableDeclaration.sizeOf_spec,
      Shape.variableDeclarator.sizeOf_spec, Shape.importDeclaration.sizeOf_spec,
      Shape.importDefault.sizeOf_spec, Shape.importNamespace.sizeOf_spec,
      Shape.importSpecifier.sizeOf_spec, Shape.call.sizeOf_spec, Shape.member.sizeOf_spec,
      Shape.template.sizeOf_spec, Shape.generic.sizeOf_spec] <;>
    grind

/-- `P` holds of all trees if it holds of a node whenever it holds of the nodes in its shape. -/
@[elab_as_elim]
theorem Node.induction {P : Node → Prop}
    (mk : ∀ (info : Info) (shape : Shape Node), (∀ n ∈ shape.nodes, P n) → P (.mk info shape)) :
    ∀ n, P n
  | .mk info shape => mk info shape fun n _ => Node.induction mk n
termination_by n => sizeOf n
decreasing_by exact Node.sizeOf_lt_of_mem_nodes ‹_›

/-! ## Recursion -/

section

variable {β : Type}

mutual

/-- Works a tree out from below: `step` is given the `Info` of a node and its shape, in which every
node stands beside its outcome. -/
def Node.foldUp (step : Info → Shape (Node × β) → β) : Node → β
  | .mk info shape => step info (foldUpShape step shape)

/-- The shape with its nodes beside their outcomes. -/
def foldUpShape (step : Info → Shape (Node × β) → β) : Shape Node → Shape (Node × β)
  | .program body source => .program (foldUpList step body) source
  | .expressionStatement e => .expressionStatement (foldUpOption step e)
  | .variableDeclaration keyword ds => .variableDeclaration keyword (foldUpList step ds)
  | .variableDeclarator t i => .variableDeclarator (foldUpOption step t) (foldUpOption step i)
  | .importDeclaration ss s => .importDeclaration (foldUpList step ss) (foldUpOption step s)
  | .importDefault b => .importDefault (foldUpOption step b)
  | .importNamespace b => .importNamespace (foldUpOption step b)
  | .importSpecifier imported b => .importSpecifier imported (foldUpOption step b)
  | .call c as optional => .call (foldUpOption step c) (foldUpList step as) optional
  | .member o p optional => .member (foldUpOption step o) (foldUpOption step p) optional
  | .identifier name => .identifier name
  | .string value raw => .string value raw
  | .template chunks es => .template chunks (foldUpList step es)
  | .boolean value => .boolean value
  | .generic kind cs => .generic kind (foldUpList step cs)
  | .removed => .removed

/-- The node of an optional part beside its outcome. -/
def foldUpOption (step : Info → Shape (Node × β) → β) : Option Node → Option (Node × β)
  | none => none
  | some n => some (n, n.foldUp step)

/-- The nodes of a list beside their outcomes. -/
def foldUpList (step : Info → Shape (Node × β) → β) : List Node → List (Node × β)
  | [] => []
  | n :: rest => (n, n.foldUp step) :: foldUpList step rest

end

variable {step : Info → Shape (Node × β) → β}

private theorem foldUpOption_eq (o : Option Node) :
    foldUpOption step o = o.map fun n => (n, n.foldUp step) := by
  cases o <;> simp only [foldUpOption, Option.map_none, Option.map_some]

private theorem foldUpList_eq (ns : List Node) :
    foldUpList step ns = ns.map fun n => (n, n.foldUp step) := by
  induction ns with
  | nil => rfl
  | cons n rest ih => simp only [foldUpList, List.map_cons, ih]

theorem Node.foldUp_mk (info : Info) (shape : Shape Node) :
    (Node.mk info shape).foldUp step = step info (shape.map fun n => (n, n.foldUp step)) := by
  rw [Node.foldUp]
  congr 1
  cases shape <;> simp only [foldUpShape, Shape.map, foldUpList_eq, foldUpOption_eq]

end

namespace Node

@[simp] theorem children_mk (info : Info) (shape : Shape Node) :
    (mk info shape).children = shape.nodes := rfl

/-- The nodes that a walk from the root comes to, each before those below it, if it goes only into
the nodes that satisfy `enter`. -/
def preorder (enter : Node → Bool) : Node → List Node :=
  foldUp fun info shape =>
    let n := mk info (shape.map (·.1))
    n :: if enter n then shape.nodes.flatMap (·.2) else []

theorem preorder_mk (enter : Node → Bool) (info : Info) (shape : Shape Node) :
    (mk info shape).preorder enter =
      mk info shape ::
        if enter (mk info shape) then shape.nodes.flatMap (preorder enter) else [] := by
  have hself : (fun p : Node × List Node => p.1) ∘
      (fun n => (n, n.foldUp fun info shape =>
        let n := mk info (shape.map (·.1))
        n :: if enter n then shape.nodes.flatMap (·.2) else [])) = fun n => n := rfl
  rw [preorder, foldUp_mk]
  simp only [Shape.map_map, hself, Shape.map_id', Shape.nodes_map, List.flatMap_map]

theorem preorder_of_not_enter {enter : Node → Bool} {n : Node} (h : enter n = false) :
    n.preorder enter = [n] := by
  cases n with
  | mk info shape => rw [preorder_mk, h, if_neg Bool.false_ne_true]

theorem mem_preorder_self (enter : Node → Bool) (n : Node) : n ∈ n.preorder enter := by
  cases n with
  | mk info shape => simp [preorder_mk]

/-- If the walk goes into `n`, it comes to all to which a walk from a child `c` comes. -/
theorem mem_preorder_of_mem_children {enter : Node → Bool} {n c m : Node} (hn : enter n)
    (hc : c ∈ n.children) (hm : m ∈ c.preorder enter) : m ∈ n.preorder enter := by
  cases n with
  | mk info shape =>
    rw [preorder_mk, if_pos hn]
    exact List.mem_cons_of_mem _ (List.mem_flatMap.mpr ⟨c, hc, hm⟩)

/-- A walk from a node `m` of the walk from `n` comes to no others. -/
theorem mem_preorder_trans {enter : Node → Bool} {n m k : Node} (hm : m ∈ n.preorder enter)
    (hk : k ∈ m.preorder enter) : k ∈ n.preorder enter := by
  induction n using Node.induction with
  | mk info shape ih =>
    rw [preorder_mk, List.mem_cons] at hm
    rcases hm with rfl | hm
    · exact hk
    · split at hm
      case isTrue henter =>
        obtain ⟨c, hc, hm⟩ := List.mem_flatMap.mp hm
        exact mem_preorder_of_mem_children henter hc (ih c hc hm)
      case isFalse => cases hm

/-- All nodes of a tree, each before those below it. -/
def subnodes (n : Node) : List Node := n.preorder fun _ => true

theorem mem_subnodes_self (n : Node) : n ∈ n.subnodes := mem_preorder_self _ n

theorem mem_subnodes_of_mem_children {n c m : Node} (hc : c ∈ n.children)
    (hm : m ∈ c.subnodes) : m ∈ n.subnodes :=
  mem_preorder_of_mem_children rfl hc hm

theorem mem_subnodes_trans {n m k : Node} (hm : m ∈ n.subnodes) (hk : k ∈ m.subnodes) :
    k ∈ n.subnodes :=
  mem_preorder_trans hm hk

/-! ## Values -/

/-- `literal?` does not depend on the nodes below. -/
theorem literal?_map (f : Node → Node) (info info' : Info) (shape : Shape Node) :
    (mk info' (shape.map f)).literal? = (mk info shape).literal? := by
  cases shape with
  | template chunks es => rcases chunks with _ | ⟨_, _ | ⟨_, _⟩⟩ <;> cases es <;> rfl
  | _ => rfl

end Node
end FlagFold
