/-
  FlagFold.Proofs.Tree.Calls

  The calls of a tree and those of the concrete syntax tree that it is made of.  Some
  forms of the tree have a place only for what the passes look at, and drop the other
  children of their concrete node; any other node keeps all its parts.  `forwards` says
  of each child of a concrete node whether it is kept, and so a walk of the tree comes to
  the calls to which a walk of the concrete tree comes that goes to the kept children
  only (`toProgram_calls`).

  Both lists of calls are built up in the same way, from the calls below each node
  (`Node.calls_mk`, `Concrete.calls_eq`).  So the proof is one induction on the concrete
  tree (`toNode_calls`), with a lemma for each way in which children are chosen and one
  for each form that chooses among them.
-/

import FlagFold.Proofs.Concrete.Nodes
import FlagFold.Proofs.Tree.Traversal

namespace FlagFold

open StringLiteral (NoCodePoint)

/-! ## Calls of a tree -/

/-- Lists the nodes that are entered, last first. -/
def Visitor.listing : Visitor (List Node) where
  enter _ node entered := (.descend node.info, node :: entered)

namespace Node

/-- The nodes that a traversal of `root` enters, in its order. -/
def entered (root : Node) : List Node := (root.traverse Visitor.listing none []).2.reverse

theorem entered_eq_subnodes (root : Node) : root.entered = root.subnodes := by
  have hpush : ∀ ns entered : List Node, ns.foldl (fun l n => n :: l) entered =
      ns.reverse ++ entered := by
    intro ns
    induction ns with
    | nil => exact fun entered => rfl
    | cons n rest ih => simp [ih]
  have hbelow : ∀ (n : Node) (p : Place) (entered : List Node),
      id (n.traverse Visitor.listing (some p) entered).2 =
        n.subnodes.foldl (fun l n => n :: l) (id entered) :=
    account_traverse (fun _ _ _ => rfl) (fun _ _ _ => rfl) (fun _ _ h => by cases h)
      (fun _ _ _ => rfl) (fun _ _ _ => rfl)
  cases root with
  | mk info shape =>
    have hplaces : id (traversePlaces Visitor.listing shape.places [mk info shape]).2 =
        (shape.nodes.flatMap subnodes).foldl (fun l n => n :: l) (id [mk info shape]) :=
      account_traversePlaces (fun n _ => hbelow n) _
    have htraverse : ((mk info shape).traverse Visitor.listing none []).2 =
        (traversePlaces Visitor.listing shape.places [mk info shape]).2 := by
      rw [traverse_mk]
      rfl
    rw [entered, htraverse, ← id_eq (traversePlaces _ _ _).2, hplaces, hpush, List.reverse_append,
      List.reverse_reverse, subnodes, preorder_mk]
    rfl

/-- Where the calls in `n` are, each before those below it. -/
def calls (n : Node) : List Info := (n.subnodes.filter (·.kind = .call)).map (·.info)

theorem calls_mk (info : Info) (shape : Shape Node) :
    (mk info shape).calls =
      (if shape.kind = .call then [info] else []) ++ shape.nodes.flatMap calls := by
  have hkind : (mk info shape).kind = shape.kind := rfl
  rw [calls, subnodes, preorder_mk, if_pos rfl, List.filter_cons, List.filter_flatMap]
  simp only [hkind, decide_eq_true_eq]
  split <;> simp only [List.map_cons, List.map_flatMap, List.cons_append, List.nil_append] <;> rfl

theorem calls_eq_nil {info : Info} {shape : Shape Node} (hkind : shape.kind ≠ .call)
    (hbelow : ∀ n ∈ shape.nodes, n.calls = []) : (mk info shape).calls = [] := by
  rw [calls_mk, if_neg hkind, List.flatMap_eq_nil_iff.mpr hbelow]
  rfl

end Node

namespace Concrete

/-! ## Calls of a concrete tree -/

/-- `node` is a call with arguments in parentheses. -/
def isCall (node : Concrete) : Bool :=
  node.kind = "call_expression" && (node.child? "function").isSome &&
    (node.child? "arguments").any (·.kind = "arguments")

/-- `child`, with `number` children before it in `parent`, is kept as a part of the tree, or its
parts are. -/
def forwards (parent : Concrete) (number : Nat) (child : Concrete) : Bool :=
  match parent.kind with
  | "identifier" | "property_identifier" | "string" | "true" | "false" => false
  | "comment" | "html_comment" => false
  | "import_statement" => !(parent.child? "source").any (·.kind = "string")
  | "call_expression" =>
    !parent.isCall || (parent.isPlayedBy "function" number || parent.isPlayedBy "arguments" number)
  | "member_expression" =>
    !((parent.child? "object").isSome && (parent.child? "property").isSome) ||
      (parent.isPlayedBy "object" number || parent.isPlayedBy "property" number)
  | "variable_declarator" =>
    parent.isPlayedBy "name" number || parent.isPlayedBy "value" number
  | "lexical_declaration" | "variable_declaration" => child.kind = "variable_declarator"
  | "template_string" => child.kind = "template_substitution"
  | _ => true

/-- Where the calls of a concrete tree are, each before those below it, other than those below a
child that is not kept. -/
def calls (index : SourceIndex) (node : Concrete) : List Info :=
  ((node.preorder forwards).filter isCall).map (info index)

/-- What a grammar sees to at `node`: tokens and comments have nothing below them, an expression
statement and a substitution have one part, and the parts of calls, members and declarators stand in
their order. -/
structure IsRegular (node : Concrete) : Prop where
  leaf : node.anonymous ∨ node.isComment → node.children = []
  single : node.kind = "expression_statement" ∨ node.kind = "template_substitution" →
    node.parts.length = 1
  call : node.kind = "call_expression" → node.InOrder "function" "arguments"
  member : node.kind = "member_expression" → node.InOrder "object" "property"
  declarator : node.kind = "variable_declarator" → node.InOrder "name" "value"

instance (node : Concrete) : Decidable node.IsRegular :=
  decidable_of_iff
    ((node.anonymous ∨ node.isComment → node.children = []) ∧
      (node.kind = "expression_statement" ∨ node.kind = "template_substitution" →
        node.parts.length = 1) ∧
      (node.kind = "call_expression" → node.InOrder "function" "arguments") ∧
      (node.kind = "member_expression" → node.InOrder "object" "property") ∧
      (node.kind = "variable_declarator" → node.InOrder "name" "value"))
    ⟨fun ⟨leaf, single, call, member, declarator⟩ => ⟨leaf, single, call, member, declarator⟩,
      fun h => ⟨h.leaf, h.single, h.call, h.member, h.declarator⟩⟩

/-- A string literal below `node` has the escape `e` that is no code point. -/
def HasUnreadable (index : SourceIndex) (node : Concrete) (e : NoCodePoint) : Prop :=
  ∃ literal ∈ node.subnodes, literal.kind = "string" ∧
    StringLiteral.decode (index.slice literal) = .error e

variable {index : SourceIndex}

theorem calls_eq (index : SourceIndex) (node : Concrete) :
    node.calls index =
      (if node.isCall then [node.info index] else []) ++
        (node.entered forwards).flatMap (calls index) := by
  rw [calls, preorder_eq, List.filter_cons, List.filter_flatMap]
  split <;> simp only [List.map_cons, List.map_flatMap, List.cons_append, List.nil_append] <;> rfl

theorem isCall_iff {node : Concrete} :
    node.isCall ↔ node.kind = "call_expression" ∧ ∃ callee, node.child? "function" = some callee ∧
      ∃ arguments, node.child? "arguments" = some arguments ∧ arguments.kind = "arguments" := by
  rw [isCall, Bool.and_eq_true, Bool.and_eq_true, decide_eq_true_eq, Option.isSome_iff_exists,
    Option.any_eq_true, and_assoc, exists_and_right]
  simp only [decide_eq_true_eq]

theorem isCall_eq_false {node : Concrete} (h : node.kind ≠ "call_expression") :
    node.isCall = false := by
  rw [isCall, decide_eq_false h, Bool.false_and, Bool.false_and]

/-- The `calls` of a node that is no call and keeps all its children are those of the children. -/
theorem calls_of_forwards {node : Concrete} (hcall : node.isCall = false)
    (h : ∀ i, ∀ c ∈ node.children, node.forwards i c = true) :
    node.calls index = node.children.flatMap (calls index) := by
  rw [calls_eq, hcall, entered_of_filter (p := fun _ => true) h, List.filter_true]
  rfl

/-- A node that is no call and keeps no child has no `calls`. -/
theorem calls_of_not_forwards {node : Concrete} (hcall : node.isCall = false)
    (h : ∀ i, ∀ c ∈ node.children, node.forwards i c = false) : node.calls index = [] := by
  rw [calls_eq, hcall, entered_of_filter (p := fun _ => false) h, List.filter_false]
  rfl

/-! ## Tokens and comments -/

section

variable (index : SourceIndex) {node : Concrete}

/-- A token or a comment has no `calls`. -/
theorem calls_of_not_isPart (hnode : node.IsRegular) (h : ¬ node.isPart) :
    node.calls index = [] := by
  have hleaf : node.children = [] := hnode.leaf (by
    simp only [isPart, Bool.and_eq_true, Bool.not_eq_true', not_and, Bool.not_eq_false] at h
    by_cases hanonymous : node.anonymous
    · exact .inl hanonymous
    · exact .inr (h (by simpa using hanonymous)))
  have hcall : node.isCall = false := by
    rw [isCall, child?, hleaf, List.find?_nil, Option.isSome_none, Bool.and_false, Bool.false_and]
  have hentered : node.entered forwards = [] := by
    rw [entered, hleaf]
    rfl
  rw [calls_eq, hcall, hentered]
  rfl

/-- The `calls` of `cs` are the same if tokens and comments are left out. -/
theorem flatMap_calls_filter_isPart {cs : List Concrete} (h : ∀ c ∈ cs, c.IsRegular)
    (p : Concrete → Bool) :
    (cs.filter fun c => c.isPart && p c).flatMap (calls index) =
      (cs.filter p).flatMap (calls index) := by
  induction cs with
  | nil => rfl
  | cons c rest ih =>
    rw [List.forall_mem_cons] at h
    have hrest := ih h.2
    by_cases hc : c.isPart
    · by_cases hp : p c <;> simp [hc, hp, hrest]
    · have hcalls := calls_of_not_isPart index h.1 hc
      by_cases hp : p c <;> simp [hc, hp, hcalls, hrest]

theorem flatMap_calls_parts (h : ∀ c ∈ node.children, c.IsRegular) :
    (node.children.filter isPart).flatMap (calls index) =
      node.children.flatMap (calls index) := by
  have htrue := flatMap_calls_filter_isPart index h fun _ => true
  rwa [List.filter_true, funext fun c => Bool.and_true (isPart c)] at htrue

theorem parts_eq (node : Concrete) : node.parts = node.children.filter isPart := by
  rw [parts, namedChildren, List.filter_filter]
  exact List.filter_congr fun c _ => Bool.and_comm _ _

/-- If `node` has one part only, all `calls` of its children are in this. -/
theorem flatMap_calls_part (h : ∀ c ∈ node.children, c.IsRegular)
    (hsingle : node.parts.length = 1) :
    (node.children.find? isPart).toList.flatMap (calls index) =
      node.children.flatMap (calls index) := by
  rw [parts_eq] at hsingle
  obtain ⟨part, hpart⟩ := List.length_eq_one_iff.mp hsingle
  rw [← flatMap_calls_parts index h, ← List.head?_filter, hpart]
  rfl

end

theorem HasUnreadable.of_mem_children {node c : Concrete} {e : NoCodePoint}
    (h : c.HasUnreadable index e) (hc : c ∈ node.children) : node.HasUnreadable index e := by
  obtain ⟨literal, hmem, hliteral⟩ := h
  exact ⟨literal, mem_subnodes_of_mem_children hc hmem, hliteral⟩

/-! ## Lists of nodes -/

section Lists

variable {Q : NoCodePoint → Prop} {cs : List Concrete}

/-- `c.toNode` has the `calls` of `c`, or fails with `Q`. -/
def KeepsCalls (index : SourceIndex) (Q : NoCodePoint → Prop) (c : Concrete) : Prop :=
  Outcome (c.toNode index) (fun n => n.calls = c.calls index) Q

theorem partsToNodes_calls (h : ∀ c ∈ cs, c.KeepsCalls index Q) :
    Outcome (partsToNodes index cs)
      (fun ns => ns.flatMap Node.calls = (cs.filter isPart).flatMap (calls index)) Q := by
  induction cs with
  | nil => rfl
  | cons c rest ih =>
    rw [List.forall_mem_cons] at h
    rw [partsToNodes, List.filter_cons]
    split
    · refine h.1.bind fun n hn => (ih h.2).bind fun ns hns => outcome_ok ?_
      rw [List.flatMap_cons, List.flatMap_cons, hn, hns]
    · exact ih h.2

theorem firstPartToNode_calls (h : ∀ c ∈ cs, c.KeepsCalls index Q) :
    Outcome (firstPartToNode index cs)
      (fun o => o.toList.flatMap Node.calls =
        (cs.find? isPart).toList.flatMap (calls index)) Q := by
  induction cs with
  | nil => rfl
  | cons c rest ih =>
    rw [List.forall_mem_cons] at h
    rw [firstPartToNode]
    split
    case isTrue hc =>
      rw [List.find?_cons_of_pos hc]
      refine h.1.bind fun n hn => outcome_ok ?_
      rw [Option.toList_some, Option.toList_some, List.flatMap_singleton, List.flatMap_singleton,
        hn]
    case isFalse hc =>
      rw [List.find?_cons_of_neg hc]
      exact ih h.2

theorem fieldToNode_calls {field : String} (h : ∀ c ∈ cs, c.KeepsCalls index Q) :
    Outcome (fieldToNode index field cs)
      (fun o => o.toList.flatMap Node.calls =
        (cs.find? (·.field = some field)).toList.flatMap (calls index)) Q := by
  induction cs with
  | nil => rfl
  | cons c rest ih =>
    rw [List.forall_mem_cons] at h
    rw [fieldToNode]
    split
    case isTrue hc =>
      rw [List.find?_cons_of_pos (by simpa using hc)]
      refine h.1.bind fun n hn => outcome_ok ?_
      rw [Option.toList_some, Option.toList_some, List.flatMap_singleton, List.flatMap_singleton,
        hn]
    case isFalse hc =>
      rw [List.find?_cons_of_neg (by simpa using hc)]
      exact ih h.2

theorem declaratorsToNodes_calls (h : ∀ c ∈ cs, c.KeepsCalls index Q) :
    Outcome (declaratorsToNodes index cs)
      (fun ns => ns.flatMap Node.calls =
        (cs.filter fun c => c.isPart && c.kind = "variable_declarator").flatMap
          (calls index)) Q := by
  induction cs with
  | nil => rfl
  | cons c rest ih =>
    rw [List.forall_mem_cons] at h
    rw [declaratorsToNodes, List.filter_cons]
    split
    · refine h.1.bind fun n hn => (ih h.2).bind fun ns hns => outcome_ok ?_
      rw [List.flatMap_cons, List.flatMap_cons, hn, hns]
    · exact ih h.2

theorem argumentsToNodes_calls (h : ∀ c ∈ cs, ∀ d ∈ c.children, d.KeepsCalls index Q) :
    Outcome (argumentsToNodes index cs)
      (fun ns => ns.flatMap Node.calls =
        (cs.find? (·.field = some "arguments")).toList.flatMap fun c =>
          (c.children.filter isPart).flatMap (calls index)) Q := by
  induction cs with
  | nil => rfl
  | cons c rest ih =>
    rw [List.forall_mem_cons] at h
    obtain ⟨kind, start, stop, field, anonymous, missing, children⟩ := c
    rw [argumentsToNodes]
    split
    case isTrue hc =>
      rw [List.find?_cons_of_pos (by simpa using hc), Option.toList_some, List.flatMap_singleton]
      exact partsToNodes_calls h.1
    case isFalse hc =>
      rw [List.find?_cons_of_neg (by simpa using hc)]
      exact ih h.2

theorem substitutionsToNodes_calls (h : ∀ c ∈ cs, ∀ d ∈ c.children, d.KeepsCalls index Q) :
    Outcome (substitutionsToNodes index cs)
      (fun ns => ns.flatMap Node.calls =
        (cs.filter fun c => c.kind = "template_substitution" && !c.anonymous).flatMap fun c =>
          (c.children.find? isPart).toList.flatMap (calls index)) Q := by
  induction cs with
  | nil => rfl
  | cons c rest ih =>
    rw [List.forall_mem_cons] at h
    obtain ⟨kind, start, stop, field, anonymous, missing, children⟩ := c
    rw [substitutionsToNodes, List.filter_cons]
    split
    · refine (firstPartToNode_calls h.1).bind fun inner hinner => (ih h.2).bind fun ns hns =>
        outcome_ok ?_
      rw [List.flatMap_append, List.flatMap_cons, hinner, hns]
    · exact ih h.2

end Lists

/-! ## Leaves and imports -/

theorem identifier_calls (index : SourceIndex) (node : Concrete) :
    (node.identifier index).calls = [] :=
  Node.calls_eq_nil nofun (by simp [Shape.nodes])

/-- `stringLiteral` has no `calls`, if the literal can be read. -/
theorem stringLiteral_calls (index : SourceIndex) {node : Concrete} (h : node.kind = "string") :
    Outcome (node.stringLiteral index) (fun n => n.calls = []) (node.HasUnreadable index) := by
  have hdecode : Outcome (StringLiteral.decode (index.slice node)) (fun _ => True)
      (node.HasUnreadable index) := by
    unfold Outcome
    split
    · trivial
    · exact ⟨node, mem_subnodes_self node, h, ‹_›⟩
  exact hdecode.bind fun value _ => outcome_ok (Node.calls_eq_nil nofun (by simp [Shape.nodes]))

/-- `importSpecifier` has no `calls`. -/
theorem importSpecifier_calls (index : SourceIndex) (node : Concrete) :
    Outcome (node.importSpecifier index) (fun n => n.calls = []) (node.HasUnreadable index) := by
  have hmade : ∀ (imported : Text) (name : Option Concrete), Outcome
      (pure (Node.mk (node.info index) (.importSpecifier imported (boundName index name))) :
        Except NoCodePoint Node)
      (fun n => n.calls = []) (node.HasUnreadable index) := by
    intro imported name
    refine outcome_ok (Node.calls_eq_nil nofun fun n hn => ?_)
    rw [Shape.nodes, Option.mem_toList] at hn
    obtain ⟨c, -, rfl⟩ := exists_of_boundName hn
    exact identifier_calls index c
  unfold importSpecifier
  dsimp only
  split
  case h_1 => exact hmade _ _
  case h_2 name hname =>
    split
    case isTrue hstring =>
      have hbelow := mem_subnodes_of_mem_children (List.mem_of_find?_eq_some hname)
        (mem_subnodes_self name)
      cases hdecode : StringLiteral.decode (index.slice name) with
      | error e => exact ⟨name, hbelow, hstring, hdecode⟩
      | ok imported => exact hmade imported _
    case isFalse => exact hmade _ _

theorem importPart_calls (index : SourceIndex) (node : Concrete) :
    Outcome (node.importPart index) (fun ns => ∀ n ∈ ns, n.calls = [])
      (node.HasUnreadable index) := by
  have hleaf : ∀ c : Concrete, ∀ n ∈ (some (c.identifier index)).toList, n.calls = [] := by
    simpa using identifier_calls index
  unfold importPart
  split
  · exact outcome_ok (List.forall_mem_singleton.mpr (Node.calls_eq_nil nofun (hleaf node)))
  · split
    · apply outcome_ok
      split
      · exact List.forall_mem_nil _
      · exact List.forall_mem_singleton.mpr (Node.calls_eq_nil nofun (hleaf _))
    · split
      · refine outcome_mapM fun part hpart => ?_
        have hchild : part ∈ node.children := by
          have hpart := (List.mem_filter.mp hpart).1
          rw [parts_eq] at hpart
          exact (List.mem_filter.mp hpart).1
        exact (importSpecifier_calls index part).imp (fun _ h => h)
          fun _ h => h.of_mem_children hchild
      · exact outcome_ok (List.forall_mem_nil _)

theorem importSpecifiers_calls (index : SourceIndex) (node : Concrete) :
    Outcome (node.importSpecifiers index) (fun ns => ns.flatMap Node.calls = [])
      (node.HasUnreadable index) := by
  have hpart : ∀ part ∈ (node.parts.filter (·.kind = "import_clause")).flatMap (·.parts),
      Outcome (part.importPart index) (fun ns => ∀ n ∈ ns, n.calls = [])
        (node.HasUnreadable index) := by
    intro part hpart
    obtain ⟨clause, hclause, hpart⟩ := List.mem_flatMap.mp hpart
    have hclause := (List.mem_filter.mp hclause).1
    rw [parts_eq] at hclause hpart
    exact (importPart_calls index part).imp (fun _ h => h) fun _ h =>
      (h.of_mem_children (List.mem_filter.mp hpart).1).of_mem_children
        (List.mem_filter.mp hclause).1
  refine (outcome_mapM hpart).bind fun names hnames => outcome_ok ?_
  rw [List.flatMap_eq_nil_iff]
  intro n hn
  obtain ⟨ns, hns, hn⟩ := List.mem_flatten.mp hn
  exact hnames ns hns n hn

/-! ## Forms of nodes -/

/-- The nodes one and two levels below `node` are regular, and what is made of them keeps the
calls. -/
structure KeepsBelow (index : SourceIndex) (node : Concrete) : Prop where
  self : node.IsRegular
  regular : ∀ c ∈ node.children, c.IsRegular
  regularBelow : ∀ c ∈ node.children, ∀ d ∈ c.children, d.IsRegular
  children : ∀ c ∈ node.children, c.KeepsCalls index (node.HasUnreadable index)
  below : ∀ c ∈ node.children, ∀ d ∈ c.children, d.KeepsCalls index (node.HasUnreadable index)

section Forms

variable {node : Concrete}

/-- A node made of `node` that is no call has its `calls` if the nodes in its shape have those of
the children that are kept. -/
theorem calls_mk_eq {shape : Shape Node} (hkind : shape.kind ≠ .call) (hcall : node.isCall = false)
    (h : shape.nodes.flatMap Node.calls = (node.entered forwards).flatMap (calls index)) :
    (Node.mk (node.info index) shape).calls = node.calls index := by
  rw [Node.calls_mk, calls_eq, if_neg hkind, hcall, h]
  rfl

theorem generic_calls (h : node.KeepsBelow index) (kind : String) (hcall : node.isCall = false)
    (hforwards : ∀ i, ∀ c ∈ node.children, node.forwards i c = true) :
    Outcome (do return Node.mk (node.info index) (.generic kind
      (← partsToNodes index node.children))) (fun n => n.calls = node.calls index)
      (node.HasUnreadable index) := by
  refine (partsToNodes_calls h.children).bind fun ns hns => outcome_ok ?_
  rw [Node.calls_mk, if_neg nofun, Shape.nodes, hns, calls_of_forwards hcall hforwards,
    flatMap_calls_parts index h.regular]
  rfl

theorem expressionStatement_calls (h : node.KeepsBelow index)
    (hkind : node.kind = "expression_statement") :
    Outcome (do return Node.mk (node.info index) (.expressionStatement
      (← firstPartToNode index node.children))) (fun n => n.calls = node.calls index)
      (node.HasUnreadable index) := by
  refine (firstPartToNode_calls h.children).bind fun e he => outcome_ok ?_
  rw [Node.calls_mk, if_neg nofun, Shape.nodes, he,
    flatMap_calls_part index h.regular (h.self.single (.inl hkind)),
    calls_of_forwards (isCall_eq_false (by simp [hkind])) fun _ _ _ => by simp [forwards, hkind]]
  rfl

theorem variableDeclaration_calls (h : node.KeepsBelow index)
    (hkind : node.kind = "lexical_declaration" ∨ node.kind = "variable_declaration")
    (keyword : Text) :
    Outcome (do return Node.mk (node.info index) (.variableDeclaration keyword
      (← declaratorsToNodes index node.children))) (fun n => n.calls = node.calls index)
      (node.HasUnreadable index) := by
  have hentered : node.entered forwards =
      node.children.filter fun c => c.kind = "variable_declarator" :=
    entered_of_filter fun _ _ _ => by rcases hkind with hkind | hkind <;> simp [forwards, hkind]
  have hcall : node.isCall = false :=
    isCall_eq_false (by rcases hkind with hkind | hkind <;> simp [hkind])
  refine (declaratorsToNodes_calls h.children).bind fun ns hns => outcome_ok ?_
  refine calls_mk_eq nofun hcall ?_
  rw [Shape.nodes, hns, flatMap_calls_filter_isPart index h.regular, hentered]

/-- The children of an import of a module are not kept, and it has no `calls`. -/
theorem importDeclaration_calls {source : Concrete} (hkind : node.kind = "import_statement")
    (hsource : node.child? "source" = some source) (hstring : source.kind = "string") :
    Outcome (do
      let specifiers ← node.importSpecifiers index
      return Node.mk (node.info index)
        (.importDeclaration specifiers (some (← source.stringLiteral index))))
      (fun n => n.calls = node.calls index) (node.HasUnreadable index) := by
  have hnone : node.calls index = [] := by
    apply calls_of_not_forwards (isCall_eq_false (by simp [hkind]))
    intro i c hc
    simp [forwards, hkind, hsource, hstring]
  have hliteral := (stringLiteral_calls index hstring).imp (fun _ h => h)
    fun _ h => h.of_mem_children (List.mem_of_find?_eq_some hsource)
  refine (importSpecifiers_calls index node).bind fun names hnames =>
    hliteral.bind fun literal hliteral => outcome_ok ?_
  rw [Node.calls_mk, if_neg nofun, Shape.nodes, List.flatMap_append, hnames, Option.toList_some,
    List.flatMap_singleton, hliteral, hnone]
  rfl

/-- The callee of a call is kept and so are its arguments, which are one level further down. -/
theorem call_calls (h : node.KeepsBelow index) (hcall : node.isCall) :
    Outcome (do
      let callee ← fieldToNode index "function" node.children
      let arguments ← argumentsToNodes index node.children
      return Node.mk (node.info index) (.call callee arguments node.isOptional))
      (fun n => n.calls = node.calls index) (node.HasUnreadable index) := by
  obtain ⟨hkind, -, -, arguments, harguments, hkindArguments⟩ := isCall_iff.mp hcall
  have hmem : arguments ∈ node.children := List.mem_of_find?_eq_some harguments
  have hpassed : arguments.calls index = arguments.children.flatMap (calls index) :=
    calls_of_forwards (isCall_eq_false (by simp [hkindArguments]))
      fun _ _ _ => by simp [forwards, hkindArguments]
  have hentered : node.entered forwards =
      (node.child? "function").toList ++ (node.child? "arguments").toList :=
    entered_of_isPlayedBy (by simp) (h.self.call hkind)
      fun _ _ => by simp [forwards, hkind, hcall]
  refine (fieldToNode_calls h.children).bind fun callee hcallee =>
    (argumentsToNodes_calls h.below).bind fun ns hns => outcome_ok ?_
  rw [← child?, harguments, Option.toList_some, List.flatMap_singleton,
    flatMap_calls_parts index (h.regularBelow arguments hmem)] at hns
  rw [Node.calls_mk, calls_eq, if_pos hcall, hentered, List.flatMap_append, harguments,
    Option.toList_some, List.flatMap_singleton, hpassed, ← hns, child?, ← hcallee,
    ← List.flatMap_append]
  rfl

theorem member_calls (h : node.KeepsBelow index) (hkind : node.kind = "member_expression")
    (hobject : (node.child? "object").isSome) (hproperty : (node.child? "property").isSome) :
    Outcome (do
      let object ← fieldToNode index "object" node.children
      let property ← fieldToNode index "property" node.children
      return Node.mk (node.info index) (.member object property node.isOptional))
      (fun n => n.calls = node.calls index) (node.HasUnreadable index) := by
  have hentered : node.entered forwards =
      (node.child? "object").toList ++ (node.child? "property").toList :=
    entered_of_isPlayedBy (by simp) (h.self.member hkind)
      fun _ _ => by simp [forwards, hkind, hobject, hproperty]
  refine (fieldToNode_calls h.children).bind fun object ho =>
    (fieldToNode_calls h.children).bind fun property hp => outcome_ok ?_
  refine calls_mk_eq nofun (isCall_eq_false (by simp [hkind])) ?_
  rw [Shape.nodes, List.flatMap_append, ho, hp, hentered, List.flatMap_append]
  rfl

theorem variableDeclarator_calls (h : node.KeepsBelow index)
    (hkind : node.kind = "variable_declarator") :
    Outcome (do
      let target ← fieldToNode index "name" node.children
      let init ← fieldToNode index "value" node.children
      return Node.mk (node.info index) (.variableDeclarator target init))
      (fun n => n.calls = node.calls index) (node.HasUnreadable index) := by
  have hentered : node.entered forwards =
      (node.child? "name").toList ++ (node.child? "value").toList :=
    entered_of_isPlayedBy (by simp) (h.self.declarator hkind) fun _ _ => by simp [forwards, hkind]
  refine (fieldToNode_calls h.children).bind fun target ht =>
    (fieldToNode_calls h.children).bind fun init hi => outcome_ok ?_
  refine calls_mk_eq nofun (isCall_eq_false (by simp [hkind])) ?_
  rw [Shape.nodes, List.flatMap_append, ht, hi, hentered, List.flatMap_append]
  rfl

/-- Of a template its substitutions are kept, and of each of these the part that it has. -/
theorem template_calls (h : node.KeepsBelow index) (hkind : node.kind = "template_string")
    (chunks : List Text) :
    Outcome (do return Node.mk (node.info index) (.template chunks
      (← substitutionsToNodes index node.children))) (fun n => n.calls = node.calls index)
      (node.HasUnreadable index) := by
  have hnamed : ∀ c : Concrete, (c.isPart && c.kind = "template_substitution") =
      (c.kind = "template_substitution" && !c.anonymous) := by
    intro c
    by_cases hc : c.kind = "template_substitution" <;> simp [isPart, isComment, hc]
  have hentered : node.entered forwards =
      node.children.filter fun c => c.kind = "template_substitution" :=
    entered_of_filter fun _ _ _ => by simp [forwards, hkind]
  refine (substitutionsToNodes_calls h.below).bind fun ns hns => outcome_ok ?_
  refine calls_mk_eq nofun (isCall_eq_false (by simp [hkind])) ?_
  rw [Shape.nodes, hns, hentered, ← flatMap_calls_filter_isPart index h.regular,
    List.filter_congr fun c _ => hnamed c]
  refine List.flatMap_congr fun c hc => ?_
  obtain ⟨hc, hsubstitution⟩ := List.mem_filter.mp hc
  simp only [Bool.and_eq_true, decide_eq_true_eq] at hsubstitution
  rw [flatMap_calls_part index (h.regularBelow c hc)
    ((h.regular c hc).single (.inr hsubstitution.1)),
    calls_of_forwards (isCall_eq_false (by simp [hsubstitution]))]
  intro i d hd
  simp [forwards, hsubstitution]

end Forms

/-! ## All nodes -/

theorem isSome_and_isSome_eq_false {α β : Type} {o : Option α} {p : Option β}
    (h : ∀ a b, o = some a → p = some b → False) : (o.isSome && p.isSome) = false := by
  cases o with
  | none => rfl
  | some a =>
    cases p with
    | none => rfl
    | some b => exact (h a b rfl rfl).elim

/-- The arguments of a call and the parts of a substitution are two levels down, so that `KeepsBelow`
asks for `KeepsCalls` of all that is below `node`. -/
theorem keepsBelow {node : Concrete} (hregular : ∀ m ∈ node.subnodes, m.IsRegular)
    (hkeeps : ∀ c ∈ node.children, ∀ m ∈ c.subnodes,
      (∀ d ∈ m.subnodes, d.IsRegular) → m.KeepsCalls index (m.HasUnreadable index)) :
    node.KeepsBelow index := by
  have hsub : ∀ c ∈ node.children, ∀ m ∈ c.subnodes, m ∈ node.subnodes :=
    fun c hc m => mem_subnodes_of_mem_children hc
  have hsub' : ∀ c ∈ node.children, ∀ d ∈ c.children, ∀ m ∈ d.subnodes, m ∈ node.subnodes :=
    fun c hc d hd m hm => hsub c hc m (mem_subnodes_of_mem_children hd hm)
  constructor
  case self => exact hregular _ (mem_subnodes_self _)
  case regular => exact fun c hc => hregular c (hsub c hc c (mem_subnodes_self c))
  case regularBelow => exact fun c hc d hd => hregular d (hsub' c hc d hd d (mem_subnodes_self d))
  case children =>
    intro c hc
    have hc' := hkeeps c hc c (mem_subnodes_self c) fun m hm => hregular m (hsub c hc m hm)
    exact hc'.imp (fun _ h => h) fun _ h => h.of_mem_children hc
  case below =>
    intro c hc d hd
    have hd' := hkeeps c hc d (mem_subnodes_of_mem_children hd (mem_subnodes_self d))
      fun m hm => hregular m (hsub' c hc d hd m hm)
    exact hd'.imp (fun _ h => h) fun _ h => (h.of_mem_children hd).of_mem_children hc

/-- `toNode` of a regular tree keeps the `calls`; by induction on the size of the tree. -/
theorem toNode_calls {node : Concrete} (hregular : ∀ m ∈ node.subnodes, m.IsRegular) :
    node.KeepsCalls index (node.HasUnreadable index) := by
  induction node using Concrete.induction with
  | step node ih =>
    have hbelow := keepsBelow hregular ih
    -- A comment is made into a node that keeps its children, if it has any.
    have hcomment : ∀ c ∈ node.children, node.isComment = false := by
      intro c hc
      rw [← Bool.not_eq_true]
      intro h
      rw [hbelow.self.leaf (.inr h)] at hc
      cases hc
    obtain ⟨kind, start, stop, field, anonymous, missing, children⟩ := node
    unfold KeepsCalls toNode
    dsimp only
    split
    -- expression_statement
    case h_1 => exact expressionStatement_calls hbelow rfl
    -- lexical_declaration
    case h_2 => exact variableDeclaration_calls hbelow (.inl rfl) _
    -- variable_declaration
    case h_3 => exact variableDeclaration_calls hbelow (.inr rfl) _
    -- variable_declarator
    case h_4 => exact variableDeclarator_calls hbelow rfl
    -- import_statement
    case h_5 =>
      split
      case h_1 hsource =>
        exact generic_calls hbelow _ (isCall_eq_false (by simp)) fun _ _ _ => by
          simp [forwards, hsource]
      case h_2 source hsource =>
        split
        case isTrue hstring => exact importDeclaration_calls rfl hsource hstring
        case isFalse hstring =>
          exact generic_calls hbelow _ (isCall_eq_false (by simp)) fun _ _ _ => by
            simp [forwards, hsource, hstring]
    -- call_expression
    case h_6 =>
      have hgeneric : isCall _ = false → _ := fun hcall =>
        generic_calls hbelow "call_expression" hcall fun _ _ _ => by simp [forwards, hcall]
      split
      case h_1 callee arguments hcallee harguments =>
        split
        case isTrue hkind =>
          exact call_calls hbelow
            (isCall_iff.mpr ⟨rfl, callee, hcallee, arguments, harguments, hkind⟩)
        case isFalse hkind =>
          exact hgeneric (by simp [isCall, harguments, hkind])
      case h_2 hnone =>
        refine hgeneric ?_
        rw [← Bool.not_eq_true, isCall_iff]
        rintro ⟨-, callee, hcallee, arguments, harguments, -⟩
        exact hnone callee arguments hcallee harguments
    -- member_expression
    case h_7 =>
      split
      case h_1 object property hobject hproperty =>
        exact member_calls hbelow rfl (hobject ▸ rfl) (hproperty ▸ rfl)
      case h_2 hnone =>
        have hmissing := isSome_and_isSome_eq_false hnone
        exact generic_calls hbelow _ (isCall_eq_false (by simp)) fun _ _ _ => by
          rw [forwards, hmissing]
          rfl
    -- identifier, property_identifier
    case h_8 | h_9 =>
      refine outcome_ok ((identifier_calls index _).trans ?_)
      exact (calls_of_not_forwards (isCall_eq_false (by simp)) fun _ _ _ => rfl).symm
    -- string
    case h_10 =>
      refine (stringLiteral_calls index rfl).imp (fun n hn => hn.trans ?_) fun _ h => h
      exact (calls_of_not_forwards (isCall_eq_false (by simp)) fun _ _ _ => rfl).symm
    -- template_string
    case h_11 => exact template_calls hbelow rfl _
    -- true, false
    case h_12 | h_13 =>
      refine outcome_ok ?_
      rw [Node.calls_mk, calls_of_not_forwards (isCall_eq_false (by simp)) fun _ _ _ => rfl]
      rfl
    -- any other kind
    case h_14 =>
      refine generic_calls hbelow _ (isCall_eq_false ‹_›) fun i c hc => ?_
      have hcomment := hcomment c hc
      unfold forwards
      split <;> first | rfl | contradiction | simp_all [isComment]

/-- The calls that a traversal of the program enters are those of the concrete tree `root`, in the
order in which they stand there, other than those below a child that is not kept. `toProgram`
succeeds unless a string literal has an escape that is no code point. -/
theorem toProgram_calls (source : Text) {root : Concrete}
    (hregular : ∀ m ∈ root.subnodes, m.IsRegular) :
    (∃ program, root.toProgram source = .ok program ∧
      (program.entered.filter (·.kind = .call)).map (·.info) =
        ((root.children.flatMap (preorder forwards)).filter isCall).map
          (info (SourceIndex.ofText source))) ∨
      ∃ e, root.toProgram source = .error e ∧
        root.HasUnreadable (SourceIndex.ofText source) e := by
  have hkeeps : ∀ c ∈ root.children, c.KeepsCalls (SourceIndex.ofText source)
      (root.HasUnreadable (SourceIndex.ofText source)) := by
    intro c hc
    exact (toNode_calls fun m hm => hregular m (mem_subnodes_of_mem_children hc hm)).imp
      (fun _ h => h) fun _ h => h.of_mem_children hc
  have hparts : ∀ c ∈ root.children, c.IsRegular := fun c hc =>
    hregular c (mem_subnodes_of_mem_children hc (mem_subnodes_self c))
  have houtcome : Outcome (root.toProgram source)
      (fun program => program.calls = root.children.flatMap (calls (SourceIndex.ofText source)))
      (root.HasUnreadable (SourceIndex.ofText source)) := by
    refine (partsToNodes_calls hkeeps).bind fun body hbody => outcome_ok ?_
    rw [Node.calls_mk, if_neg nofun, Shape.nodes, hbody, flatMap_calls_parts _ hparts]
    rfl
  cases hprogram : root.toProgram source with
  | error e =>
    rw [hprogram] at houtcome
    exact .inr ⟨e, rfl, houtcome⟩
  | ok program =>
    rw [hprogram] at houtcome
    refine .inl ⟨program, rfl, ?_⟩
    rw [Node.entered_eq_subnodes, List.filter_flatMap, List.map_flatMap]
    exact houtcome

/-- The tree of an import with attributes, one of them a call, and a call in a call. -/
def attributeCall : Concrete where
  kind := "program"
  start := 0
  stop := 31
  children := [
    { kind := "import_statement", start := 0, stop := 24
      children := [
        { kind := "import", start := 0, stop := 6, anonymous := true },
        { kind := "string", start := 7, stop := 10, field := some "source" },
        { kind := "import_attribute", start := 11, stop := 24
          children := [
            { kind := "with", start := 11, stop := 15, anonymous := true },
            { kind := "object", start := 16, stop := 24
              children := [
                { kind := "pair", start := 17, stop := 23
                  children := [
                    { kind := "property_identifier", start := 17, stop := 18, field := some "key" },
                    (callOf 20 []).asPart "value"] }] }] }] },
    { kind := "expression_statement", start := 25, stop := 31
      children := [callOf 25 [callOf 27 []]] }]
where
  /-- A call of a name of one letter. -/
  callOf (start : Nat) (arguments : List Concrete) : Concrete :=
    let stop := start + 3 + 3 * arguments.length
    { kind := "call_expression", start, stop
      children := [
        { kind := "identifier", start, stop := start + 1, field := some "function" },
        { kind := "arguments", start := start + 1, stop, field := some "arguments"
          children := [{ kind := "(", start := start + 1, stop := start + 2, anonymous := true }] ++
            arguments ++ [{ kind := ")", start := stop - 1, stop, anonymous := true }] }] }

/-- Of the three calls of `attributeCall` the one in the attributes is dropped. -/
theorem toProgram_calls_attributeCall :
    let source := text "import \"m\" with \x7ba: f()\x7d\ng(h())"
    (∀ m ∈ attributeCall.subnodes, m.IsRegular) ∧
      (attributeCall.subnodes.filter isCall).map (·.start) = [20, 25, 27] ∧
      ∃ program, attributeCall.toProgram source = .ok program ∧
        (program.entered.filter (·.kind = .call)).map (·.info.start) = [25, 27] := by
  intro source
  have hregular : ∀ m ∈ attributeCall.subnodes, m.IsRegular := by decide
  refine ⟨hregular, by decide, ?_⟩
  rcases toProgram_calls source hregular with ⟨program, hprogram, hcalls⟩ | ⟨e, herror, -⟩
  · refine ⟨program, hprogram, ?_⟩
    have hstarts := congrArg (List.map (·.start)) hcalls
    rw [List.map_map] at hstarts
    exact hstarts.trans (by decide)
  · cases herror

end Concrete

end FlagFold
