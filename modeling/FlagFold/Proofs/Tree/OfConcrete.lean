/-
  FlagFold.Proofs.Tree.OfConcrete

  What holds of every tree that is made of a concrete one, whatever that is: no node
  has a comment or was made by a pass, the parts of each are of the kinds that belong
  there, and a literal is a stretch of the source with the value that it stands for.
-/

import FlagFold.Proofs.Fold.Typed
import FlagFold.Proofs.Print.Edits
import FlagFold.Proofs.World.Steps
import FlagFold.Tree.OfConcrete

namespace FlagFold

open StringLiteral (NoCodePoint)

namespace Node

/-! ## Nodes as they are read -/

/-- A literal `n` is a slice of `source`, and has the value for which this stands. -/
def IsRead (source : Text) (n : Node) : Prop :=
  match n.shape with
  | .string value raw => (∃ a b, raw = source.slice a b) ∧ StringLiteral.decode raw = .ok value
  | .template chunks _ => ∀ t ∈ chunks, ∃ a b, t = source.slice a b
  | _ => True

/-- What holds of each node `n` that is made of `source`: it has no comments, no pass has made it,
it is typed, and `IsRead` from the source. -/
structure Fresh (source : Text) (n : Node) : Prop where
  comments : n.info.comments = []
  synthetic : n.info.synthetic = false
  typed : n.shape.isTyped
  isRead : n.IsRead source

/-- Every node in `n` is made of `source`. -/
def Parsed (source : Text) (n : Node) : Prop := ∀ m ∈ n.subnodes, m.Fresh source

variable {source : Text}

theorem parsed_mk {info : Info} {shape : Shape Node} (h : (mk info shape).Fresh source)
    (hbelow : ∀ c ∈ shape.nodes, c.Parsed source) : (mk info shape).Parsed source := by
  intro m hm
  rw [subnodes, preorder_mk, if_pos rfl, List.mem_cons] at hm
  rcases hm with rfl | hm
  · exact h
  · obtain ⟨c, hc, hm⟩ := List.mem_flatMap.mp hm
    exact hbelow c hc m hm

theorem Parsed.fresh {n : Node} (h : n.Parsed source) : n.Fresh source :=
  h n (mem_subnodes_self n)

theorem Parsed.of_mem_children {n c : Node} (h : n.Parsed source) (hc : c ∈ n.children) :
    c.Parsed source :=
  fun m hm => h m (mem_subnodes_of_mem_children hc hm)

theorem Parsed.of_mem_subnodes {n m : Node} (h : n.Parsed source) (hm : m ∈ n.subnodes) :
    m.Parsed source :=
  fun k hk => h k (mem_subnodes_trans hm hk)

theorem Parsed.untouched {n : Node} (h : n.Parsed source) : n.Untouched :=
  fun m hm => ⟨(h m hm).comments, (h m hm).synthetic⟩

theorem Parsed.wellTyped {n : Node} (h : n.Parsed source) : n.WellTyped :=
  fun m hm => (h m hm).typed

end Node

namespace Concrete

open Node (Parsed)

variable {source : Text}

/-! ## Leaves -/

theorem parsed_identifier (source : Text) (node : Concrete) :
    (node.identifier (SourceIndex.ofText source)).Parsed source := by
  apply Node.parsed_mk
  · exact ⟨rfl, rfl, rfl, trivial⟩
  · simp [Shape.nodes]

theorem stringLiteral_ensures (source : Text) (node : Concrete) :
    Ensures (node.stringLiteral (SourceIndex.ofText source))
      fun n => n.Parsed source ∧ n.kind = .string := by
  refine (ensures_self _).bind fun value hvalue => ensures_ok ?_
  refine ⟨Node.parsed_mk ⟨rfl, rfl, rfl, ?_, hvalue⟩ (by simp [Shape.nodes]), rfl⟩
  exact ⟨_, _, SourceIndex.between_ofText source _ _⟩

/-- The `templateChunks` of a template stand in the source. -/
theorem templateChunks_slice (source : Text) (cursor stop : Nat) (nodes : List Concrete) :
    ∀ t ∈ templateChunks (SourceIndex.ofText source) cursor stop nodes,
      ∃ a b, t = source.slice a b := by
  induction nodes generalizing cursor with
  | nil =>
    intro t ht
    rw [templateChunks, List.mem_singleton, SourceIndex.between_ofText] at ht
    exact ⟨_, _, ht⟩
  | cons node rest ih =>
    intro t ht
    rw [templateChunks] at ht
    split at ht
    · rw [List.mem_cons, SourceIndex.between_ofText] at ht
      rcases ht with ht | ht
      · exact ⟨_, _, ht⟩
      · exact ih _ t ht
    · exact ih _ t ht

/-! ## Imports -/

/-- The name that an import binds by `name`: none if it is in quotes. -/
def boundName (index : SourceIndex) (name : Option Concrete) : Option Node :=
  match name with
  | none => none
  | some n => if n.kind = "string" then none else some (n.identifier index)

theorem exists_of_boundName {index : SourceIndex} {name : Option Concrete} {n : Node}
    (h : boundName index name = some n) :
    ∃ c : Concrete, name = some c ∧ n = c.identifier index := by
  unfold boundName at h
  split at h
  · cases h
  · split at h
    · cases h
    · exact ⟨_, rfl, (Option.some.inj h).symm⟩

theorem importSpecifier_ensures (source : Text) (node : Concrete) :
    Ensures (node.importSpecifier (SourceIndex.ofText source))
      fun n => n.Parsed source ∧ n.kind.isImportName := by
  -- Whatever the name is, it is bound, if at all, to an identifier.
  have hmade : ∀ (imported : Text) (name : Option Concrete), Ensures
      (pure (Node.mk (node.info (SourceIndex.ofText source)) (.importSpecifier imported
        (boundName (SourceIndex.ofText source) name))) : Except NoCodePoint Node)
      fun n => n.Parsed source ∧ n.kind.isImportName := by
    intro imported name
    refine ensures_ok ⟨Node.parsed_mk ⟨rfl, rfl, ?_, trivial⟩ ?_, rfl⟩
    · rw [Node.shape_mk, Shape.isTyped]
      cases hbound : boundName (SourceIndex.ofText source) name with
      | none => rfl
      | some n =>
        obtain ⟨c, -, rfl⟩ := exists_of_boundName hbound
        rfl
    · intro n hn
      rw [Shape.nodes, Option.mem_toList] at hn
      obtain ⟨c, -, rfl⟩ := exists_of_boundName hn
      exact parsed_identifier source c
  unfold importSpecifier
  dsimp only
  split
  · exact hmade _ _
  · split
    · exact (ensures_self _).bind fun imported _ => hmade imported _
    · exact hmade _ _

theorem importPart_ensures (source : Text) (node : Concrete) :
    Ensures (node.importPart (SourceIndex.ofText source))
      fun ns => ∀ n ∈ ns, n.Parsed source ∧ n.kind.isImportName := by
  have hleaf : ∀ (node : Concrete), ∀ c ∈ (some (node.identifier
      (SourceIndex.ofText source))).toList, c.Parsed source := by
    simpa using parsed_identifier source
  unfold importPart
  split
  · apply ensures_ok
    rw [List.forall_mem_singleton]
    exact ⟨Node.parsed_mk ⟨rfl, rfl, rfl, trivial⟩ (hleaf node), rfl⟩
  · split
    · apply ensures_ok
      split
      · simp
      · rw [List.forall_mem_singleton]
        exact ⟨Node.parsed_mk ⟨rfl, rfl, rfl, trivial⟩ (hleaf _), rfl⟩
    · split
      · exact ensures_mapM fun part _ => importSpecifier_ensures source part
      · exact ensures_ok (by simp)

theorem importSpecifiers_ensures (source : Text) (node : Concrete) :
    Ensures (node.importSpecifiers (SourceIndex.ofText source))
      fun ns => ∀ n ∈ ns, n.Parsed source ∧ n.kind.isImportName := by
  refine (ensures_mapM fun part _ => importPart_ensures source part).bind fun parts hparts =>
    ensures_ok ?_
  intro n hn
  obtain ⟨part, hpart, hn⟩ := List.mem_flatten.mp hn
  exact hparts part hpart n hn

/-! ## Lists of nodes -/

section Lists

variable {index : SourceIndex} {P : Node → Prop}

theorem partsToNodes_ensures {cs : List Concrete} (h : ∀ c ∈ cs, Ensures (c.toNode index) P) :
    Ensures (partsToNodes index cs) fun ns => ∀ n ∈ ns, P n := by
  induction cs with
  | nil => exact ensures_ok (by simp)
  | cons c rest ih =>
    rw [List.forall_mem_cons] at h
    rw [partsToNodes]
    split
    · refine h.1.bind fun n hn => (ih h.2).bind fun ns hns => ensures_ok ?_
      exact List.forall_mem_cons.mpr ⟨hn, hns⟩
    · exact ih h.2

theorem firstPartToNode_ensures {cs : List Concrete}
    (h : ∀ c ∈ cs, Ensures (c.toNode index) P) :
    Ensures (firstPartToNode index cs) fun o => ∀ n ∈ o.toList, P n := by
  induction cs with
  | nil => exact ensures_ok (by simp)
  | cons c rest ih =>
    rw [List.forall_mem_cons] at h
    rw [firstPartToNode]
    split
    · exact h.1.bind fun n hn => ensures_ok (by simpa using hn)
    · exact ih h.2

theorem fieldToNode_ensures {field : String} {cs : List Concrete}
    (h : ∀ c ∈ cs, Ensures (c.toNode index) P) :
    Ensures (fieldToNode index field cs) fun o => ∀ n ∈ o.toList, P n := by
  induction cs with
  | nil => exact ensures_ok (by simp)
  | cons c rest ih =>
    rw [List.forall_mem_cons] at h
    rw [fieldToNode]
    split
    · exact h.1.bind fun n hn => ensures_ok (by simpa using hn)
    · exact ih h.2

theorem declaratorsToNodes_ensures {cs : List Concrete}
    (h : ∀ c ∈ cs, c.kind = "variable_declarator" → Ensures (c.toNode index) P) :
    Ensures (declaratorsToNodes index cs) fun ns => ∀ n ∈ ns, P n := by
  induction cs with
  | nil => exact ensures_ok (by simp)
  | cons c rest ih =>
    rw [List.forall_mem_cons] at h
    rw [declaratorsToNodes]
    split
    case isTrue hc =>
      simp only [Bool.and_eq_true, decide_eq_true_eq] at hc
      refine (h.1 hc.2).bind fun n hn => (ih h.2).bind fun ns hns => ensures_ok ?_
      exact List.forall_mem_cons.mpr ⟨hn, hns⟩
    case isFalse => exact ih h.2

theorem argumentsToNodes_ensures {cs : List Concrete}
    (h : ∀ c ∈ cs, ∀ d ∈ c.children, Ensures (d.toNode index) P) :
    Ensures (argumentsToNodes index cs) fun ns => ∀ n ∈ ns, P n := by
  induction cs with
  | nil => exact ensures_ok (by simp)
  | cons c rest ih =>
    rw [List.forall_mem_cons] at h
    obtain ⟨kind, start, stop, field, anonymous, missing, children⟩ := c
    rw [argumentsToNodes]
    split
    · exact partsToNodes_ensures h.1
    · exact ih h.2

theorem substitutionsToNodes_ensures {cs : List Concrete}
    (h : ∀ c ∈ cs, ∀ d ∈ c.children, Ensures (d.toNode index) P) :
    Ensures (substitutionsToNodes index cs) fun ns => ∀ n ∈ ns, P n := by
  induction cs with
  | nil => exact ensures_ok (by simp)
  | cons c rest ih =>
    rw [List.forall_mem_cons] at h
    obtain ⟨kind, start, stop, field, anonymous, missing, children⟩ := c
    rw [substitutionsToNodes]
    split
    · refine (firstPartToNode_ensures h.1).bind fun inner hinner =>
        (ih h.2).bind fun ns hns => ensures_ok ?_
      intro n hn
      exact (List.mem_append.mp hn).elim (hinner n) (hns n)
    · exact ih h.2

end Lists

/-! ## All nodes -/

theorem sizeOf_lt_of_mem_children {node c : Concrete} (h : c ∈ node.children) :
    sizeOf c < sizeOf node := by
  have hlt := List.sizeOf_lt_of_mem h
  cases node
  simp only [mk.sizeOf_spec] at hlt ⊢
  omega

/-- `toNode` of a declarator is a declarator. -/
theorem toNode_ensures_declarator {index : SourceIndex} {node : Concrete}
    (h : node.kind = "variable_declarator") :
    Ensures (node.toNode index) fun n => n.kind = .variableDeclarator := by
  obtain ⟨kind, start, stop, field, anonymous, missing, children⟩ := node
  obtain rfl : kind = "variable_declarator" := h
  rw [toNode]
  exact (ensures_self _).bind fun _ _ => (ensures_self _).bind fun _ _ => ensures_ok rfl

/-- `toNode` gives trees that are `Parsed` from `source`; by induction on the size of the concrete
tree. -/
theorem toNode_ensures (source : Text) (node : Concrete) :
    Ensures (node.toNode (SourceIndex.ofText source)) (Parsed source) := by
  induction hsize : sizeOf node using Nat.strongRecOn generalizing node with
  | ind size ih =>
    have hchildren : ∀ c ∈ node.children,
        Ensures (c.toNode (SourceIndex.ofText source)) (Parsed source) := by
      intro c hc
      exact ih _ (hsize ▸ sizeOf_lt_of_mem_children hc) c rfl
    -- The arguments of a call and the parts of a substitution are two levels down.
    have hbelow : ∀ c ∈ node.children, ∀ d ∈ c.children,
        Ensures (d.toNode (SourceIndex.ofText source)) (Parsed source) := by
      intro c hc d hd
      have hlt := sizeOf_lt_of_mem_children hc
      have hlt' := sizeOf_lt_of_mem_children hd
      exact ih _ (by omega) d rfl
    have hgeneric : ∀ start stop line column kind, Ensures
        (do return Node.mk { start, stop, line, column } (.generic kind
          (← partsToNodes (SourceIndex.ofText source) node.children))) (Parsed source) := by
      intro start stop line column kind
      refine (partsToNodes_ensures hchildren).bind fun ns hns => ensures_ok ?_
      exact Node.parsed_mk ⟨rfl, rfl, rfl, trivial⟩ hns
    obtain ⟨kind, start, stop, field, anonymous, missing, children⟩ := node
    unfold toNode
    dsimp only
    split
    -- expression_statement
    case h_1 =>
      refine (firstPartToNode_ensures hchildren).bind fun e he => ensures_ok ?_
      exact Node.parsed_mk ⟨rfl, rfl, rfl, trivial⟩ he
    -- lexical_declaration, variable_declaration
    case h_2 | h_3 =>
      have hdeclarators := declaratorsToNodes_ensures fun c hc hkind =>
        (hchildren c hc).and (toNode_ensures_declarator hkind)
      refine hdeclarators.bind fun ds hds => ensures_ok ?_
      refine Node.parsed_mk ⟨rfl, rfl, ?_, trivial⟩ fun d hd => (hds d hd).1
      rw [Node.shape_mk, Shape.isTyped, List.all_eq_true]
      exact fun d hd => decide_eq_true (hds d hd).2
    -- variable_declarator
    case h_4 =>
      refine (fieldToNode_ensures hchildren).bind fun target htarget =>
        (fieldToNode_ensures hchildren).bind fun init hinit => ensures_ok ?_
      refine Node.parsed_mk ⟨rfl, rfl, rfl, trivial⟩ fun n hn => ?_
      exact (List.mem_append.mp hn).elim (htarget n) (hinit n)
    -- import_statement
    case h_5 =>
      split
      case h_1 => exact hgeneric _ _ _ _ _
      case h_2 =>
        split
        case isFalse => exact hgeneric _ _ _ _ _
        case isTrue =>
          refine (importSpecifiers_ensures source _).bind fun names hnames =>
            (stringLiteral_ensures source _).bind fun s hs => ensures_ok ?_
          refine Node.parsed_mk ⟨rfl, rfl, ?_, trivial⟩ fun n hn => ?_
          · rw [Node.shape_mk, Shape.isTyped, Bool.and_eq_true, List.all_eq_true]
            exact ⟨fun n hn => (hnames n hn).2, decide_eq_true hs.2⟩
          · rcases List.mem_append.mp hn with hn | hn
            · exact (hnames n hn).1
            · rw [Option.toList_some, List.mem_singleton] at hn
              exact hn ▸ hs.1
    -- call_expression
    case h_6 =>
      split
      case h_1 =>
        split
        case isTrue =>
          refine (fieldToNode_ensures hchildren).bind fun callee hcallee =>
            (argumentsToNodes_ensures hbelow).bind fun arguments harguments => ensures_ok ?_
          refine Node.parsed_mk ⟨rfl, rfl, rfl, trivial⟩ fun n hn => ?_
          exact (List.mem_append.mp hn).elim (hcallee n) (harguments n)
        case isFalse => exact hgeneric _ _ _ _ _
      case h_2 => exact hgeneric _ _ _ _ _
    -- member_expression
    case h_7 =>
      split
      case h_1 =>
        refine (fieldToNode_ensures hchildren).bind fun object hobject =>
          (fieldToNode_ensures hchildren).bind fun property hproperty => ensures_ok ?_
        refine Node.parsed_mk ⟨rfl, rfl, rfl, trivial⟩ fun n hn => ?_
        exact (List.mem_append.mp hn).elim (hobject n) (hproperty n)
      case h_2 => exact hgeneric _ _ _ _ _
    -- identifier, property_identifier
    case h_8 | h_9 => exact ensures_ok (parsed_identifier source _)
    -- string
    case h_10 => exact fun n hn => (stringLiteral_ensures source _ n hn).1
    -- template_string
    case h_11 =>
      refine (substitutionsToNodes_ensures hbelow).bind fun es hes => ensures_ok ?_
      exact Node.parsed_mk ⟨rfl, rfl, rfl, templateChunks_slice source _ _ _⟩ hes
    -- true, false
    case h_12 | h_13 =>
      exact ensures_ok (Node.parsed_mk ⟨rfl, rfl, rfl, trivial⟩ (by simp [Shape.nodes]))
    -- any other kind
    case h_14 => exact hgeneric _ _ _ _ _

/-- `toProgram` gives trees that are `Parsed` from `source`. -/
theorem toProgram_ensures (source : Text) (root : Concrete) :
    Ensures (root.toProgram source) (Parsed source) := by
  have hparts := partsToNodes_ensures fun c (_ : c ∈ root.children) => toNode_ensures source c
  refine hparts.bind fun body hbody => ensures_ok ?_
  exact Node.parsed_mk ⟨rfl, rfl, rfl, trivial⟩ hbody

end Concrete

end FlagFold
