/-
  FlagFold.Proofs.Tree.Sources

  What the nodes of a tree are made of.  The children of a node are made, one each and in
  their order, of concrete nodes below the one that the node itself is made of.  In a
  concrete tree in which siblings come one after the other these are in line as well
  (`toNode_madeInOrder`), though they may be at several levels: the names of an import,
  the arguments of a call and the substitutions of a template are taken from below the
  children.
-/

import FlagFold.Proofs.Tree.Calls
import Mathlib.Data.List.Pairwise

namespace FlagFold

open StringLiteral (NoCodePoint)

/-! ## Spans in line -/

/-- `spans` lie between `a` and `b`, one behind the other. -/
def InLine (a b : Nat) (spans : List (Nat × Nat)) : Prop :=
  (∀ s ∈ spans, a ≤ s.1 ∧ s.1 ≤ s.2 ∧ s.2 ≤ b) ∧ spans.Pairwise (·.2 ≤ ·.1)

section

variable {a b : Nat} {spans spans' : List (Nat × Nat)}

theorem inLine_nil (a b : Nat) : InLine a b [] := ⟨by simp, .nil⟩

theorem inLine_singleton {s : Nat × Nat} :
    InLine a b [s] ↔ a ≤ s.1 ∧ s.1 ≤ s.2 ∧ s.2 ≤ b := by
  simp [InLine]

theorem InLine.mono (h : InLine a b spans) {a' b' : Nat} (ha : a' ≤ a) (hb : b ≤ b') :
    InLine a' b' spans := by
  refine ⟨fun s hs => ?_, h.2⟩
  have := h.1 s hs
  omega

theorem InLine.sublist (h : InLine a b spans) (hsub : spans'.Sublist spans) :
    InLine a b spans' :=
  ⟨fun s hs => h.1 s (hsub.subset hs), h.2.sublist hsub⟩

/-- Spans `below` each of some spans in line, in line within that one, are in line. -/
theorem InLine.flatMap {α : Type} {span : α → Nat × Nat} {below : α → List (Nat × Nat)}
    {xs : List α} (h : InLine a b (xs.map span))
    (hbelow : ∀ x ∈ xs, InLine (span x).1 (span x).2 (below x)) :
    InLine a b (xs.flatMap below) := by
  constructor
  · intro s hs
    obtain ⟨x, hx, hs⟩ := List.mem_flatMap.mp hs
    have hxs := h.1 (span x) (List.mem_map_of_mem hx)
    have := (hbelow x hx).1 s hs
    omega
  · rw [List.pairwise_flatMap]
    refine ⟨fun x hx => (hbelow x hx).2, ?_⟩
    refine (List.pairwise_map.mp h.2).imp_of_mem fun {x y} hx hy hxy s hs s' hs' => ?_
    exact Nat.le_trans ((hbelow x hx).1 s hs).2.2
      (Nat.le_trans hxy ((hbelow y hy).1 s' hs').1)

/-- A monotone `f` keeps spans in line. -/
theorem InLine.map {f : Nat → Nat} (hf : Monotone f) (h : InLine a b spans) :
    InLine (f a) (f b) (spans.map (Prod.map f f)) := by
  constructor
  · intro s hs
    obtain ⟨t, ht, rfl⟩ := List.mem_map.mp hs
    obtain ⟨ha, hle, hb⟩ := h.1 t ht
    exact ⟨hf ha, hf hle, hf hb⟩
  · exact List.pairwise_map.mpr (h.2.imp fun hle => hf hle)

end

namespace Concrete

/-! ## Concrete nodes in line -/

/-- Where `node` starts and where it stops, in bytes. -/
def span (node : Concrete) : Nat × Nat := (node.start, node.stop)

/-- The span of `node` stops no earlier than it starts and holds those of its children, which come
one behind the other; and the children of which the parts of a shape are made stand in the order of
the parts. -/
structure IsOrdered (node : Concrete) : Prop where
  start_le_stop : node.start ≤ node.stop
  inside : ∀ c ∈ node.children, node.start ≤ c.start ∧ c.stop ≤ node.stop
  siblings : node.children.Pairwise (·.stop ≤ ·.start)
  call : node.kind = "call_expression" → node.InOrder "function" "arguments"
  member : node.kind = "member_expression" → node.InOrder "object" "property"
  declarator : node.kind = "variable_declarator" → node.InOrder "name" "value"
  imports : node.kind = "import_statement" →
    node.children.Pairwise fun c d => ¬ (c.field = some "source" ∧ d.kind = "import_clause")

instance (node : Concrete) : Decidable node.IsOrdered :=
  decidable_of_iff
    (node.start ≤ node.stop ∧ (∀ c ∈ node.children, node.start ≤ c.start ∧ c.stop ≤ node.stop) ∧
      node.children.Pairwise (·.stop ≤ ·.start) ∧
      (node.kind = "call_expression" → node.InOrder "function" "arguments") ∧
      (node.kind = "member_expression" → node.InOrder "object" "property") ∧
      (node.kind = "variable_declarator" → node.InOrder "name" "value") ∧
      (node.kind = "import_statement" → node.children.Pairwise
        fun c d => ¬ (c.field = some "source" ∧ d.kind = "import_clause")))
    ⟨fun ⟨le, inside, siblings, call, member, declarator, imports⟩ =>
      ⟨le, inside, siblings, call, member, declarator, imports⟩,
    fun h => ⟨h.start_le_stop, h.inside, h.siblings, h.call, h.member, h.declarator, h.imports⟩⟩

/-- Every node of a concrete tree is ordered. -/
def Ordered (root : Concrete) : Prop := ∀ m ∈ root.subnodes, m.IsOrdered

instance (root : Concrete) : Decidable root.Ordered :=
  inferInstanceAs (Decidable (∀ m ∈ root.subnodes, _))

theorem Ordered.isOrdered {node : Concrete} (h : node.Ordered) : node.IsOrdered :=
  h node (mem_subnodes_self node)

theorem Ordered.of_mem_subnodes {node m : Concrete} (h : node.Ordered) (hm : m ∈ node.subnodes) :
    m.Ordered :=
  fun k hk => h k (mem_subnodes_trans hm hk)

theorem Ordered.of_mem_children {node c : Concrete} (h : node.Ordered) (hc : c ∈ node.children) :
    c.Ordered :=
  h.of_mem_subnodes (mem_subnodes_of_mem_children hc (mem_subnodes_self c))

/-- `ds` are nodes below `node`, in line within its span. -/
structure Holds (node : Concrete) (ds : List Concrete) : Prop where
  line : InLine node.start node.stop (ds.map span)
  below : ∀ d ∈ ds, ∃ c ∈ node.children, d ∈ c.subnodes

variable {node : Concrete} {ds : List Concrete}

theorem holds_children (h : node.Ordered) : node.Holds node.children where
  line := by
    refine ⟨fun s hs => ?_, List.pairwise_map.mpr h.isOrdered.siblings⟩
    obtain ⟨c, hc, rfl⟩ := List.mem_map.mp hs
    have hinside := h.isOrdered.inside c hc
    exact ⟨hinside.1, (h.of_mem_children hc).isOrdered.start_le_stop, hinside.2⟩
  below c hc := ⟨c, hc, mem_subnodes_self c⟩

theorem Holds.sublist {ds' : List Concrete} (h : node.Holds ds) (hsub : ds'.Sublist ds) :
    node.Holds ds' :=
  ⟨h.line.sublist (hsub.map _), fun d hd => h.below d (hsub.subset hd)⟩

theorem Holds.mem_subnodes (h : node.Holds ds) {d : Concrete} (hd : d ∈ ds) :
    d ∈ node.subnodes := by
  obtain ⟨c, hc, hdc⟩ := h.below d hd
  exact mem_subnodes_of_mem_children hc hdc

/-- In the place of each `d` of `ds` there may be nodes `f d` in line within it. -/
theorem Holds.flatMap {f : Concrete → List Concrete} (h : node.Holds ds)
    (hline : ∀ d ∈ ds, InLine d.start d.stop ((f d).map span))
    (hbelow : ∀ d ∈ ds, ∀ e ∈ f d, e ∈ d.subnodes) : node.Holds (ds.flatMap f) where
  line := by
    rw [List.map_flatMap]
    exact h.line.flatMap hline
  below e he := by
    obtain ⟨d, hd, he⟩ := List.mem_flatMap.mp he
    obtain ⟨c, hc, hdc⟩ := h.below d hd
    exact ⟨c, hc, mem_subnodes_trans hdc (hbelow d hd e he)⟩

/-- `ds ++ es` are in line if no `e` of `es` starts before a `d` of `ds` stops. -/
theorem Holds.append {es : List Concrete} (h : node.Holds ds) (h' : node.Holds es)
    (hle : ∀ d ∈ ds, ∀ e ∈ es, d.stop ≤ e.start) : node.Holds (ds ++ es) where
  line := by
    rw [List.map_append]
    refine ⟨fun s hs => ?_, List.pairwise_append.mpr ⟨h.line.2, h'.line.2, fun s hs s' hs' => ?_⟩⟩
    · exact (List.mem_append.mp hs).elim (h.line.1 s) (h'.line.1 s)
    · obtain ⟨d, hd, rfl⟩ := List.mem_map.mp hs
      obtain ⟨e, he, rfl⟩ := List.mem_map.mp hs'
      exact hle d hd e he
  below d hd := (List.mem_append.mp hd).elim (h.below d) (h'.below d)

/-! ## What nodes are made of -/

/-- `n` is a name that an import binds: it has the place of `c`, and what is bound that of `c` or of
a child of it. -/
structure IsNameOf (index : SourceIndex) (c : Concrete) (n : Node) : Prop where
  info : n.info = c.info index
  kind : n.kind.isImportName
  binding : n.children = [] ∨ ∃ d ∈ c :: c.children, n.children = [d.identifier index]

/-- `n` is made of `c`, or is a name made of it. -/
inductive Makes (index : SourceIndex) (c : Concrete) (n : Node) : Prop where
  | node (h : c.toNode index = .ok n)
  | name (h : c.IsNameOf index n)

variable {index : SourceIndex} {cs : List Concrete}

section Lists

/-- `mapM` gives for each of `xs` what `f` gives for it. -/
theorem ensures_mapM_forall₂ {ε α β : Type} {f : α → Except ε β} (xs : List α) :
    Ensures (xs.mapM f) (List.Forall₂ (fun x y => f x = .ok y) xs) := by
  induction xs with
  | nil => exact ensures_ok .nil
  | cons x rest ih =>
    rw [List.mapM_cons]
    exact (ensures_self _).bind fun y hy => ih.bind fun ys hys => ensures_ok (.cons hy hys)

/-- If each of `yss` is related item by item to `f x`, so is their concatenation to that of all
`f x`. -/
theorem forall₂_flatten {α β γ : Type} {R : β → γ → Prop} {f : α → List β} {xs : List α}
    {yss : List (List γ)} (h : List.Forall₂ (fun x ys => List.Forall₂ R (f x) ys) xs yss) :
    List.Forall₂ R (xs.flatMap f) yss.flatten := by
  induction h with
  | nil => exact .nil
  | cons hx _ ih => exact List.rel_append hx ih

/-- Each of `ys` is related to one of `xs`. -/
theorem exists_of_forall₂ {α β : Type} {R : α → β → Prop} {xs : List α} {ys : List β}
    (h : List.Forall₂ R xs ys) {y : β} (hy : y ∈ ys) : ∃ x ∈ xs, R x y := by
  induction h with
  | nil => cases hy
  | cons hxy _ ih =>
    rcases List.mem_cons.mp hy with rfl | hy
    · exact ⟨_, List.mem_cons_self, hxy⟩
    · obtain ⟨x, hx, hR⟩ := ih hy
      exact ⟨x, List.mem_cons_of_mem _ hx, hR⟩

theorem partsToNodes_made :
    Ensures (partsToNodes index cs)
      (List.Forall₂ (fun c n => c.toNode index = .ok n) (cs.filter isPart)) := by
  induction cs with
  | nil => exact ensures_ok .nil
  | cons c rest ih =>
    rw [partsToNodes, List.filter_cons]
    split
    · exact (ensures_self _).bind fun n hn => ih.bind fun ns hns => ensures_ok (.cons hn hns)
    · exact ih

theorem firstPartToNode_made :
    Ensures (firstPartToNode index cs) fun o =>
      List.Forall₂ (fun c n => c.toNode index = .ok n) (cs.find? isPart).toList o.toList := by
  induction cs with
  | nil => exact ensures_ok .nil
  | cons c rest ih =>
    rw [firstPartToNode]
    split
    case isTrue hc =>
      rw [List.find?_cons_of_pos hc]
      exact (ensures_self _).bind fun n hn => ensures_ok (.cons hn .nil)
    case isFalse hc =>
      rw [List.find?_cons_of_neg hc]
      exact ih

theorem fieldToNode_made {field : String} :
    Ensures (fieldToNode index field cs) fun o =>
      List.Forall₂ (fun c n => c.toNode index = .ok n)
        (cs.find? (·.field = some field)).toList o.toList := by
  induction cs with
  | nil => exact ensures_ok .nil
  | cons c rest ih =>
    rw [fieldToNode]
    split
    case isTrue hc =>
      rw [List.find?_cons_of_pos (by simpa using hc)]
      exact (ensures_self _).bind fun n hn => ensures_ok (.cons hn .nil)
    case isFalse hc =>
      rw [List.find?_cons_of_neg (by simpa using hc)]
      exact ih

theorem declaratorsToNodes_made :
    Ensures (declaratorsToNodes index cs)
      (List.Forall₂ (fun c n => c.toNode index = .ok n)
        (cs.filter fun c => c.isPart && c.kind = "variable_declarator")) := by
  induction cs with
  | nil => exact ensures_ok .nil
  | cons c rest ih =>
    rw [declaratorsToNodes, List.filter_cons]
    split
    · exact (ensures_self _).bind fun n hn => ih.bind fun ns hns => ensures_ok (.cons hn hns)
    · exact ih

theorem argumentsToNodes_made :
    Ensures (argumentsToNodes index cs)
      (List.Forall₂ (fun c n => c.toNode index = .ok n)
        ((cs.find? (·.field = some "arguments")).toList.flatMap
          (·.children.filter isPart))) := by
  induction cs with
  | nil => exact ensures_ok .nil
  | cons c rest ih =>
    obtain ⟨kind, start, stop, field, anonymous, missing, children⟩ := c
    rw [argumentsToNodes]
    split
    case isTrue hc =>
      rw [List.find?_cons_of_pos (by simpa using hc), Option.toList_some, List.flatMap_singleton]
      exact partsToNodes_made
    case isFalse hc =>
      rw [List.find?_cons_of_neg (by simpa using hc)]
      exact ih

theorem substitutionsToNodes_made :
    Ensures (substitutionsToNodes index cs)
      (List.Forall₂ (fun c n => c.toNode index = .ok n)
        ((cs.filter fun c => c.kind = "template_substitution" && !c.anonymous).flatMap
          fun c => (c.children.find? isPart).toList)) := by
  induction cs with
  | nil => exact ensures_ok .nil
  | cons c rest ih =>
    obtain ⟨kind, start, stop, field, anonymous, missing, children⟩ := c
    rw [substitutionsToNodes, List.filter_cons]
    split
    · exact firstPartToNode_made.bind fun inner hinner => ih.bind fun ns hns =>
        ensures_ok (List.rel_append hinner hns)
    · exact ih

end Lists

/-! ## Imports -/

/-- The nodes of which the names in `part` of an import clause are made. -/
def nameSources (part : Concrete) : List Concrete :=
  if part.kind = "identifier" then [part]
  else if part.kind = "namespace_import" then
    if (part.namedChildren.find? (·.kind = "identifier")).isSome then [part] else []
  else if part.kind = "named_imports" then part.parts.filter (·.kind = "import_specifier")
  else []

/-- The nodes of which the names that an import binds are made. -/
def importSources (node : Concrete) : List Concrete :=
  ((node.parts.filter (·.kind = "import_clause")).flatMap (·.parts)).flatMap nameSources

theorem importSpecifier_made (index : SourceIndex) (node : Concrete) :
    Ensures (node.importSpecifier index) (node.IsNameOf index) := by
  have hmade : ∀ (imported : Text) (name : Option Concrete),
      (∀ d, name = some d → d ∈ node.children) →
      Ensures (pure (Node.mk (node.info index) (.importSpecifier imported
        (boundName index name))) : Except NoCodePoint Node) (node.IsNameOf index) := by
    intro imported name hname
    refine ensures_ok ⟨rfl, rfl, ?_⟩
    rw [Node.children_mk, Shape.nodes]
    cases hbound : boundName index name with
    | none => exact .inl rfl
    | some n =>
      obtain ⟨d, rfl, rfl⟩ := exists_of_boundName hbound
      exact .inr ⟨d, List.mem_cons_of_mem _ (hname d rfl), rfl⟩
  -- The bound name is the alias, if there is one, and else the name; either is a child.
  have hchild : ∀ d, ((node.child? "alias").orElse fun _ => node.child? "name") = some d →
      d ∈ node.children := by
    intro d hd
    cases halias : node.child? "alias" with
    | none =>
      rw [halias] at hd
      exact List.mem_of_find?_eq_some hd
    | some other =>
      rw [halias] at hd
      cases hd
      exact List.mem_of_find?_eq_some halias
  unfold importSpecifier
  dsimp only
  split
  case h_1 => exact hmade _ _ hchild
  case h_2 =>
    split
    · exact (ensures_self _).bind fun imported _ => hmade imported _ hchild
    · exact hmade _ _ hchild

theorem importPart_made (index : SourceIndex) (node : Concrete) :
    Ensures (node.importPart index) (List.Forall₂ (IsNameOf index) node.nameSources) := by
  unfold importPart nameSources
  split
  · refine ensures_ok (.cons ⟨rfl, rfl, .inr ⟨node, List.mem_cons_self, rfl⟩⟩ .nil)
  · split
    · apply ensures_ok
      cases hfind : node.namedChildren.find? (·.kind = "identifier") with
      | none => exact .nil
      | some d =>
        have hd : d ∈ node.children :=
          (List.mem_filter.mp (List.mem_of_find?_eq_some hfind)).1
        exact .cons ⟨rfl, rfl, .inr ⟨d, List.mem_cons_of_mem _ hd, rfl⟩⟩ .nil
    · split
      · intro ns hns
        exact (ensures_mapM_forall₂ _ ns hns).imp fun c n hn => importSpecifier_made index c n hn
      · exact ensures_ok .nil

theorem importSpecifiers_made (index : SourceIndex) (node : Concrete) :
    Ensures (node.importSpecifiers index)
      (List.Forall₂ (IsNameOf index) node.importSources) := by
  refine (ensures_mapM_forall₂ _).bind fun parts hparts => ensures_ok ?_
  exact forall₂_flatten (hparts.imp fun c ns hns => importPart_made index c ns hns)

/-! ## Children in line -/

theorem holds_nil (node : Concrete) : node.Holds [] := ⟨inLine_nil _ _, by simp⟩

theorem find?_toList_sublist {α : Type} (p : α → Bool) (xs : List α) :
    (xs.find? p).toList.Sublist xs := by
  cases hx : xs.find? p with
  | none => exact List.nil_sublist _
  | some x => exact List.singleton_sublist.mpr (List.mem_of_find?_eq_some hx)

/-- Of two items `x` and `y` of a `Pairwise` list one comes before the other. -/
theorem rel_or_rel_of_pairwise {α : Type} {R : α → α → Prop} {xs : List α} (h : xs.Pairwise R)
    {x y : α} (hx : x ∈ xs) (hy : y ∈ xs) (hne : x ≠ y) : R x y ∨ R y x := by
  have : Std.Symm fun a b => R a b ∨ R b a := ⟨fun _ _ => Or.symm⟩
  exact (h.imp Or.inl : xs.Pairwise fun a b => R a b ∨ R b a).forall hx hy hne

/-- If no child that satisfies `p` comes before one that satisfies `q`, a child `c` with `q` stops
before a child `d` with `p` starts. -/
theorem IsOrdered.stop_le_start (h : node.IsOrdered) {p q : Concrete → Prop} {c d : Concrete}
    (horder : node.children.Pairwise fun x y => ¬ (p x ∧ q y)) (hc : c ∈ node.children)
    (hd : d ∈ node.children) (hne : c ≠ d) (hq : q c) (hp : p d) : c.stop ≤ d.start := by
  rcases rel_or_rel_of_pairwise (h.siblings.and horder) hc hd hne with ⟨hle, -⟩ | ⟨-, hno⟩
  · exact hle
  · exact absurd ⟨hp, hq⟩ hno

theorem child?_mem {field : String} {c : Concrete} (h : node.child? field = some c) :
    c ∈ node.children ∧ c.field = some field :=
  ⟨List.mem_of_find?_eq_some h, by simpa using List.find?_some h⟩

/-- If the parts `first` and `second` are in order, the child that plays the first stops before the
other starts. -/
theorem stop_le_start_of_inOrder (h : node.IsOrdered) {first second : String}
    (hne : first ≠ second) (horder : node.InOrder first second) {c d : Concrete}
    (hc : node.child? first = some c) (hd : node.child? second = some d) : c.stop ≤ d.start := by
  obtain ⟨hc, hfirst⟩ := child?_mem hc
  obtain ⟨hd, hsecond⟩ := child?_mem hd
  refine h.stop_le_start horder hc hd ?_ hfirst hsecond
  rintro rfl
  exact hne (Option.some.inj (hfirst.symm.trans hsecond))

theorem holds_field (h : node.Ordered) (field : String) :
    node.Holds (node.child? field).toList :=
  (holds_children h).sublist (find?_toList_sublist _ _)

theorem holds_fields (h : node.Ordered) {first second : String} (hne : first ≠ second)
    (horder : node.InOrder first second) :
    node.Holds ((node.child? first).toList ++ (node.child? second).toList) := by
  refine (holds_field h first).append (holds_field h second) fun c hc d hd => ?_
  rw [Option.mem_toList] at hc hd
  exact stop_le_start_of_inOrder h.isOrdered hne horder hc hd

/-- Children of nodes in line are in line. -/
theorem Holds.flatMap_children (h : node.Holds ds) (hordered : node.Ordered)
    {f : Concrete → List Concrete} (hf : ∀ d ∈ ds, (f d).Sublist d.children) :
    node.Holds (ds.flatMap f) := by
  have hbelow : ∀ d ∈ ds, d.Holds (f d) := fun d hd =>
    (holds_children (hordered.of_mem_subnodes (h.mem_subnodes hd))).sublist (hf d hd)
  exact h.flatMap (fun d hd => (hbelow d hd).line) fun d hd e he => (hbelow d hd).mem_subnodes he

/-- `node` holds the function that is called, and the arguments. -/
theorem holds_call (h : node.Ordered) (horder : node.InOrder "function" "arguments") :
    node.Holds ((node.child? "function").toList ++
      (node.child? "arguments").toList.flatMap (·.children.filter isPart)) := by
  have harguments := (holds_field h "arguments").flatMap_children h
    fun d _ => List.filter_sublist (p := isPart) (l := d.children)
  refine (holds_field h "function").append harguments fun c hc e he => ?_
  obtain ⟨d, hd, he⟩ := List.mem_flatMap.mp he
  rw [Option.mem_toList] at hc hd
  have hbefore := stop_le_start_of_inOrder h.isOrdered (by simp) horder hc hd
  have hin := (h.of_mem_children (child?_mem hd).1).isOrdered.inside e (List.mem_filter.mp he).1
  exact Nat.le_trans hbefore hin.1

theorem holds_nameSources (h : node.Ordered) :
    InLine node.start node.stop (node.nameSources.map span) ∧
      ∀ d ∈ node.nameSources, d ∈ node.subnodes := by
  have hself : InLine node.start node.stop ([node].map span) :=
    inLine_singleton.mpr ⟨Nat.le_refl _, h.isOrdered.start_le_stop, Nat.le_refl _⟩
  have hparts : node.Holds (node.parts.filter (·.kind = "import_specifier")) := by
    rw [parts_eq]
    exact (holds_children h).sublist (List.filter_sublist.trans List.filter_sublist)
  unfold nameSources
  split
  · exact ⟨hself, by simp [mem_subnodes_self]⟩
  · split
    · split
      · exact ⟨hself, by simp [mem_subnodes_self]⟩
      · exact ⟨inLine_nil _ _, by simp⟩
    · split
      · exact ⟨hparts.line, fun d hd => hparts.mem_subnodes hd⟩
      · exact ⟨inLine_nil _ _, by simp⟩

/-- `node` holds the names that an import binds, and the module. -/
theorem holds_import (h : node.Ordered) (hkind : node.kind = "import_statement")
    {source : Concrete} (hsource : node.child? "source" = some source)
    (hstring : source.kind = "string") : node.Holds (node.importSources ++ [source]) := by
  obtain ⟨hmem, hfield⟩ := child?_mem hsource
  have hclauses : node.Holds (node.parts.filter (·.kind = "import_clause")) := by
    rw [parts_eq]
    exact (holds_children h).sublist (List.filter_sublist.trans List.filter_sublist)
  have hordered : ∀ d ∈ node.subnodes, d.Ordered := fun d hd => h.of_mem_subnodes hd
  have hparts := hclauses.flatMap_children h (f := parts) fun d _ => by
    rw [parts_eq]
    exact List.filter_sublist
  have hnames : node.Holds node.importSources :=
    hparts.flatMap (fun d hd => (holds_nameSources (hordered d (hparts.mem_subnodes hd))).1)
      fun d hd => (holds_nameSources (hordered d (hparts.mem_subnodes hd))).2
  refine hnames.append ((holds_children h).sublist (List.singleton_sublist.mpr hmem))
    fun d hd e he => ?_
  obtain rfl := (List.mem_singleton.mp he).symm
  -- A name lies in a part of a clause, and the clause stands before the module.
  obtain ⟨part, hpart, hd⟩ := List.mem_flatMap.mp hd
  have hpart' := hparts.mem_subnodes hpart
  obtain ⟨clause, hclause, hpart⟩ := List.mem_flatMap.mp hpart
  have hclause' := (List.mem_filter.mp hclause).1
  rw [parts_eq] at hclause' hpart
  have hchild := (List.mem_filter.mp hclause').1
  have hkindClause : clause.kind = "import_clause" := by simpa using (List.mem_filter.mp hclause).2
  have hbefore : clause.stop ≤ source.start := by
    refine h.isOrdered.stop_le_start (h.isOrdered.imports hkind) hchild hmem ?_ hkindClause hfield
    rintro rfl
    rw [hstring] at hkindClause
    simp at hkindClause
  have hin := (h.of_mem_children hchild).isOrdered.inside part (List.mem_filter.mp hpart).1
  have hname := (holds_nameSources (hordered part hpart')).1.1 d.span (List.mem_map_of_mem hd)
  exact Nat.le_trans hname.2.2 (Nat.le_trans hin.2 hbefore)

/-! ## All nodes -/

/-- What is made of an ordered `node` has its place, and children that are made of nodes in line
below it; those of a list of statements are made of `node.parts`. -/
structure MadeInOrder (index : SourceIndex) (node : Concrete) (n : Node) : Prop where
  info : n.info = node.info index
  children : ∃ ds, node.Holds ds ∧ List.Forall₂ (Makes index) ds n.children
  parts : n.kind.isStatementList →
    List.Forall₂ (fun c m => c.toNode index = .ok m) node.parts n.children

theorem toNode_madeInOrder (index : SourceIndex) (h : node.Ordered) :
    Ensures (node.toNode index) (node.MadeInOrder index) := by
  -- The children are made of nodes, other than the names in an import.
  have hnodes : ∀ {ds : List Concrete} {ns : List Node},
      List.Forall₂ (fun c n => c.toNode index = .ok n) ds ns → List.Forall₂ (Makes index) ds ns :=
    fun hmade => hmade.imp fun _ _ => .node
  have hmk : ∀ {shape : Shape Node} {ds : List Concrete},
      shape.kind.isStatementList = false → node.Holds ds →
      List.Forall₂ (fun c n => c.toNode index = .ok n) ds shape.nodes →
      node.MadeInOrder index (.mk (node.info index) shape) := fun hkind hds hmade =>
    ⟨rfl, ⟨_, hds, hnodes hmade⟩, fun hlist => absurd hlist (hkind ▸ Bool.false_ne_true)⟩
  have hleaf : ∀ {shape : Shape Node}, shape.kind.isStatementList = false → shape.nodes = [] →
      node.MadeInOrder index (.mk (node.info index) shape) := fun hkind hnone =>
    hmk hkind (holds_nil node) (hnone ▸ .nil)
  have hgeneric : ∀ kind, Ensures (do return Node.mk (node.info index) (.generic kind
      (← partsToNodes index node.children))) (node.MadeInOrder index) := by
    intro kind
    refine partsToNodes_made.bind fun ns hns => ensures_ok ⟨rfl, ⟨_, ?_, hnodes hns⟩, fun _ => ?_⟩
    · exact (holds_children h).sublist List.filter_sublist
    · rwa [parts_eq]
  obtain ⟨kind, start, stop, field, anonymous, missing, children⟩ := node
  unfold toNode
  dsimp only
  split
  -- expression_statement
  case h_1 =>
    refine firstPartToNode_made.bind fun e he => ensures_ok (hmk rfl ?_ he)
    exact (holds_children h).sublist (find?_toList_sublist _ _)
  -- lexical_declaration, variable_declaration
  case h_2 | h_3 =>
    refine declaratorsToNodes_made.bind fun ds hds => ensures_ok (hmk rfl ?_ hds)
    exact (holds_children h).sublist List.filter_sublist
  -- variable_declarator
  case h_4 =>
    refine fieldToNode_made.bind fun target htarget => fieldToNode_made.bind fun init hinit =>
      ensures_ok (hmk rfl ?_ (List.rel_append htarget hinit))
    exact holds_fields h (by simp) (h.isOrdered.declarator rfl)
  -- import_statement
  case h_5 =>
    split
    case h_1 => exact hgeneric _
    case h_2 source hsource =>
      split
      case isFalse => exact hgeneric _
      case isTrue hstring =>
        refine (importSpecifiers_made index _).bind fun names hnames =>
          (ensures_self _).bind fun literal hliteral => ensures_ok
            ⟨rfl, ⟨_, holds_import h rfl hsource hstring, ?_⟩,
              fun hlist => absurd hlist Bool.false_ne_true⟩
        refine List.rel_append (hnames.imp fun _ _ => .name) (.cons (.node ?_) .nil)
        obtain ⟨_, _, _, _, _, _, _⟩ := source
        obtain rfl := hstring
        rwa [toNode]
  -- call_expression
  case h_6 =>
    split
    case h_1 =>
      split
      case isTrue =>
        refine fieldToNode_made.bind fun callee hcallee =>
          argumentsToNodes_made.bind fun arguments harguments =>
            ensures_ok (hmk rfl ?_ (List.rel_append hcallee harguments))
        exact holds_call h (h.isOrdered.call rfl)
      case isFalse => exact hgeneric _
    case h_2 => exact hgeneric _
  -- member_expression
  case h_7 =>
    split
    case h_1 =>
      refine fieldToNode_made.bind fun object hobject =>
        fieldToNode_made.bind fun property hproperty =>
          ensures_ok (hmk rfl ?_ (List.rel_append hobject hproperty))
      exact holds_fields h (by simp) (h.isOrdered.member rfl)
    case h_2 => exact hgeneric _
  -- identifier, property_identifier
  case h_8 | h_9 => exact ensures_ok (hleaf rfl rfl)
  -- string
  case h_10 => exact (ensures_self _).bind fun _ _ => ensures_ok (hleaf rfl rfl)
  -- template_string
  case h_11 =>
    refine substitutionsToNodes_made.bind fun es hes => ensures_ok (hmk rfl ?_ hes)
    exact ((holds_children h).sublist List.filter_sublist).flatMap_children h
      fun d _ => find?_toList_sublist _ _
  -- true, false
  case h_12 | h_13 => exact ensures_ok (hleaf rfl rfl)
  -- any other kind
  case h_14 => exact hgeneric _

end Concrete
end FlagFold
