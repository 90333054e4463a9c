/-
  FlagFold.Proofs.Tree.Spans

  The spans of a tree that is made of a concrete one.  If in the concrete tree the spans
  of siblings come one after the other in those of their parents, so they do in the tree
  (`toProgram_laidOut`), which is the order on which the printer relies: the children of
  a node are made of nodes in line below its own concrete node, whatever levels of that
  were left out, and byte offsets are turned into offsets in their order.
-/

import FlagFold.Proofs.Text.Offsets
import FlagFold.Proofs.Tree.Layout
import FlagFold.Proofs.Tree.Sources

namespace FlagFold

namespace Node

/-! ## Trees laid out on their source -/

/-- `n` spans its children if their spans are in line within it. -/
theorem spansChildren_of_inLine {n : Node} (hle : n.info.start ≤ n.info.stop)
    (h : InLine n.info.start n.info.stop (n.children.map span)) : n.SpansChildren := by
  refine ⟨hle, fun c hc => ?_, List.pairwise_map.mp h.2⟩
  obtain ⟨hstart, -, hstop⟩ := h.1 c.span (List.mem_map_of_mem hc)
  exact ⟨hstart, hstop⟩

/-- The nodes in a tree that is `LaidOut` lie in its span. -/
theorem LaidOut.inside {n m : Node} (h : n.LaidOut) (hm : m ∈ n.subnodes) :
    n.info.start ≤ m.info.start ∧ m.info.start ≤ m.info.stop ∧ m.info.stop ≤ n.info.stop := by
  induction n using Node.induction with
  | mk info shape ih =>
    obtain ⟨hle, hchildren, -⟩ := h.spansChildren
    rw [subnodes, preorder_mk, if_pos rfl, List.mem_cons] at hm
    rcases hm with rfl | hm
    · exact ⟨Nat.le_refl _, hle, Nat.le_refl _⟩
    · obtain ⟨c, hc, hm⟩ := List.mem_flatMap.mp hm
      have hcm := ih c hc (h.of_mem_children hc) hm
      have := hchildren c hc
      omega

/-- `subnodes` of a tree that is `LaidOut` come in the order in which they start. -/
theorem LaidOut.pairwise_subnodes {n : Node} (h : n.LaidOut) :
    n.subnodes.Pairwise (·.info.start ≤ ·.info.start) := by
  induction n using Node.induction with
  | mk info shape ih =>
    rw [subnodes, preorder_mk, if_pos rfl, List.pairwise_cons, List.pairwise_flatMap]
    refine ⟨fun m hm => ?_, fun c hc => ih c hc (h.of_mem_children hc), ?_⟩
    · obtain ⟨c, hc, hm⟩ := List.mem_flatMap.mp hm
      exact (h.inside (mem_subnodes_of_mem_children hc hm)).1
    · refine h.spansChildren.2.2.imp_of_mem fun {c d} hc hd hle m hm k hk => ?_
      have hcm := (h.of_mem_children hc).inside hm
      have hdk := (h.of_mem_children hd).inside hk
      omega

end Node

namespace Concrete

variable {source : Text} {node root : Concrete}

/-! ## One node -/

theorem Makes.info {index : SourceIndex} {n : Node} (h : node.Ordered)
    (hmakes : node.Makes index n) :
    n.info = node.info index := by
  cases hmakes with
  | node hn => exact (toNode_madeInOrder index h n hn).info
  | name hn => exact hn.info

/-- Nodes that `Makes` gives have the places of those of which they are made. -/
theorem map_info_of_makes {index : SourceIndex} {ds : List Concrete} {ns : List Node}
    (h : ∀ d ∈ ds, d.Ordered) (hmakes : List.Forall₂ (Makes index) ds ns) :
    ns.map (·.info) = ds.map (info index) := by
  induction hmakes with
  | nil => rfl
  | cons hmakes _ ih =>
    rw [List.forall_mem_cons] at h
    rw [List.map_cons, List.map_cons, ih h.2, hmakes.info h.1]

/-- `toChar` keeps nodes in line: if `ns` have the places of `ds`, and these are in line from `a` to
`b`, so are `ns`. -/
theorem inLine_of_map_info {a b : Nat} {ds : List Concrete} {ns : List Node}
    (hline : InLine a b (ds.map span))
    (hinfos : ns.map (·.info) = ds.map (info (SourceIndex.ofText source))) :
    InLine (source.offsets.toChar a) (source.offsets.toChar b) (ns.map Node.span) := by
  have hspans : ns.map Node.span =
      (ds.map span).map (Prod.map source.offsets.toChar source.offsets.toChar) := by
    have h := congrArg (List.map fun i : Info => (i.start, i.stop)) hinfos
    rw [List.map_map, List.map_map] at h
    rw [List.map_map]
    exact h
  rw [hspans]
  exact hline.map source.toChar_mono

/-- A node with the place of `node` spans its children if these have the places of nodes `ds` in
line within that one. -/
theorem spansChildren_of_line {n : Node} (ds : List Concrete) (hle : node.start ≤ node.stop)
    (hline : InLine node.start node.stop (ds.map span))
    (hinfo : n.info = node.info (SourceIndex.ofText source))
    (hinfos : n.children.map (·.info) = ds.map (info (SourceIndex.ofText source))) :
    n.SpansChildren := by
  have hchildren := inLine_of_map_info hline hinfos
  refine Node.spansChildren_of_inLine ?_ ?_ <;> rw [hinfo]
  · exact source.toChar_mono hle
  · exact hchildren

theorem MadeInOrder.spansChildren {n : Node} (h : node.Ordered)
    (hmade : node.MadeInOrder (SourceIndex.ofText source) n) : n.SpansChildren := by
  obtain ⟨ds, hds, hchildren⟩ := hmade.children
  have hordered : ∀ d ∈ ds, d.Ordered := fun d hd => h.of_mem_subnodes (hds.mem_subnodes hd)
  exact spansChildren_of_line ds h.isOrdered.start_le_stop hds.line hmade.info
    (map_info_of_makes hordered hchildren)

/-! ## All nodes -/

/-- What holds of every node `m` below one that is made of `root`: it spans its children, and a list
of statements is made of a node itself. -/
structure Below (source : Text) (root : Concrete) (m : Node) : Prop where
  spansChildren : m.SpansChildren
  made : m.kind.isStatementList →
    ∃ node ∈ root.subnodes, node.toNode (SourceIndex.ofText source) = .ok m

theorem Below.of_mem_subnodes {m : Node} (h : node.Below source m) (hnode : node ∈ root.subnodes) :
    root.Below source m where
  spansChildren := h.spansChildren
  made hlist := by
    obtain ⟨d, hd, hmade⟩ := h.made hlist
    exact ⟨d, mem_subnodes_trans hnode hd, hmade⟩

theorem below_identifier (h : node.Ordered) :
    ∀ m ∈ (node.identifier (SourceIndex.ofText source)).subnodes, root.Below source m := by
  intro m hm
  rw [identifier, Node.subnodes, Node.preorder_mk, if_pos rfl, List.mem_cons] at hm
  rcases hm with rfl | hm
  · exact ⟨spansChildren_of_line [] h.isOrdered.start_le_stop (inLine_nil _ _) rfl rfl,
      fun hlist => absurd hlist Bool.false_ne_true⟩
  · simp [Shape.nodes] at hm

/-- A name that an import binds, and what is bound, are `Below` the root. -/
theorem IsNameOf.below {n : Node} (h : node.Ordered)
    (hname : node.IsNameOf (SourceIndex.ofText source) n) :
    ∀ m ∈ n.subnodes, root.Below source m := by
  have hself : InLine node.start node.stop ([node].map span) :=
    inLine_singleton.mpr ⟨Nat.le_refl _, h.isOrdered.start_le_stop, Nat.le_refl _⟩
  have hkind : ¬ n.kind.isStatementList := by
    have hkind := hname.kind
    revert hkind
    cases n.kind with
    | importDefault | importNamespace | importSpecifier => exact fun _ => Bool.false_ne_true
    | _ => nofun
  obtain ⟨info, shape⟩ := n
  intro m hm
  rw [Node.subnodes, Node.preorder_mk, if_pos rfl, List.mem_cons] at hm
  -- A name holds at most one identifier, made of `node` or of one of its children.
  have hbinding := hname.binding
  rw [Node.children_mk] at hbinding
  rcases hm with rfl | hm
  · refine ⟨?_, fun hlist => absurd hlist hkind⟩
    rcases hbinding with hnone | ⟨d, hd, hone⟩
    · exact spansChildren_of_line [] h.isOrdered.start_le_stop (inLine_nil _ _) hname.info
        (congrArg (List.map _) hnone)
    · refine spansChildren_of_line [d] h.isOrdered.start_le_stop ?_ hname.info
        (congrArg (List.map _) hone)
      rcases List.mem_cons.mp hd with rfl | hd
      · exact hself
      · exact ((holds_children h).sublist (List.singleton_sublist.mpr hd)).line
  · obtain ⟨c, hc, hm⟩ := List.mem_flatMap.mp hm
    rcases hbinding with hnone | ⟨d, hd, hone⟩
    · rw [hnone] at hc
      cases hc
    · rw [hone, List.mem_singleton] at hc
      rw [hc] at hm
      refine below_identifier ?_ m hm
      rcases List.mem_cons.mp hd with rfl | hd
      · exact h
      · exact h.of_mem_children hd

/-- Every node below one that is made of an `Ordered` concrete tree spans its children. -/
theorem below_of_toNode {n : Node} (h : node.Ordered)
    (hn : node.toNode (SourceIndex.ofText source) = .ok n) :
    ∀ m ∈ n.subnodes, node.Below source m := by
  induction node using Concrete.induction generalizing n with
  | step node ih =>
    have hmade := toNode_madeInOrder _ h n hn
    obtain ⟨info, shape⟩ := n
    intro m hm
    rw [Node.subnodes, Node.preorder_mk, if_pos rfl, List.mem_cons] at hm
    rcases hm with rfl | hm
    · exact ⟨hmade.spansChildren h, fun _ => ⟨node, mem_subnodes_self node, hn⟩⟩
    · obtain ⟨c, hc, hm⟩ := List.mem_flatMap.mp hm
      obtain ⟨ds, hds, hchildren⟩ := hmade.children
      obtain ⟨d, hd, hmakes⟩ := exists_of_forall₂ hchildren hc
      have hd' := hds.mem_subnodes hd
      have hordered := h.of_mem_subnodes hd'
      cases hmakes with
      | name hname => exact hname.below hordered m hm
      | node hnode =>
        -- What a node is made of may be several levels below it.
        obtain ⟨e, he, hde⟩ := hds.below d hd
        exact (ih e he d hde hordered hnode m hm).of_mem_subnodes hd'

/-! ## Programs -/

/-- `root` is in order, and its nodes start and stop where code points of `source` do. -/
structure LiesIn (source : Text) (root : Concrete) : Prop where
  ordered : root.Ordered
  start_mem : ∀ m ∈ root.subnodes, m.start ∈ source.byteStarts
  stop_mem : ∀ m ∈ root.subnodes, m.stop ∈ source.byteStarts

instance (source : Text) (root : Concrete) : Decidable (root.LiesIn source) :=
  decidable_of_iff (root.Ordered ∧ (∀ m ∈ root.subnodes, m.start ∈ source.byteStarts) ∧
      ∀ m ∈ root.subnodes, m.stop ∈ source.byteStarts)
    ⟨fun ⟨ordered, starts, stops⟩ => ⟨ordered, starts, stops⟩,
      fun h => ⟨h.ordered, h.start_mem, h.stop_mem⟩⟩

/-- `n` holds what is made of the parts of `node`, one node each in their order; where a part starts
or stops strictly within `node`, so does its node within `n`. -/
def Lists (source : Text) (node : Concrete) (n : Node) : Prop :=
  List.Forall₂ (fun part m => part.toNode (SourceIndex.ofText source) = .ok m ∧
    (node.start < part.start → n.info.start < m.info.start) ∧
    (part.stop < node.stop → m.info.stop < n.info.stop)) node.parts n.children

/-- Every node `n` that is made of the parts of `node`, and starts no later and stops no earlier,
`Lists` them. -/
theorem LiesIn.lists (h : root.LiesIn source) (hnode : node ∈ root.subnodes) {n : Node}
    (hparts : List.Forall₂ (fun c m => c.toNode (SourceIndex.ofText source) = .ok m) node.parts
      n.children)
    (hstart : n.info.start ≤ source.offsets.toChar node.start)
    (hstop : source.offsets.toChar node.stop ≤ n.info.stop) : node.Lists source n := by
  have hmem : ∀ c ∈ node.parts, c ∈ root.subnodes := by
    intro c hc
    rw [parts_eq] at hc
    exact mem_subnodes_trans hnode
      (mem_subnodes_of_mem_children (List.mem_filter.mp hc).1 (mem_subnodes_self c))
  refine (List.forall₂_iff_zip.mpr ⟨hparts.length_eq, fun {c m} hcm => ?_⟩)
  have hmade := List.forall₂_zip hparts hcm
  have hc := hmem c (List.of_mem_zip hcm).1
  have hinfo := (toNode_madeInOrder _ (h.ordered.of_mem_subnodes hc) m hmade).info
  refine ⟨hmade, fun hlt => ?_, fun hlt => ?_⟩
  · rw [hinfo]
    exact Nat.lt_of_le_of_lt hstart
      (Text.toChar_lt (h.start_mem node hnode) (h.start_mem c hc) hlt)
  · rw [hinfo]
    exact Nat.lt_of_lt_of_le (Text.toChar_lt (h.stop_mem c hc) (h.stop_mem node hnode) hlt) hstop

/-- In the program of a concrete tree that `LiesIn` its source every node spans its children, which
come one behind the other, and lies in the source; a traversal enters the nodes in the order in
which they start; and each list of statements has one for each part of a concrete node, strictly
within it on either side where the part is strictly within that node. -/
theorem toProgram_laidOut {program : Node} (h : root.LiesIn source)
    (hprogram : root.toProgram source = .ok program) :
    program.LaidOut ∧
    (∀ m ∈ program.subnodes, m.info.start ≤ m.info.stop ∧ m.info.stop ≤ source.length) ∧
    program.entered.Pairwise (·.info.start ≤ ·.info.start) ∧
    ∀ list ∈ program.subnodes, list.kind.isStatementList → ∃ node ∈ root.subnodes,
      (list = program ∧ node = root ∨ node.toNode (SourceIndex.ofText source) = .ok list) ∧
      node.Lists source list := by
  obtain ⟨body, hbody, hprogram⟩ := exists_of_bind_eq_ok hprogram
  cases hprogram
  have hself := mem_subnodes_self root
  have hmade := partsToNodes_made body hbody
  have hrow := (holds_children h.ordered).sublist (List.filter_sublist (p := isPart))
  have hordered : ∀ c ∈ root.children.filter isPart, c.Ordered := fun c hc =>
    h.ordered.of_mem_children (List.mem_filter.mp hc).1
  -- The program has no place of a concrete node: it is all of the source.
  have hspans :
      (Node.mk ⟨0, source.length, 1, 1, [], false⟩ (.program body source)).SpansChildren := by
    have hinfos := map_info_of_makes hordered (hmade.imp fun _ _ => .node)
    exact Node.spansChildren_of_inLine (Nat.zero_le _) ((inLine_of_map_info hrow.line hinfos).mono
      (Nat.zero_le _) (Text.toChar_le_length (h.stop_mem root hself)))
  have hbelow : ∀ m ∈ body.flatMap Node.subnodes, root.Below source m := by
    intro m hm
    obtain ⟨n, hn, hm⟩ := List.mem_flatMap.mp hm
    obtain ⟨c, hc, hcn⟩ := exists_of_forall₂ hmade hn
    have hc' := mem_subnodes_of_mem_children (List.mem_filter.mp hc).1 (mem_subnodes_self c)
    exact (below_of_toNode (hordered c hc) hcn m hm).of_mem_subnodes hc'
  have hlaidOut : (Node.mk ⟨0, source.length, 1, 1, [], false⟩ (.program body source)).LaidOut := by
    intro m hm
    rw [Node.subnodes, Node.preorder_mk, if_pos rfl, List.mem_cons] at hm
    rcases hm with rfl | hm
    · exact hspans
    · exact (hbelow m hm).spansChildren
  refine ⟨hlaidOut, fun m hm => (hlaidOut.inside hm).2, ?_, fun list hlist hkind => ?_⟩
  · rw [Node.entered_eq_subnodes]
    exact hlaidOut.pairwise_subnodes
  · rw [Node.subnodes, Node.preorder_mk, if_pos rfl, List.mem_cons] at hlist
    rcases hlist with rfl | hlist
    · refine ⟨root, hself, .inl ⟨rfl, rfl⟩, h.lists hself ?_ (Nat.zero_le _)
        (Text.toChar_le_length (h.stop_mem root hself))⟩
      rwa [parts_eq]
    · obtain ⟨node, hnode, hmade⟩ := (hbelow list hlist).made hkind
      have hlistMade := toNode_madeInOrder _ (h.ordered.of_mem_subnodes hnode) list hmade
      refine ⟨node, hnode, .inr hmade, h.lists hnode (hlistMade.parts hkind) ?_ ?_⟩
      · exact Nat.le_of_eq (congrArg Info.start hlistMade.info)
      · exact Nat.le_of_eq (congrArg Info.stop hlistMade.info).symm

/-- The tree of an import and of a block with a call, in a source with two letters of two bytes. -/
def importAndBlock : Concrete where
  kind := "program"
  start := 0
  stop := 25
  children := [
    { kind := "import_statement", start := 0, stop := 18
      children := [
        { kind := "import", start := 0, stop := 6, anonymous := true },
        { kind := "import_clause", start := 6, stop := 9
          children := [{ kind := "named_imports", start := 6, stop := 9
                         children := [{ kind := "import_specifier", start := 7, stop := 8
                                        children := [{ kind := "identifier", start := 7, stop := 8
                                                       field := some "name" }] }] }] },
        { kind := "from", start := 9, stop := 13, anonymous := true },
        { kind := "string", start := 13, stop := 17, field := some "source" }] },
    { kind := "statement_block", start := 18, stop := 25
      children := [
        { kind := "expression_statement", start := 19, stop := 24
          children := [
            { kind := "call_expression", start := 19, stop := 24
              children := [
                { kind := "identifier", start := 19, stop := 21, field := some "function" },
                { kind := "arguments", start := 21, stop := 24, field := some "arguments"
                  children := [{ kind := "identifier", start := 22, stop := 23 }] }] }] }] }]

/-- In `importAndBlock` the call is the only node that lies strictly in a list of statements on both
sides; the places are those of code points. -/
theorem toProgram_laidOut_importAndBlock :
    let source := text "import\x7bb\x7dfrom'é';\x7bé(c)\x7d"
    importAndBlock.LiesIn source ∧ ∃ program, importAndBlock.toProgram source = .ok program ∧
      program.LaidOut ∧
      program.entered.map (fun m => (m.kind.name, m.info.start, m.info.stop)) =
        [("Program", 0, 23), ("ImportDeclaration", 0, 17), ("ImportSpecifier", 7, 8),
          ("Identifier", 7, 8), ("StringLiteral", 13, 16), ("statement_block", 17, 23),
          ("ExpressionStatement", 18, 22), ("CallExpression", 18, 22), ("Identifier", 18, 19),
          ("Identifier", 20, 21)] := by
  intro source
  have h : importAndBlock.LiesIn source := by decide
  obtain ⟨program, hprogram⟩ : ∃ program, importAndBlock.toProgram source = .ok program := ⟨_, rfl⟩
  refine ⟨h, program, hprogram, (toProgram_laidOut h hprogram).1, ?_⟩
  cases hprogram
  rfl

end Concrete
end FlagFold
