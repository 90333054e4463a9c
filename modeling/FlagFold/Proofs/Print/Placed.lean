/-
  FlagFold.Proofs.Print.Placed

  Trees that the passes have left in order on their source (`Node.Placed`).  Every
  edit for which such a tree asks has a site of its own (`Sites`), and so the tree
  is printed unless the cuts for two removed statements take the same blanks.
-/

import FlagFold.Proofs.Print.Program
import FlagFold.Proofs.Print.Sites
import FlagFold.Proofs.Tree.Layout
import Mathlib.Data.List.Pairwise
import Mathlib.Tactic.Choose

namespace FlagFold

/-! ## Nodes on their source -/

namespace Node

/-- `n` is a placeholder: a pass has made it, and its kind is `removed`. -/
def isPlaceholder (n : Node) : Bool := n.info.synthetic && n.kind = .removed

/-- The nodes of `n` that ask for edits of their own: none below a node that a pass has made. -/
def printed (n : Node) : List Node := n.preorder fun m => !m.info.synthetic

/-- The placeholders among the `printed` nodes of `n`. -/
def placeholders (n : Node) : List Node := n.printed.filter (·.isPlaceholder)

/-- A made node `n` takes the place of a visible span, and unless it is a placeholder `generate`
gives its text and it has no comments. -/
structure Replaces (sheet : Sheet) (n : Node) : Prop where
  encloses : sheet.source.encloses n.info.start n.info.stop
  text : n.kind ≠ .removed → n.info.comments = [] ∧ ∃ t, sheet.generate n.shape = .ok t

/-- The closing `brace` of `n` comes behind its first character and all its children. It is the last
character of `n`, or a comment that belongs to `n` comes behind it. -/
def IsBraced (source : Text) (n : Node) : Prop :=
  source.closesAt n.info.stop ∧
    ∃ brace < n.info.stop, n.info.start < brace ∧ source.isVisibleAt brace ∧
      ∀ c ∈ n.children, c.info.stop ≤ brace

instance (source : Text) (n : Node) : Decidable (IsBraced source n) :=
  inferInstanceAs (Decidable (_ ∧ ∃ brace < n.info.stop, _ ∧ _ ∧ _))

/-- `IsBraced` depends on the span of the node and the spans of its children only. -/
theorem IsBraced.of_span {source : Text} {n n' : Node} (h : n.IsBraced source)
    (hspan : n'.span = n.span) (hchildren : n'.children.map span = n.children.map span) :
    n'.IsBraced source := by
  obtain ⟨hcloses, brace, hlt, hfirst, hvisible, hinside⟩ := h
  have hstart : n'.info.start = n.info.start := congrArg Prod.fst hspan
  have hstop : n'.info.stop = n.info.stop := congrArg Prod.snd hspan
  refine ⟨hstop ▸ hcloses, brace, hstop ▸ hlt, hstart ▸ hfirst, hvisible, fun c hc => ?_⟩
  obtain ⟨d, hd, -, hend⟩ := exists_of_map_span hchildren hc
  exact hend ▸ hinside d hd

/-- A node that no pass has made spans its children and has comments only before something visible,
or at the end of a list in braces. -/
structure Stays (sheet : Sheet) (n : Node) : Prop where
  spans : n.SpansChildren
  leading : ∀ c ∈ n.info.comments, c.leading →
    n.info.start < n.info.stop ∧ sheet.source.isVisibleAt n.info.start
  trailing : ∀ c ∈ n.info.comments, c.leading = false →
    n.kind.isBracedList ∧ n.IsBraced sheet.source
  /-- No placeholder comes first in it. -/
  cuts : ∀ c ∈ n.children, c.isPlaceholder → n.info.start < c.info.start

/-- A made node of the tree `Replaces` something, and any other `Stays`. -/
def Placed (sheet : Sheet) (n : Node) : Prop :=
  (n.info.synthetic → n.Replaces sheet) ∧ (n.info.synthetic = false → n.Stays sheet)

theorem printed_of_synthetic {n : Node} (h : n.info.synthetic) : n.printed = [n] :=
  preorder_of_not_enter (by rw [h]; rfl)

theorem printed_mk {info : Info} (h : info.synthetic = false) (shape : Shape Node) :
    (mk info shape).printed = mk info shape :: shape.nodes.flatMap printed := by
  rw [printed, preorder_mk, info_mk, h]
  rfl

theorem printed_of_not_synthetic {n : Node} (h : n.info.synthetic = false) :
    n.printed = n :: n.children.flatMap printed := by
  cases n with
  | mk info shape => exact printed_mk h shape

theorem placeholders_of_synthetic {n : Node} (h : n.info.synthetic) :
    n.placeholders = if n.kind = .removed then [n] else [] := by
  rw [placeholders, printed_of_synthetic h, List.filter_singleton, isPlaceholder, h,
    Bool.true_and]
  simp

theorem placeholders_mk {info : Info} (h : info.synthetic = false) (shape : Shape Node) :
    (mk info shape).placeholders = shape.nodes.flatMap placeholders := by
  have hself : (mk info shape).isPlaceholder = false := by rw [isPlaceholder, info_mk, h]; rfl
  rw [placeholders, printed_mk h, List.filter_cons_of_neg (by simp [hself]),
    List.filter_flatMap]
  rfl

theorem placeholders_of_not_synthetic {n : Node} (h : n.info.synthetic = false) :
    n.placeholders = n.children.flatMap placeholders := by
  cases n with
  | mk info shape => exact placeholders_mk h shape

end Node

/-! ## The sites of a tree -/

namespace Site

/-- The spans of the sites of the kind `cut`. -/
def cutSpans (sites : List Site) : List (Nat × Nat) :=
  (sites.filter (·.kind = .cut)).map fun s => (s.start, s.stop)

theorem cutSpans_append (sites later : List Site) :
    cutSpans (sites ++ later) = cutSpans sites ++ cutSpans later := by
  rw [cutSpans, List.filter_append, List.map_append]
  rfl

theorem cutSpans_eq_nil {sites : List Site} (h : ∀ s ∈ sites, s.kind ≠ .cut) :
    cutSpans sites = [] := by
  rw [cutSpans, List.map_eq_nil_iff, List.filter_eq_nil_iff]
  intro s hs
  simpa using h s hs

theorem mem_cutSpans {sites : List Site} {span : Nat × Nat} :
    span ∈ cutSpans sites ↔ ∃ s ∈ sites, s.kind = .cut ∧ (s.start, s.stop) = span := by
  simp [cutSpans, and_assoc]

/-- If each two of `sites` are `Ordered`, their edits are pairwise `Apart` just if no two of their
`cutSpans` share blanks. -/
theorem pairwise_apart_iff {source : Text} {sites : List Site}
    (hsound : ∀ s ∈ sites, s.Sound source) (hordered : sites.Pairwise Ordered) :
    (sites.map (·.edit)).Pairwise Edit.Apart ↔
      ∀ a ∈ cutSpans sites, ∀ b ∈ cutSpans sites, ¬ source.sharesBlanks a.2 b.1 b.2 := by
  rw [List.pairwise_map]
  constructor
  · intro hapart a ha b hb hshares
    obtain ⟨s, hs, hscut, rfl⟩ := mem_cutSpans.mp ha
    obtain ⟨t, ht, htcut, rfl⟩ := mem_cutSpans.mp hb
    have hlt : s.stop < t.start := by
      simp only [Text.sharesBlanks, Bool.and_eq_true, decide_eq_true_eq] at hshares
      exact hshares.1.1
    have hspan := (hsound s hs).span
    have hspan' := (hsound t ht).span
    -- The two sites may come in either order in the list.
    have : Std.Symm fun s t : Site => s.Ordered t ∧ s.edit.Apart t.edit :=
      ⟨fun _ _ h => ⟨h.1.symm, h.2.symm⟩⟩
    have hboth := (hordered.and hapart).forall hs ht (by rintro rfl; omega)
    rcases hboth.1 with hbefore | ⟨hafter, -⟩
    · exact (apart_iff_of_before (hsound s hs) (hsound t ht) hbefore).mp hboth.2
        ⟨hscut, htcut, hshares⟩
    · omega
  · intro hshares
    have hdisjoint : ∀ {s t : Site}, s ∈ sites → t ∈ sites → Before s t →
        s.edit.Apart t.edit := by
      intro s t hs ht hbefore
      rw [apart_iff_of_before (hsound s hs) (hsound t ht) hbefore]
      rintro ⟨hscut, htcut, h⟩
      exact hshares _ (mem_cutSpans.mpr ⟨s, hs, hscut, rfl⟩) _
        (mem_cutSpans.mpr ⟨t, ht, htcut, rfl⟩) h
    -- Of any two sites one comes before the other.
    apply hordered.imp_of_mem
    intro s t hs ht h
    rcases h with hbefore | hbefore
    · exact hdisjoint hs ht hbefore
    · exact (hdisjoint ht hs hbefore).symm

end Site

/-- `sites` are the sites of all edits that `sheet` makes for the tree `n`, in this order. -/
structure Sites (sheet : Sheet) (n : Node) (sites : List Site) : Prop where
  edits : sheet.edits n = .ok (sites.map (·.edit))
  sound : ∀ s ∈ sites, s.Sound sheet.source
  inside : ∀ s ∈ sites,
    n.info.start ≤ s.start ∧ s.start < n.info.stop ∧ s.stop ≤ n.info.stop
  first : n.isPlaceholder = false → ∀ s ∈ sites, s.kind = .exact ∨ n.info.start < s.start
  ordered : sites.Pairwise Site.Ordered
  cuts : Site.cutSpans sites = n.placeholders.map Node.span

/-- The site `s` of the comments before a node is empty and at `info.start`. -/
structure Site.Leads (source : Text) (info : Info) (s : Site) : Prop where
  sound : s.Sound source
  kind : s.kind = .exact
  start : s.start = info.start
  stop : s.stop = info.start
  lt : info.start < info.stop

/-- The site `s` of the comments at the end of a list starts with its closing brace, behind all the
children of `n`. -/
structure Site.Closes (source : Text) (n : Node) (s : Site) : Prop where
  sound : s.Sound source
  kind : s.kind ≠ .cut
  lt_start : n.info.start < s.start
  start_lt : s.start < n.info.stop
  stop_le : s.stop ≤ n.info.stop
  children : ∀ c ∈ n.children, c.info.stop ≤ s.start

/-- The site `s` lies in a child of `n`, and starts later than `n` unless its kind is `exact`. -/
structure Site.Below (source : Text) (n : Node) (s : Site) : Prop where
  sound : s.Sound source
  child : ∃ c ∈ n.children, s.start < c.info.stop ∧ s.stop ≤ c.info.stop
  start_le : n.info.start ≤ s.start
  start_lt : s.start < n.info.stop
  stop_le : s.stop ≤ n.info.stop
  late : s.kind = .exact ∨ n.info.start < s.start

/-- The site of the comments before a node is `Ordered` with every site below it. -/
theorem Site.Leads.ordered_below {source : Text} {info : Info} {shape : Shape Node} {s t : Site}
    (hs : s.Leads source info) (ht : t.Below source (.mk info shape)) : s.Ordered t := by
  have hstart : info.start ≤ t.start := ht.start_le
  have hs' := hs.start
  have hstop := hs.stop
  refine .inl ⟨by omega, ?_⟩
  rcases ht.late with hexact | hlate
  · exact .inr hexact
  · rw [Node.info_mk] at hlate
    exact .inl (by omega)

/-- The site at the closing brace is `Ordered` with every site below the list. -/
theorem Site.Closes.ordered_below {source : Text} {n : Node} {s t : Site}
    (hs : s.Closes source n) (ht : t.Below source n) : s.Ordered t := by
  obtain ⟨c, hc, hlt, hle⟩ := ht.child
  have hclose := hs.children c hc
  exact .inr ⟨by omega, .inl (by omega)⟩

/-- The site of the comments before a list is `Ordered` with that at its closing brace. -/
theorem Site.Leads.ordered_closes {source : Text} {info : Info} {shape : Shape Node} {s t : Site}
    (hs : s.Leads source info) (ht : t.Closes source (.mk info shape)) : s.Ordered t := by
  have hstart := hs.start
  have hstop := hs.stop
  have hlt : info.start < t.start := ht.lt_start
  exact .inl ⟨by omega, .inl (by omega)⟩

namespace Sites

variable {sheet : Sheet}

/-- If `ns` come one behind the other, the sites of all of them are pairwise `Ordered`. -/
theorem pairwise_flatMap {ns : List Node} {own : Node → List Site}
    (h : ∀ n ∈ ns, Sites sheet n (own n))
    (hordered : ns.Pairwise (·.info.stop ≤ ·.info.start)) :
    (ns.flatMap own).Pairwise Site.Ordered := by
  rw [List.pairwise_flatMap]
  refine ⟨fun n hn => (h n hn).ordered, hordered.imp_of_mem fun {a b} ha hb hab => ?_⟩
  intro s hs t ht
  have hs' := (h a ha).inside s hs
  have ht' := (h b hb).inside t ht
  exact .inl ⟨by omega, .inl (by omega)⟩

/-- The `cutSpans` of the sites of `ns` are the spans of their placeholders. -/
theorem cutSpans_flatMap {ns : List Node} {own : Node → List Site}
    (h : ∀ n ∈ ns, Sites sheet n (own n)) :
    Site.cutSpans (ns.flatMap own) =
      (ns.flatMap Node.placeholders).map Node.span := by
  rw [Site.cutSpans, List.filter_flatMap, List.map_flatMap, List.map_flatMap]
  exact List.flatMap_congr fun n hn => (h n hn).cuts

/-- `listEdits` of `ns` are the edits of their sites. -/
theorem listEdits {ns : List Node} {own : Node → List Site}
    (h : ∀ n ∈ ns, Sites sheet n (own n)) :
    sheet.listEdits ns = .ok ((ns.flatMap own).map (·.edit)) := by
  rw [List.map_flatMap]
  exact Sheet.listEdits_of_forall fun n hn => (h n hn).edits

/-- A placeholder has one site, of the kind `cut`. -/
theorem of_placeholder {info : Info} (hsynthetic : info.synthetic)
    (h : sheet.source.encloses info.start info.stop) :
    ∃ sites, Sites sheet (.mk info .removed) sites := by
  obtain ⟨hlt, hfirst, hlast⟩ := Text.encloses_iff.mp h
  obtain ⟨cut, hcut, hcovers⟩ := Text.removal_of_encloses h
  obtain ⟨e, hedit, hstart, hstop⟩ :
      ∃ e, sheet.removalEdit info = .ok e ∧ e.start = cut.start ∧ e.stop = cut.stop := by
    rw [Sheet.removalEdit, hcut]
    exact ⟨_, rfl, rfl, rfl⟩
  refine ⟨[⟨e, .cut, info.start, info.stop⟩], ?_⟩
  constructor
  case edits =>
    simp only [Sheet.edits, hsynthetic, if_true, hedit]
    rfl
  case sound =>
    rw [List.forall_mem_singleton]
    exact ⟨Nat.le_of_lt hlt, hfirst, fun _ => hlast, hlt, cut, hcovers, hstart, hstop⟩
  case inside =>
    rw [List.forall_mem_singleton]
    exact ⟨Nat.le_refl _, hlt, Nat.le_refl _⟩
  case first =>
    intro hplaceholder
    rw [Node.isPlaceholder, Node.info_mk, hsynthetic] at hplaceholder
    cases hplaceholder
  case ordered => exact List.pairwise_singleton _ _
  case cuts =>
    rw [Node.placeholders_of_synthetic (n := .mk info .removed) hsynthetic]
    rfl

/-- A made node other than a placeholder has one site, of the kind `exact`. -/
theorem of_made {info : Info} {shape : Shape Node} (hsynthetic : info.synthetic)
    (h : (Node.mk info shape).Replaces sheet) (hkind : (Node.mk info shape).kind ≠ .removed) :
    ∃ sites, Sites sheet (.mk info shape) sites := by
  obtain ⟨hlt, hfirst, hlast⟩ := Text.encloses_iff.mp h.encloses
  obtain ⟨hcomments, t, ht⟩ := h.text hkind
  refine ⟨[⟨⟨info.start, info.stop, t, false⟩, .exact, info.start, info.stop⟩], ?_⟩
  constructor
  case edits =>
    rw [Sheet.edits_of_synthetic hsynthetic hcomments (by rintro rfl; exact hkind rfl)]
    rw [Node.shape_mk] at ht
    rw [ht]
    rfl
  case sound =>
    rw [List.forall_mem_singleton]
    exact ⟨Nat.le_of_lt hlt, hfirst, fun _ => hlast, rfl, rfl⟩
  case inside =>
    rw [List.forall_mem_singleton]
    exact ⟨Nat.le_refl _, hlt, Nat.le_refl _⟩
  case first =>
    rw [List.forall_mem_singleton]
    exact fun _ => .inl rfl
  case ordered => exact List.pairwise_singleton _ _
  case cuts =>
    rw [Node.placeholders_of_synthetic (n := .mk info shape) hsynthetic, if_neg hkind]
    rfl

/-- `leadingEdit` has at most one edit, whose site `Leads` the node. -/
theorem leadingEdit_site (sheet : Sheet) (info : Info)
    (h : ∀ c ∈ info.comments, c.leading →
      info.start < info.stop ∧ sheet.source.isVisibleAt info.start) :
    ∃ site : Option Site, sheet.leadingEdit info = site.toList.map (·.edit) ∧
      ∀ s ∈ site.toList, s.Leads sheet.source info := by
  rw [Sheet.leadingEdit]
  cases hcomments : info.comments.filter (·.leading) with
  | nil => exact ⟨none, rfl, by simp⟩
  | cons c cs =>
    have hc : c ∈ info.comments.filter (·.leading) := by rw [hcomments]; exact List.mem_cons_self
    rw [List.mem_filter] at hc
    obtain ⟨hlt, hfirst⟩ := h c hc.1 hc.2
    refine ⟨some ⟨_, .exact, info.start, info.start⟩, rfl, ?_⟩
    rw [Option.toList_some, List.forall_mem_singleton]
    exact ⟨⟨Nat.le_refl _, hfirst, fun h => absurd h (Nat.lt_irrefl _), rfl, rfl⟩, rfl, rfl, rfl,
      hlt⟩

/-- An insertion right before the last character of a list, or at the start of its line where only
blanks come before it, has a site that `Closes` the list. -/
theorem exists_closes {source : Text} {n : Node} {e : Edit} (h : n.IsBraced source)
    (hempty : e.stop = e.start)
    (hplace : e.start = n.info.stop - 1 ∨
      source.isBlankBetween (source.lineStart (n.info.stop - 1)) (n.info.stop - 1) ∧
        e.start = source.lineStart (n.info.stop - 1)) :
    ∃ s : Site, s.edit = e ∧ s.Closes source n := by
  obtain ⟨hcloses, brace, hlt, hstart, hvisible, hchildren⟩ := h
  rcases Nat.lt_or_ge brace (n.info.stop - 1) with hbehind | hlast
  · -- Something comes behind the brace, and that is where the edit stands.
    have hafter : brace < e.start ∧ e.start < n.info.stop := by
      rcases hplace with hplace | ⟨hblank, hplace⟩
      · omega
      · have := Text.lt_of_isVisibleAt hblank hvisible hbehind
        have := source.lineStart_le (n.info.stop - 1)
        omega
    exact ⟨⟨e, .within, brace, n.info.stop⟩, rfl,
      ⟨Nat.le_of_lt hlt, hvisible, fun _ => hcloses, hafter.1, hafter.2, hempty⟩, by simp, hstart,
      hlt, Nat.le_refl _, hchildren⟩
  · obtain rfl : brace = n.info.stop - 1 := by omega
    have hnone : ¬ n.info.stop - 1 < n.info.stop - 1 := Nat.lt_irrefl _
    rcases hplace with hplace | ⟨hblank, hplace⟩
    · exact ⟨⟨e, .exact, _, _⟩, rfl,
        ⟨Nat.le_refl _, hvisible, fun h => absurd h hnone, hplace, hempty.trans hplace⟩, by simp,
        hstart, hlt, Nat.sub_le _ _, hchildren⟩
    · exact ⟨⟨e, .line, _, _⟩, rfl,
        ⟨Nat.le_refl _, hvisible, fun h => absurd h hnone, rfl, hblank, hplace,
          hempty.trans hplace⟩, by simp, hstart, hlt, Nat.sub_le _ _, hchildren⟩

/-- `trailingEdit` has at most one edit, whose site `Closes` the list. -/
theorem trailingEdit_site (sheet : Sheet) (info : Info) (shape : Shape Node)
    (h : ∀ c ∈ info.comments, c.leading = false →
      shape.kind.isBracedList ∧ (Node.mk info shape).IsBraced sheet.source) :
    ∃ site : Option Site, sheet.trailingEdit info shape = site.toList.map (·.edit) ∧
      ∀ s ∈ site.toList, s.Closes sheet.source (.mk info shape) := by
  have hone : ∀ {e : Edit}, (∃ s : Site, s.edit = e ∧ s.Closes sheet.source (.mk info shape)) →
      ∃ site : Option Site, [e] = site.toList.map (·.edit) ∧
        ∀ s ∈ site.toList, s.Closes sheet.source (.mk info shape) := by
    rintro _ ⟨s, rfl, hs⟩
    exact ⟨some s, rfl, by simpa using hs⟩
  rw [Sheet.trailingEdit]
  cases hcomments : info.comments.filter (!·.leading) with
  | nil => exact ⟨none, rfl, by simp⟩
  | cons c cs =>
    have hc : c ∈ info.comments.filter (!·.leading) := by rw [hcomments]; exact List.mem_cons_self
    rw [List.mem_filter] at hc
    obtain ⟨hkind, hbraced⟩ := h c hc.1 (by simpa using hc.2)
    have hopen : (decide (info.start < info.stop)) = true := by
      obtain ⟨-, brace, hlt, hstart, -⟩ := hbraced
      rw [decide_eq_true_eq]
      exact Nat.lt_trans hstart hlt
    rw [hkind, hopen]
    simp only [List.isEmpty_cons, Bool.false_eq_true, if_false, Bool.and_self, if_true]
    -- The comments stand before the line of the last character if that is the first thing on it.
    split
    case isTrue hline => exact hone (exists_closes hbraced rfl (.inr ⟨hline, rfl⟩))
    case isFalse => exact hone (exists_closes hbraced rfl (.inl rfl))

/-- If `n.Stays`, all sites of its children are `Below` it. -/
theorem below {n : Node} (h : n.Stays sheet) {own : Node → List Site}
    (hown : ∀ c ∈ n.children, Sites sheet c (own c)) :
    ∀ s ∈ n.children.flatMap own, s.Below sheet.source n := by
  obtain ⟨-, hinside, -⟩ := h.spans
  intro s hs
  obtain ⟨c, hc, hs⟩ := List.mem_flatMap.mp hs
  have hchild := hinside c hc
  have hsite := (hown c hc).inside s hs
  refine ⟨(hown c hc).sound s hs, ⟨c, hc, hsite.2⟩, by omega, by omega, by omega, ?_⟩
  -- Only a cut might start where the child does, and no child to be cut out comes first.
  cases hplaceholder : c.isPlaceholder with
  | true =>
    have hcut : n.info.start < c.info.start := h.cuts c hc hplaceholder
    exact .inr (by omega)
  | false =>
    rcases (hown c hc).first hplaceholder s hs with hexact | hlt
    · exact .inl hexact
    · exact .inr (by omega)

/-- If a node `Stays` and its nodes have sites, the node has the sites of its comments and of its
nodes. -/
theorem of_stays {info : Info} {shape : Shape Node} (hsynthetic : info.synthetic = false)
    (h : (Node.mk info shape).Stays sheet) {own : Node → List Site}
    (hown : ∀ n ∈ shape.nodes, Sites sheet n (own n)) :
    ∃ sites, Sites sheet (.mk info shape) sites := by
  obtain ⟨-, -, hordered⟩ := h.spans
  obtain ⟨lead, hlead, hleads⟩ := leadingEdit_site sheet info h.leading
  obtain ⟨trail, htrail, hcloses⟩ := trailingEdit_site sheet info shape h.trailing
  have hbelow : ∀ s ∈ shape.nodes.flatMap own, s.Below sheet.source (.mk info shape) :=
    below h hown
  refine ⟨lead.toList ++ trail.toList ++ shape.nodes.flatMap own, ?_⟩
  constructor
  case edits =>
    rw [Sheet.edits_of_not_synthetic hsynthetic, hlead, htrail, listEdits hown]
    simp only [List.map_append, bind, Except.bind, pure, Except.pure]
  case sound =>
    simp only [List.forall_mem_append]
    exact ⟨⟨fun s hs => (hleads s hs).sound, fun s hs => (hcloses s hs).sound⟩,
      fun s hs => (hbelow s hs).sound⟩
  case inside =>
    simp only [List.forall_mem_append, Node.info_mk]
    refine ⟨⟨fun s hs => ?_, fun s hs => ?_⟩, fun s hs => ?_⟩
    · obtain ⟨-, -, hstart, hstop, hlt⟩ := hleads s hs
      omega
    · obtain ⟨-, -, hlt, hstart, hstop, -⟩ := hcloses s hs
      exact ⟨Nat.le_of_lt hlt, hstart, hstop⟩
    · exact ⟨(hbelow s hs).start_le, (hbelow s hs).start_lt, (hbelow s hs).stop_le⟩
  case first =>
    simp only [List.forall_mem_append, Node.info_mk]
    intro _
    refine ⟨⟨fun s hs => ?_, fun s hs => ?_⟩, fun s hs => ?_⟩
    · exact .inl (hleads s hs).kind
    · exact .inr (hcloses s hs).lt_start
    · exact (hbelow s hs).late
  case ordered =>
    have hone : ∀ site : Option Site, site.toList.Pairwise Site.Ordered := by
      intro site
      cases site with
      | none => exact .nil
      | some s => exact List.pairwise_singleton _ _
    -- A leading comment comes before all that is below, and a trailing one behind it.
    rw [List.pairwise_append, List.pairwise_append]
    refine ⟨⟨hone lead, hone trail, fun s hs t ht => ?_⟩, pairwise_flatMap hown hordered,
      fun s hs t ht => ?_⟩
    · exact (hleads s hs).ordered_closes (hcloses t ht)
    · rcases List.mem_append.mp hs with hs | hs
      · exact (hleads s hs).ordered_below (hbelow t ht)
      · exact (hcloses s hs).ordered_below (hbelow t ht)
  case cuts =>
    rw [Site.cutSpans_append, Site.cutSpans_append, cutSpans_flatMap hown,
      Node.placeholders_mk hsynthetic,
      Site.cutSpans_eq_nil fun s hs => by simp [(hleads s hs).kind],
      Site.cutSpans_eq_nil fun s hs => (hcloses s hs).kind]
    rfl

/-- If all printed nodes of `n` are `Placed`, `n` has sites; by induction on the tree. -/
theorem of_placed {n : Node} (h : ∀ m ∈ n.printed, m.Placed sheet) :
    ∃ sites, Sites sheet n sites := by
  induction n using Node.induction with
  | mk info shape ih =>
    have hself := h (.mk info shape) (Node.mem_preorder_self _ _)
    cases hsynthetic : info.synthetic with
    | true =>
      have hreplaces := hself.1 hsynthetic
      by_cases hkind : (Node.mk info shape).kind = .removed
      · have hshape : shape = .removed := by
          cases shape <;> first | rfl | cases hkind
        subst hshape
        exact of_placeholder hsynthetic hreplaces.encloses
      · exact of_made hsynthetic hreplaces hkind
    | false =>
      rw [Node.printed_mk hsynthetic, List.forall_mem_cons] at h
      have hchildren : ∀ n ∈ shape.nodes, ∃ sites, Sites sheet n sites := fun n hn =>
        ih n hn fun m hm => h.2 m (List.mem_flatMap.mpr ⟨n, hn, hm⟩)
      -- One list of sites for each child, so that they can be put together.
      choose! own hown using hchildren
      exact of_stays hsynthetic (hself.2 hsynthetic) hown

end Sites

/-! ## Printing -/

namespace Node

/-- If all printed nodes of a program are `Placed`, `programEdits` lie in its source, and they are
pairwise `Apart` just if no two placeholders share blanks. -/
theorem programEdits_of_placed (info : Info) {body : List Node} {source : Text}
    (hsynthetic : info.synthetic = false)
    (hordered : body.Pairwise (·.info.stop ≤ ·.info.start))
    (hplaced : ∀ n ∈ body, ∀ m ∈ n.printed, m.Placed (Sheet.ofSource source)) :
    let program := mk info (.program body source)
    ∃ edits, program.programEdits = .ok edits ∧
      (∀ e ∈ edits, e.start ≤ e.stop ∧ e.stop ≤ program.source.length) ∧
      (edits.Pairwise Edit.Apart ↔ ∀ a ∈ program.placeholders, ∀ b ∈ program.placeholders,
        ¬ source.sharesBlanks a.info.stop b.info.start b.info.stop) := by
  intro program
  have hsites : ∀ n ∈ body, ∃ sites, Sites (Sheet.ofSource source) n sites := fun n hn =>
    Sites.of_placed (hplaced n hn)
  -- One list of sites for each statement; the edit at the end of the program has none.
  choose! own hown using hsites
  have hsound : ∀ s ∈ body.flatMap own, s.Sound source := by
    intro s hs
    obtain ⟨n, hn, hs⟩ := List.mem_flatMap.mp hs
    exact (hown n hn).sound s hs
  have hinside : ∀ e ∈ (body.flatMap own).map (·.edit),
      e.start ≤ e.stop ∧ e.stop ≤ program.source.length := by
    intro e he
    obtain ⟨s, hs, rfl⟩ := List.mem_map.mp he
    exact (hsound s hs).edit_span
  have hedits : program.programEdits =
      .ok ((body.flatMap own).map (·.edit) ++ program.endEdit) := by
    have hlist : program.sheet.listEdits (Shape.program body source).nodes =
        .ok ((body.flatMap own).map (·.edit)) := Sites.listEdits hown
    rw [programEdits_mk, hlist]
    rfl
  have hspans : Site.cutSpans (body.flatMap own) = program.placeholders.map Node.span := by
    rw [Sites.cutSpans_flatMap hown, placeholders_mk hsynthetic]
    rfl
  refine ⟨_, hedits, fun e he => ?_, ?_⟩
  · rcases List.mem_append.mp he with he | he
    · exact hinside e he
    · obtain ⟨hstart, hstop⟩ := span_of_mem_endEdit he
      exact ⟨by omega, Nat.le_of_eq hstop⟩
  · rw [pairwise_append_endEdit fun e he => (hinside e he).2,
      Site.pairwise_apart_iff hsound (Sites.pairwise_flatMap hown hordered), hspans]
    simp only [List.forall_mem_map]
    rfl

/-- If all printed nodes of a program are `Placed`, `print` succeeds unless two placeholders share
blanks, and reports an overlap then. -/
theorem print_of_placed (info : Info) {body : List Node} {source : Text}
    (hsynthetic : info.synthetic = false)
    (hordered : body.Pairwise (·.info.stop ≤ ·.info.start))
    (hplaced : ∀ n ∈ body, ∀ m ∈ n.printed, m.Placed (Sheet.ofSource source)) :
    let program := mk info (.program body source)
    let apart := ∀ a ∈ program.placeholders, ∀ b ∈ program.placeholders,
      ¬ source.sharesBlanks a.info.stop b.info.start b.info.stop
    apart ∧ (∃ code, program.print = .ok code) ∨
      ¬ apart ∧ ∃ offset printed, program.print = .error (.overlap offset printed) := by
  intro program apart
  obtain ⟨edits, hedits, hinside, hpairs⟩ :=
    programEdits_of_placed info hsynthetic hordered hplaced
  rw [show apart ↔ edits.Pairwise Edit.Apart from hpairs.symm]
  exact print_cases hedits fun e he => (hinside e he).1

end Node
end FlagFold
