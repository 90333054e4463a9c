/-
  FlagFold.Proofs.Fold.Delivered

  Programs as the parser delivers them (`Node.Delivered`), and what the evaluation
  of pragmas leaves of them: a tree in order on its source, with placeholders for
  statements and comments at places of statements and at ends of blocks, and
  nowhere else.
-/

import FlagFold.Proofs.Fold.ListRule
import FlagFold.Proofs.Print.Remarks

namespace FlagFold

/-! ## What the parser delivers -/

namespace Node

/-- `n` may be taken out of some list: it is a pragma, or loads a module. -/
def mayGo (n : Node) : Bool := n.pragma?.isSome || n.loadsModule

/-- `stmt` starts with something visible, later than `parent` unless that is the program; if it may
go, it ends where something can end. -/
def StandsIn (source : Text) (parent stmt : Node) : Prop :=
  stmt.info.start < stmt.info.stop ∧ source.isVisibleAt stmt.info.start ∧
    (stmt.mayGo → source.closesAt stmt.info.stop) ∧
    (parent.kind ≠ .program → parent.info.start < stmt.info.start)

instance (source : Text) (parent stmt : Node) : Decidable (StandsIn source parent stmt) :=
  inferInstanceAs (Decidable (_ ∧ _ ∧ _ ∧ _))

/-- The syntax of `n` is where the parser has it in `source`: a call and the statements of a list
start with something visible, a block has braces, and a program is in no other node. -/
def Written (source : Text) (n : Node) : Prop :=
  (n.kind = .call → source.encloses n.info.start n.info.stop) ∧
    (n.kind = .generic "statement_block" → n.IsBraced source) ∧
    (∀ p ∈ n.children.zipIdx, n.kind.hasStatementAt p.2 → StandsIn source n p.1) ∧
    ∀ c ∈ n.children, c.kind ≠ .program

instance (source : Text) (n : Node) : Decidable (Written source n) :=
  inferInstanceAs (Decidable (_ ∧ _ ∧ _ ∧ _))

/-- `n` is laid out on `source` as the parser does it, and no pass has touched it. -/
structure SetOut (source : Text) (n : Node) : Prop where
  laidOut : n.LaidOut
  untouched : n.Untouched
  written : ∀ m ∈ n.subnodes, m.Written source

/-- `program` is as the parser delivers it. -/
structure Delivered (program : Node) : Prop extends program.SetOut program.source where
  root : program.kind = .program
  wellTyped : program.WellTyped

instance (program : Node) : Decidable program.Delivered :=
  decidable_of_iff (program.LaidOut ∧ program.Untouched ∧
      (∀ m ∈ program.subnodes, m.Written program.source) ∧ program.kind = .program ∧
      program.WellTyped)
    ⟨fun ⟨laidOut, untouched, written, root, wellTyped⟩ =>
      ⟨⟨laidOut, untouched, written⟩, root, wellTyped⟩,
    fun h => ⟨h.laidOut, h.untouched, h.written, h.root, h.wellTyped⟩⟩

theorem SetOut.of_mem_children {source : Text} {n c : Node} (h : n.SetOut source)
    (hc : c ∈ n.children) : c.SetOut source where
  laidOut := h.laidOut.of_mem_children hc
  untouched := h.untouched.of_mem_children hc
  written m hm := h.written m (mem_subnodes_of_mem_children hc hm)

/-- What `foldQueries` relies on at `n`: a call lies around something visible, the names in a member
have no comments, and whatever a pass has made is a placeholder. -/
structure Askable (source : Text) (n : Node) : Prop where
  call : n.kind = .call → source.encloses n.info.start n.info.stop
  names : n.kind = .member → ∀ c ∈ n.children, c.kind = .identifier → c.info.comments = []
  made : n.info.synthetic → n.kind = .removed

end Node

/-! ## What is left of a list -/

/-- What may stand in the place of `item` in a list, given that `S` holds of its statements: a
placeholder for a statement that may go, or what is kept of it with leading comments, which only a
statement takes over. -/
def StandsFor (S : Node → Prop) (item : Node × (List Comment → Node)) (n : Node) : Prop :=
  (S item.1 ∧ item.1.mayGo ∧ ∃ cs, n = (Node.makeRemoved item.1).withComments cs) ∨
    ∃ cs, n = item.2 cs ∧ (∀ c ∈ cs, c.leading) ∧ (cs ≠ [] → S item.1)

/-- `elidedItems` leaves for each item of a list what `StandsFor` it. -/
theorem elidedItems_standsFor (features : FeatureMap) {parent : Kind} {field : Field}
    (hplace : ∀ index following,
      Place.isStatement ⟨parent, field, some index, following⟩ = parent.hasStatementAt index)
    (S : Node → Prop) {items : List (Node × (List Comment → Node))} {index : Nat}
    (hstmts : ∀ p ∈ items.zipIdx index, parent.hasStatementAt p.2 → S p.1.1)
    (hbare : ∀ item ∈ items, item.1.comments = [])
    (machine : ElisionState) {carried : List Comment} (hcarried : ∀ c ∈ carried, c.leading) :
    List.Forall₂ (StandsFor S) items
      (elidedItems features parent field index machine carried items).1 := by
  induction items generalizing index machine carried with
  | nil => exact .nil
  | cons item rest ih =>
    obtain ⟨stmt, kept⟩ := item
    rw [List.zipIdx_cons, List.forall_mem_cons] at hstmts
    rw [List.forall_mem_cons] at hbare
    obtain ⟨n, machine', carried', heq, hcases⟩ :=
      elidedItems_cons features hplace index machine carried stmt kept rest
    -- The item is taken out, or kept as a statement, or is none.
    have hfirst : StandsFor S (stmt, kept) n ∧ ∀ c ∈ carried', c.leading := by
      rcases hcases with ⟨hstatement, -, ⟨htaken, v, -, hn, hcarried'⟩ | ⟨-, hn, hcarried'⟩⟩ |
        ⟨-, -, hn, hcarried'⟩
      · have hgoes : stmt.mayGo := by
          rw [Node.mayGo, Bool.or_eq_true]
          rw [Bool.or_eq_true, Bool.and_eq_true] at htaken
          exact htaken.imp_right And.left
        refine ⟨.inl ⟨hstmts.1 hstatement, hgoes, _, hn⟩, ?_⟩
        rw [hcarried', hbare.1]
        split
        · simp
        · intro c hc
          simp only [List.append_nil, List.mem_append, List.mem_singleton] at hc
          rcases hc with hc | rfl
          · exact hcarried c hc
          · rfl
      · refine ⟨.inr ⟨carried, hn, hcarried, fun _ => hstmts.1 hstatement⟩, ?_⟩
        simp [hcarried']
      · refine ⟨.inr ⟨[], hn, by simp, fun h => absurd rfl h⟩, ?_⟩
        rwa [hcarried']
    rw [heq]
    exact .cons hfirst.1 (ih hstmts.2 hbare.2 machine' hfirst.2)

/-- `elidedItems` leaves no comments at the end of a switch clause. -/
theorem elidedItems_snd_of_isSwitchClause (features : FeatureMap) {parent : Kind} {field : Field}
    (hplace : ∀ index following,
      Place.isStatement ⟨parent, field, some index, following⟩ = parent.hasStatementAt index)
    (hclause : parent.isSwitchClause) (items : List (Node × (List Comment → Node))) (index : Nat)
    (machine : ElisionState) {carried : List Comment}
    (hcarried : items = [] ∨ ¬ parent.hasStatementAt index → carried = []) :
    (elidedItems features parent field index machine carried items).2 = [] := by
  induction items generalizing index machine carried with
  | nil => exact hcarried (.inl rfl)
  | cons item rest ih =>
    obtain ⟨n, machine', carried', heq, hcases⟩ :=
      elidedItems_cons features hplace index machine carried item.1 item.2 rest
    rw [heq]
    apply ih _ machine'
    intro hend
    rcases hcases with ⟨hstatement, -, ⟨-, v, -, -, hcarried'⟩ | ⟨-, -, hcarried'⟩⟩ |
      ⟨hstatement, -, -, hcarried'⟩
    · rcases hend with hnil | hnext
      · rw [hcarried', hnil, hclause]
        rfl
      · exact absurd (Kind.hasStatementAt_succ hstatement) hnext
    · exact hcarried'
    · rw [hcarried']
      exact hcarried (.inr hstatement)

/-- If `elidedItems` leaves comments at the end of a generic list, that is a block. -/
theorem eq_block_of_comments_left (features : FeatureMap) {name : String}
    (hlist : (Kind.generic name).isStatementList) (items : List (Node × (List Comment → Node)))
    (hleft : (elidedItems features (.generic name) .children 0 .idle [] items).2 ≠ []) :
    name = "statement_block" := by
  by_contra hother
  have hclause : (Kind.generic name).isSwitchClause := by
    simpa [Kind.isStatementList, hother] using hlist
  exact hleft (elidedItems_snd_of_isSwitchClause features (Place.isStatement_children name) hclause
    items 0 .idle fun _ => rfl)

/-! ## The tree that is left -/

namespace Node

variable {features : FeatureMap} {sheet : Sheet}

/-- The queries of `n` can be folded, and it can be printed then. -/
def Foldable (sheet : Sheet) (n : Node) : Prop :=
  ∀ m ∈ n.printed, m.Placed sheet ∧ m.Askable sheet.source

/-- A `Foldable` tree is `Bare`. -/
theorem Foldable.bare {sheet : Sheet} {n : Node} (h : n.Foldable sheet) : n.Bare sheet :=
  fun m hm => ⟨(h m hm).1, (h m hm).2.made⟩

/-- `n.elided` is `Foldable`, whatever leading comments `n` takes over; it takes over none unless it
starts with something visible. -/
def LeavesFoldable (features : FeatureMap) (sheet : Sheet) (n : Node) : Prop :=
  ∀ cs, (∀ c ∈ cs, c.leading) →
    (cs ≠ [] → n.info.start < n.info.stop ∧ sheet.source.isVisibleAt n.info.start) →
    (n.elided features cs).Foldable sheet

/-- A placeholder for a span that the source `encloses` is `Foldable`. -/
theorem foldable_of_placeholder {n : Node} (hsynthetic : n.info.synthetic)
    (hkind : n.kind = .removed) (h : sheet.source.encloses n.info.start n.info.stop) :
    n.Foldable sheet := by
  intro m hm
  rw [printed_of_synthetic hsynthetic, List.mem_singleton] at hm
  rw [hm]
  refine ⟨⟨fun _ => ⟨h, fun hne => absurd hkind hne⟩, fun hstays => ?_⟩, ?_, ?_, fun _ => hkind⟩
  · rw [hsynthetic] at hstays
    cases hstays
  · intro hcall
    rw [hkind] at hcall
    cases hcall
  · intro hmember
    rw [hkind] at hmember
    cases hmember

theorem foldable_mk {info : Info} {shape : Shape Node} (hsynthetic : info.synthetic = false) :
    (mk info shape).Foldable sheet ↔
      (mk info shape).Stays sheet ∧ (mk info shape).Askable sheet.source ∧
        ∀ n ∈ shape.nodes, n.Foldable sheet := by
  have hplaced : (mk info shape).Placed sheet ↔ (mk info shape).Stays sheet := by
    rw [Placed, info_mk, hsynthetic]
    simp
  rw [Foldable, printed_mk hsynthetic, List.forall_mem_cons, hplaced, and_assoc]
  simp only [List.forall_mem_flatMap, Foldable]

@[simp] theorem span_elided (n : Node) (cs : List Comment) :
    (n.elided features cs).span = n.span := by
  cases n with
  | mk info shape => rw [elided_mk]; rfl

@[simp] theorem start_elided (n : Node) (cs : List Comment) :
    (n.elided features cs).info.start = n.info.start := by
  cases n with
  | mk info shape => rw [elided_mk]; rfl

@[simp] theorem synthetic_elided (n : Node) (cs : List Comment) :
    (n.elided features cs).info.synthetic = n.info.synthetic := by
  cases n with
  | mk info shape => rw [elided_mk]; rfl

/-- A leading comment of the elided node is one of `cs` or one of `n`. -/
theorem mem_comments_elided {n : Node} {cs : List Comment} {c : Comment}
    (hc : c ∈ (n.elided features cs).info.comments) (hleading : c.leading) :
    c ∈ cs ∨ c ∈ n.info.comments := by
  cases n with
  | mk info shape =>
    rw [elided_mk, info_mk, List.mem_append, List.mem_append, Comment.atEnd, List.mem_map] at hc
    rcases hc with hc | ⟨d, -, rfl⟩
    · exact hc
    · cases hleading

theorem exists_standsFor {S : Node → Prop} {items left : List Node}
    (h : List.Forall₂ (StandsFor S) (items.map fun n => (n, n.elided features)) left) :
    ∀ c ∈ left, ∃ item ∈ items, StandsFor S (item, item.elided features) c := by
  rw [List.forall₂_map_left_iff] at h
  induction h with
  | nil => simp
  | cons hitem _ ih =>
    rw [List.forall_mem_cons]
    refine ⟨⟨_, List.mem_cons_self, hitem⟩, fun c hc => ?_⟩
    obtain ⟨item, hmem, hstands⟩ := ih c hc
    exact ⟨item, List.mem_cons_of_mem _ hmem, hstands⟩

/-- Each child of the elided node `StandsFor` a child of `n`. -/
theorem exists_of_mem_children_elided (features : FeatureMap) {n : Node} (h : n.Untouched)
    {S : Node → Prop}
    (hstmts : ∀ p ∈ n.children.zipIdx, n.kind.hasStatementAt p.2 → S p.1) (cs : List Comment) :
    ∀ c ∈ (n.elided features cs).children,
      ∃ item ∈ n.children, StandsFor S (item, item.elided features) c := by
  cases n with
  | mk info shape =>
    have hbare : ∀ item ∈ shape.nodes.map fun n => (n, n.elided features),
        item.1.comments = [] := by
      rw [List.forall_mem_map]
      exact fun c hc => (h.of_mem_children hc).comments
    have hstmts' : ∀ p ∈ (shape.nodes.map fun n => (n, n.elided features)).zipIdx,
        shape.kind.hasStatementAt p.2 → S p.1.1 := by
      rw [List.zipIdx_map, List.forall_mem_map]
      exact hstmts
    by_cases hlist : shape.kind.isStatementList
    · rw [elided_mk]
      cases shape with
      | program body source =>
        exact exists_standsFor (elidedItems_standsFor features (fun _ _ => rfl) S hstmts' hbare
          .idle (by simp))
      | generic name items =>
        exact exists_standsFor (elidedItems_standsFor features (Place.isStatement_children name) S
          hstmts' hbare .idle (by simp))
      | _ => simp [Shape.kind, Kind.isStatementList] at hlist
    · rw [elided_of_not_isStatementList hlist, children_mk, Shape.nodes_map, List.forall_mem_map]
      exact fun c hc => ⟨c, hc, .inr ⟨[], rfl, by simp, fun hne => absurd rfl hne⟩⟩

/-- If `left` stand for `items` of a list in `parent`, they have the spans of these, all are
`Foldable`, and no placeholder starts where `parent` does unless that is the program. -/
theorem foldable_of_standsFor (sheet : Sheet) {parent : Node} {items left : List Node}
    (hleft : List.Forall₂ (StandsFor (StandsIn sheet.source parent))
      (items.map fun n => (n, n.elided features)) left)
    (hsynthetic : ∀ n ∈ items, n.info.synthetic = false)
    (hkept : ∀ n ∈ items, n.LeavesFoldable features sheet) :
    left.map span = items.map span ∧ (∀ n ∈ left, n.Foldable sheet) ∧
      ∀ n ∈ left, n.isPlaceholder → parent.kind ≠ .program → parent.info.start < n.info.start := by
  rw [List.forall₂_map_left_iff] at hleft
  induction hleft with
  | nil => simp
  | @cons item n items left hitem _ ih =>
    rw [List.forall_mem_cons] at hsynthetic hkept
    obtain ⟨hspans, hfoldable, hlater⟩ := ih hsynthetic.2 hkept.2
    have hfirst : n.span = item.span ∧ n.Foldable sheet ∧
        (n.isPlaceholder → parent.kind ≠ .program → parent.info.start < n.info.start) := by
      rcases hitem with ⟨⟨hlt, hvisible, hend, hinside⟩, hgoes, cs, rfl⟩ | ⟨cs, rfl, hcs, hstands⟩
      · exact ⟨rfl,
          foldable_of_placeholder rfl rfl (Text.encloses_iff.mpr ⟨hlt, hvisible, hend hgoes⟩),
          fun _ => hinside⟩
      · refine ⟨span_elided item cs, hkept.1 cs hcs fun h => ?_, fun h => ?_⟩
        · exact ⟨(hstands h).1, (hstands h).2.1⟩
        · simp [isPlaceholder, hsynthetic.1] at h
    simp only [List.map_cons, List.forall_mem_cons]
    exact ⟨by rw [hfirst.1, hspans], ⟨hfirst.2.1, hfoldable⟩, hfirst.2.2, hlater⟩

/-- What `elidedItems` leaves of a list in `parent` is of this kind. -/
theorem foldable_elidedItems {parent : Node} (h : parent.SetOut sheet.source) {kind : Kind}
    (hkind : parent.kind = kind) {items : List Node} (hitems : parent.children = items)
    {field : Field}
    (hplace : ∀ index following,
      Place.isStatement ⟨kind, field, some index, following⟩ = kind.hasStatementAt index)
    (hkept : ∀ n ∈ items, n.LeavesFoldable features sheet) :
    let left := (elidedItems features kind field 0 .idle []
      (items.map fun n => (n, n.elided features))).1
    left.map span = items.map span ∧ (∀ n ∈ left, n.Foldable sheet) ∧
      ∀ n ∈ left, n.isPlaceholder → kind ≠ .program → parent.info.start < n.info.start := by
  subst hkind hitems
  have hstmts : ∀ p ∈ (parent.children.map fun n => (n, n.elided features)).zipIdx,
      parent.kind.hasStatementAt p.2 → StandsIn sheet.source parent p.1.1 := by
    rw [List.zipIdx_map, List.forall_mem_map]
    exact (h.written _ (mem_subnodes_self _)).2.2.1
  have hbare : ∀ item ∈ parent.children.map fun n => (n, n.elided features),
      item.1.comments = [] := by
    rw [List.forall_mem_map]
    exact fun c hc => (h.untouched.of_mem_children hc).comments
  have hnone : ∀ c ∈ ([] : List Comment), c.leading := by simp
  exact foldable_of_standsFor sheet
    (elidedItems_standsFor features hplace _ hstmts hbare .idle hnone)
    (fun c hc => (h.untouched.of_mem_children hc).synthetic) hkept

/-- A list of statements other than the program `LeavesFoldable`, if all its items do. -/
theorem leavesFoldable_of_list {info : Info} {name : String} {items : List Node}
    (h : (mk info (.generic name items)).SetOut sheet.source)
    (hlist : (Kind.generic name).isStatementList)
    (hkept : ∀ n ∈ items, n.LeavesFoldable features sheet) :
    (mk info (.generic name items)).LeavesFoldable features sheet := by
  intro carried hcarried hfirst
  obtain ⟨-, hblock, -, -⟩ := h.written _ (mem_subnodes_self _)
  have hcomments : info.comments = [] := h.untouched.comments
  have hsynthetic : info.synthetic = false := h.untouched.synthetic
  have hkind : (mk info (.generic name items)).kind = .generic name := rfl
  have hitems : (mk info (.generic name items)).children = items := rfl
  have hleft := foldable_elidedItems h hkind hitems (Place.isStatement_children name) hkept
  have hname := eq_block_of_comments_left features hlist
    (items.map fun n => (n, n.elided features))
  rw [elided_mk]
  simp only [Shape.map, elidedShape]
  -- From here on only what is known of the list and of the comments left at its end counts.
  generalize elidedItems features (.generic name) .children 0 .idle []
    (items.map fun n => (n, n.elided features)) = read at hleft hname ⊢
  obtain ⟨left, after⟩ := read
  obtain ⟨hspans, hfoldable, hlater⟩ := hleft
  -- A comment was taken over from the list around this one, or is left at its end.
  have hown : ∀ c ∈ carried ++ info.comments ++ Comment.atEnd after,
      c ∈ carried ∨ after ≠ [] ∧ c.leading = false := by
    intro c hc
    rw [hcomments, List.append_nil, List.mem_append, Comment.atEnd, List.mem_map] at hc
    rcases hc with hc | ⟨d, hd, rfl⟩
    · exact .inl hc
    · exact .inr ⟨List.ne_nil_of_mem hd, rfl⟩
  refine (foldable_mk ?_).mpr ⟨?_, ?_, hfoldable⟩
  · exact hsynthetic
  · constructor
    case spans => exact h.laidOut.spansChildren.of_span rfl hspans
    case leading =>
      intro c hc hlead
      rcases hown c hc with hc | ⟨-, htrailing⟩
      · exact hfirst (List.ne_nil_of_mem hc)
      · rw [hlead] at htrailing
        cases htrailing
    case trailing =>
      intro c hc htrailing
      rcases hown c hc with hc | ⟨hne, -⟩
      · rw [hcarried c hc] at htrailing
        cases htrailing
      · obtain rfl := hname hne
        exact ⟨rfl, (hblock rfl).of_span rfl hspans⟩
    case cuts => exact fun c hc hplaceholder => hlater c hc hplaceholder (by simp)
  · constructor
    case call =>
      intro hcall
      simp [kind, Shape.kind] at hcall
    case names =>
      intro hmember
      simp [kind, Shape.kind] at hmember
    case made =>
      intro hmade
      simp [hsynthetic] at hmade

/-- A node that is no list of statements `LeavesFoldable`, if all nodes in it do. -/
theorem leavesFoldable_of_not_list {info : Info} {shape : Shape Node}
    (h : (mk info shape).SetOut sheet.source) (hlist : ¬ shape.kind.isStatementList)
    (hkept : ∀ n ∈ shape.nodes, n.LeavesFoldable features sheet) :
    (mk info shape).LeavesFoldable features sheet := by
  intro carried hcarried hfirst
  obtain ⟨hcall, -, -, -⟩ := h.written _ (mem_subnodes_self _)
  have hcomments : info.comments = [] := h.untouched.comments
  have hsynthetic : info.synthetic = false := h.untouched.synthetic
  rw [elided_of_not_isStatementList hlist, hcomments, List.append_nil]
  have hchildren : ∀ c ∈ (shape.map (·.elided features [])).nodes,
      ∃ d ∈ shape.nodes, d.elided features [] = c := by
    intro c hc
    rw [Shape.nodes_map] at hc
    exact List.mem_map.mp hc
  refine (foldable_mk ?_).mpr ⟨?_, ?_, ?_⟩
  · exact hsynthetic
  · constructor
    case spans =>
      refine h.laidOut.spansChildren.of_span rfl ?_
      simp only [children_mk, Shape.nodes_map, List.map_map]
      exact List.map_congr_left fun c _ => span_elided c []
    case leading => exact fun c hc _ => hfirst (List.ne_nil_of_mem hc)
    case trailing =>
      intro c hc htrailing
      rw [hcarried c hc] at htrailing
      cases htrailing
    case cuts =>
      intro c hc hplaceholder
      obtain ⟨d, hd, rfl⟩ := hchildren c hc
      simp [isPlaceholder, (h.untouched.of_mem_children hd).synthetic] at hplaceholder
  · constructor
    case call =>
      intro hkind
      rw [kind, shape_mk, Shape.kind_map] at hkind
      exact hcall hkind
    case names =>
      -- A name holds no statements, and takes over no comments from those around it.
      intro _ c hc hname
      obtain ⟨d, hd, rfl⟩ := hchildren c hc
      have hbare := (h.untouched.of_mem_children hd).comments
      rw [kind_elided] at hname
      cases d with
      | mk info' shape' =>
        have hleaf : ¬ shape'.kind.isStatementList := by
          rw [kind, shape_mk] at hname
          simp [hname, Kind.isStatementList]
        rw [elided_of_not_isStatementList hleaf]
        exact hbare
    case made =>
      intro hmade
      simp [hsynthetic] at hmade
  · intro c hc
    obtain ⟨d, hd, rfl⟩ := hchildren c hc
    exact hkept d hd [] (by simp) (fun hne => absurd rfl hne)

/-- Every node below the program of a tree that is `SetOut` `LeavesFoldable`; by induction on the
tree. -/
theorem leavesFoldable {n : Node} (h : n.SetOut sheet.source) (hkind : n.kind ≠ .program) :
    n.LeavesFoldable features sheet := by
  induction n using Node.induction with
  | mk info shape ih =>
    have hprogram := (h.written _ (mem_subnodes_self _)).2.2.2
    have hkept : ∀ c ∈ shape.nodes, c.LeavesFoldable features sheet := fun c hc =>
      ih c hc (h.of_mem_children hc) (hprogram c hc)
    by_cases hlist : shape.kind.isStatementList
    · cases shape with
      | program body source => exact absurd rfl hkind
      | generic name items => exact leavesFoldable_of_list h hlist hkept
      | _ => simp [Shape.kind, Kind.isStatementList] at hlist
    · exact leavesFoldable_of_not_list h hlist hkept

/-- `elided` of a delivered program keeps its source; its statements are `left` one behind the
other, and all of them are `Foldable`. -/
theorem elided_of_delivered {info : Info} {body : List Node} {source : Text}
    (h : (mk info (.program body source)).Delivered) :
    ∃ cs left, (mk info (.program body source)).elided features [] =
        mk { info with comments := cs } (.program left source) ∧
      left.Pairwise (·.info.stop ≤ ·.info.start) ∧
      ∀ n ∈ left, n.Foldable (Sheet.ofSource source) := by
  obtain ⟨-, -, -, hprogram⟩ := h.written _ (mem_subnodes_self _)
  have hplace : ∀ index following, Place.isStatement ⟨.program, .body, some index, following⟩ =
      Kind.program.hasStatementAt index := fun _ _ => rfl
  have hsetOut : (mk info (.program body source)).SetOut (Sheet.ofSource source).source :=
    h.toSetOut
  obtain ⟨hspans, hfoldable, -⟩ := foldable_elidedItems hsetOut rfl rfl hplace
    fun c hc => leavesFoldable (h.of_mem_children hc) (hprogram c hc)
  refine ⟨_, _, by rw [elided_mk]; rfl, ?_, hfoldable⟩
  exact pairwise_of_map_span hspans h.laidOut.spansChildren.2.2

/-- `elide` of a delivered program leaves the same. -/
theorem elide_of_delivered {info : Info} {body : List Node} {source : Text}
    (h : (mk info (.program body source)).Delivered) (features : FeatureMap) :
    ∃ cs left, ((mk info (.program body source)).elide features {}).1 =
        mk { info with comments := cs } (.program left source) ∧
      left.Pairwise (·.info.stop ≤ ·.info.start) ∧
      ∀ n ∈ left, n.Foldable (Sheet.ofSource source) := by
  rw [elide_eq_elided (elide_fault_of_wellTyped h.wellTyped features {})]
  exact elided_of_delivered h

/-- A tree that is `SetOut` is `Foldable` as it is. -/
theorem SetOut.foldable {n : Node} (h : n.SetOut sheet.source) : n.Foldable sheet := by
  induction n using Node.induction with
  | mk info shape ih =>
    have hcomments : info.comments = [] := h.untouched.comments
    have hsynthetic : info.synthetic = false := h.untouched.synthetic
    refine (foldable_mk hsynthetic).mpr ⟨?_, ?_, fun c hc => ih c hc (h.of_mem_children hc)⟩
    · constructor
      case spans => exact h.laidOut.spansChildren
      case leading =>
        intro c hc
        rw [info_mk, hcomments] at hc
        cases hc
      case trailing =>
        intro c hc
        rw [info_mk, hcomments] at hc
        cases hc
      case cuts =>
        intro c hc hplaceholder
        simp [isPlaceholder, (h.untouched.of_mem_children hc).synthetic] at hplaceholder
    · exact ⟨(h.written _ (mem_subnodes_self _)).1,
        fun _ c hc _ => (h.untouched.of_mem_children hc).comments,
        fun hmade => by simp [hsynthetic] at hmade⟩

end Node
end FlagFold
