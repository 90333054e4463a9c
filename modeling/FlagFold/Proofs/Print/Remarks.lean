/-
  FlagFold.Proofs.Print.Remarks

  The comments that the edits of a tree carry (`Remark`), in the order in which
  the edits are collected and in that of the source.  The two differ where a list
  has comments at its end, and sorting brings the edits that carry comments back
  into the order of the source: each of them lies at something visible, or in the
  blanks before it, that comes later than that of the one before.
-/

import FlagFold.Proofs.Print.Placed
import Mathlib.Data.List.Perm.Basic

namespace FlagFold

/-- The contents of `cs`, in order. -/
def Comment.contents (cs : List Comment) : List Text := cs.map (·.content)

theorem Comment.contents_append (cs later : List Comment) :
    contents (cs ++ later) = contents cs ++ contents later := List.map_append

/-- An `edit` together with the `comments` that its text writes. -/
structure Remark where
  edit : Edit
  comments : List Comment

namespace Remark

/-- The text of `r.edit` writes `r.comments` in one form, each with the same texts around it. -/
def Carries (r : Remark) : Prop :=
  ∃ before after : Text,
    r.edit.text = r.comments.flatMap (fun c => before ++ c.line ++ after) ∨
      r.edit.text = r.comments.flatMap (fun c => before ++ c.block ++ after)

/-- The contents of the comments of `rs`, in order. -/
def contents (rs : List Remark) : List Text := rs.flatMap fun r => Comment.contents r.comments

/-- `r` has at least one comment. -/
def commented (r : Remark) : Bool := !r.comments.isEmpty

/-- `rs` in the order in which their edits are carried out, by `Edit.le`. -/
def sort (rs : List Remark) : List Remark := rs.mergeSort fun a b => a.edit.le b.edit

/-- `sort` orders the edits of `rs` as `Edit.sort` does. -/
theorem map_edit_sort (rs : List Remark) : (sort rs).map (·.edit) = Edit.sort (rs.map (·.edit)) :=
  List.map_mergeSort fun _ _ _ _ => rfl

theorem contents_append (rs later : List Remark) :
    contents (rs ++ later) = contents rs ++ contents later := List.flatMap_append

/-- Leaving out the remarks without comments does not change `contents`. -/
theorem contents_filter_commented (rs : List Remark) :
    contents (rs.filter commented) = contents rs := by
  induction rs with
  | nil => rfl
  | cons r rest ih =>
    have hcons : contents (r :: rest) = Comment.contents r.comments ++ contents rest := rfl
    by_cases h : r.commented
    · rw [List.filter_cons_of_pos h, hcons, ← ih]
      rfl
    · have hnone : r.comments = [] := by simpa [commented] using h
      rw [List.filter_cons_of_neg h, ih, hcons, hnone]
      rfl

/-- `r.edit` stands between `start` and `stop`: what `source` shows up to `start` ends before the
edit, and something visible up to `stop` comes behind it. -/
def LiesIn (source : Text) (r : Remark) (start stop : Nat) : Prop :=
  (∀ o ≤ start, source.closesAt o → o ≤ r.edit.start) ∧
    ∃ last ≤ stop, source.closesAt last ∧ r.edit.start < last

theorem LiesIn.mono {source : Text} {r : Remark} {start start' stop stop' : Nat}
    (h : r.LiesIn source start stop) (hstart : start' ≤ start) (hstop : stop ≤ stop') :
    r.LiesIn source start' stop' := by
  obtain ⟨hbefore, last, hlast, hcloses, hlt⟩ := h
  exact ⟨fun o ho => hbefore o (Nat.le_trans ho hstart), last, Nat.le_trans hlast hstop, hcloses,
    hlt⟩

/-- If `r` lies in a stretch that ends at or before the stretch of `r'`, its edit starts before that
of `r'`. -/
theorem LiesIn.lt {source : Text} {r r' : Remark} {start stop start' stop' : Nat}
    (h : r.LiesIn source start stop) (h' : r'.LiesIn source start' stop') (hle : stop ≤ start') :
    r.edit.start < r'.edit.start := by
  obtain ⟨-, last, hlast, hcloses, hlt⟩ := h
  exact Nat.lt_of_lt_of_le hlt (h'.1 last (Nat.le_trans hlast hle) hcloses)

/-- If `a` and `b` both carry comments, the edit of `a` starts first. -/
def Before (a b : Remark) : Prop := a.commented → b.commented → a.edit.start < b.edit.start

/-- If `ordered` is a permutation of `rs` whose commented edits are in the order of their starts,
`sort rs` says what `ordered` says. -/
theorem contents_sort {rs ordered : List Remark} (hperm : rs.Perm ordered)
    (hbefore : ordered.Pairwise Before) : contents (sort rs) = contents ordered := by
  have hordered : (ordered.filter commented).Pairwise (·.edit.start < ·.edit.start) :=
    List.pairwise_filter.mpr hbefore
  have hsorted : (sort rs).Pairwise fun a b => a.edit.le b.edit :=
    List.pairwise_mergeSort (fun a b c => Edit.le_trans' a.edit b.edit c.edit)
      (fun a b => Edit.le_total' a.edit b.edit) rs
  have hsame : (sort rs).filter commented = ordered.filter commented := by
    apply List.Perm.eq_of_pairwise _ (hsorted.filter _)
      (hordered.imp fun {a b} hab => Edit.le_iff.mpr (.inl hab))
      (((List.mergeSort_perm rs _).trans hperm).filter _)
    -- Of two edits with comments that start together there is but one.
    intro a b ha hb hab hba
    have hstart : a.edit.start = b.edit.start := by
      rw [Edit.le_iff] at hab hba
      omega
    have ha' : a ∈ ordered.filter commented :=
      (((List.mergeSort_perm rs _).trans hperm).filter _).mem_iff.mp ha
    by_contra hne
    have : Std.Symm fun a b : Remark => a.edit.start ≠ b.edit.start := ⟨fun _ _ h => h.symm⟩
    exact (hordered.imp Nat.ne_of_lt).forall ha' hb hne hstart
  rw [← contents_filter_commented, hsame, contents_filter_commented]

end Remark

/-! ## The remarks of a node -/

namespace Sheet

/-- The edit of `leadingEdit`, with the leading comments of `info`. -/
def leadingRemarks (sheet : Sheet) (info : Info) : List Remark :=
  (sheet.leadingEdit info).map (⟨·, info.comments.filter (·.leading)⟩)

/-- The edit of `trailingEdit`, with the other comments of `info`. -/
def trailingRemarks (sheet : Sheet) (info : Info) (shape : Shape Node) : List Remark :=
  (sheet.trailingEdit info shape).map (⟨·, info.comments.filter (!·.leading)⟩)

@[simp] theorem map_edit_leadingRemarks (sheet : Sheet) (info : Info) :
    (sheet.leadingRemarks info).map (·.edit) = sheet.leadingEdit info := by
  simp [leadingRemarks, Function.comp_def]

@[simp] theorem map_edit_trailingRemarks (sheet : Sheet) (info : Info) (shape : Shape Node) :
    (sheet.trailingRemarks info shape).map (·.edit) = sheet.trailingEdit info shape := by
  simp [trailingRemarks, Function.comp_def]

/-- The edits of `n`, each with the comments of `n`; for a node that a pass has made. -/
def madeRemarks (sheet : Sheet) (n : Node) : List Remark :=
  match sheet.edits n with
  | .ok edits => edits.map (⟨·, n.info.comments⟩)
  | .error _ => []

/-- The remarks that `sheet` makes for `n` alone, in the order in which `Sheet.edits` collects
them. -/
def remarksAt (sheet : Sheet) (n : Node) : List Remark :=
  if n.info.synthetic then sheet.madeRemarks n
  else sheet.leadingRemarks n.info ++ sheet.trailingRemarks n.info n.shape

end Sheet

namespace Node

/-- The remarks of all printed nodes of `n`, in the order in which `Sheet.edits` collects them. -/
def remarks (sheet : Sheet) (n : Node) : List Remark := n.printed.flatMap sheet.remarksAt

/-- The remarks of `n` in the order of the source: those of `trailingRemarks` come behind what the
list holds. -/
def sourceRemarks (sheet : Sheet) : Node → List Remark :=
  Node.foldUp fun info shape =>
    if info.synthetic then sheet.madeRemarks (.mk info (shape.map (·.1)))
    else sheet.leadingRemarks info ++ shape.nodes.flatMap (·.2) ++
      sheet.trailingRemarks info (shape.map (·.1))

/-- The contents of the comments of a tree in the order of the source, leading ones before and the
others behind what is below the node. -/
def noted : Node → List Text :=
  Node.foldUp fun info shape =>
    if info.synthetic then Comment.contents info.comments
    else Comment.contents (info.comments.filter (·.leading)) ++ shape.nodes.flatMap (·.2) ++
      Comment.contents (info.comments.filter (!·.leading))

variable {sheet : Sheet} {info : Info}

theorem remarks_of_synthetic {n : Node} (h : n.info.synthetic) :
    n.remarks sheet = sheet.madeRemarks n := by
  rw [remarks, printed_of_synthetic h, List.flatMap_singleton, Sheet.remarksAt, if_pos h]

theorem remarks_mk (h : info.synthetic = false) (shape : Shape Node) :
    (mk info shape).remarks sheet =
      sheet.leadingRemarks info ++ sheet.trailingRemarks info shape ++
        shape.nodes.flatMap (remarks sheet) := by
  have hself : sheet.remarksAt (mk info shape) =
      sheet.leadingRemarks info ++ sheet.trailingRemarks info shape := by
    rw [Sheet.remarksAt, info_mk, h, if_neg Bool.false_ne_true, shape_mk]
  rw [remarks, printed_mk h, List.flatMap_cons, hself, List.flatMap_assoc]
  rfl

theorem sourceRemarks_mk (info : Info) (shape : Shape Node) :
    (mk info shape).sourceRemarks sheet =
      if info.synthetic then sheet.madeRemarks (mk info shape)
      else sheet.leadingRemarks info ++ shape.nodes.flatMap (sourceRemarks sheet) ++
        sheet.trailingRemarks info shape := by
  have hself : (fun p : Node × List Remark => p.1) ∘ (fun n => (n, n.sourceRemarks sheet)) =
      fun n => n := rfl
  rw [sourceRemarks, foldUp_mk, ← sourceRemarks]
  simp only [Shape.map_map, hself, Shape.map_id', Shape.nodes_map, List.flatMap_map]

theorem noted_mk (info : Info) (shape : Shape Node) :
    (mk info shape).noted =
      if info.synthetic then Comment.contents info.comments
      else Comment.contents (info.comments.filter (·.leading)) ++ shape.nodes.flatMap noted ++
        Comment.contents (info.comments.filter (!·.leading)) := by
  rw [noted, foldUp_mk, ← noted]
  simp only [Shape.nodes_map, List.flatMap_map]

/-- `noted` has the content of every comment of a printed node. -/
theorem mem_noted {n m : Node} (hm : m ∈ n.printed) {c : Comment} (hc : c ∈ m.info.comments) :
    c.content ∈ n.noted := by
  have hmem : ∀ {cs : List Comment}, c ∈ cs → c.content ∈ Comment.contents cs := fun hc =>
    List.mem_map_of_mem hc
  induction n using Node.induction with
  | mk info shape ih =>
    rw [noted_mk]
    cases hsynthetic : info.synthetic with
    | true =>
      rw [printed_of_synthetic (n := .mk info shape) hsynthetic, List.mem_singleton] at hm
      rw [if_pos rfl]
      rw [hm] at hc
      exact hmem hc
    | false =>
      rw [printed_mk hsynthetic, List.mem_cons] at hm
      rw [if_neg Bool.false_ne_true]
      rcases hm with rfl | hm
      · -- Before what the node holds, or behind it.
        cases hleading : c.leading with
        | true =>
          refine List.mem_append_left _ (List.mem_append_left _ (hmem ?_))
          exact List.mem_filter.mpr ⟨hc, hleading⟩
        | false =>
          refine List.mem_append_right _ (hmem ?_)
          exact List.mem_filter.mpr ⟨hc, by simp [hleading]⟩
      · obtain ⟨d, hd, hm⟩ := List.mem_flatMap.mp hm
        refine List.mem_append_left _ (List.mem_append_right _ ?_)
        exact List.mem_flatMap.mpr ⟨d, hd, ih d hd hm⟩

/-- `remarks` and `sourceRemarks` hold the same edits. -/
theorem remarks_perm (n : Node) : (n.remarks sheet).Perm (n.sourceRemarks sheet) := by
  induction n using Node.induction with
  | mk info shape ih =>
    rw [sourceRemarks_mk]
    cases hsynthetic : info.synthetic with
    | true => rw [if_pos rfl, remarks_of_synthetic (n := .mk info shape) hsynthetic]
    | false =>
      rw [if_neg Bool.false_ne_true, remarks_mk hsynthetic, List.append_assoc, List.append_assoc]
      refine List.Perm.append_left _ (List.perm_append_comm.trans ?_)
      exact (List.Perm.flatMap_left _ ih).append_right _

/-! ## Trees in which a pass has made placeholders only -/

/-- The printer can deal with every printed node of `n`, and only placeholders among them are made
by a pass. -/
def Bare (sheet : Sheet) (n : Node) : Prop :=
  ∀ m ∈ n.printed, m.Placed sheet ∧ (m.info.synthetic → m.kind = .removed)

theorem Bare.of_mem_children {shape : Shape Node} {c : Node} (h : (mk info shape).Bare sheet)
    (hsynthetic : info.synthetic = false) (hc : c ∈ shape.nodes) : c.Bare sheet := by
  intro m hm
  refine h m ?_
  rw [printed_mk hsynthetic]
  exact List.mem_cons_of_mem _ (List.mem_flatMap.mpr ⟨c, hc, hm⟩)

/-- The root of a bare tree is a placeholder for a visible span, or it `Stays`. -/
theorem Bare.cases {shape : Shape Node} (h : (mk info shape).Bare sheet) :
    info.synthetic ∧ shape = .removed ∧ sheet.source.encloses info.start info.stop ∨
      info.synthetic = false ∧ (mk info shape).Stays sheet := by
  obtain ⟨hplaced, hmade⟩ := h (mk info shape) (mem_preorder_self _ _)
  cases hsynthetic : info.synthetic with
  | false => exact .inr ⟨rfl, hplaced.2 hsynthetic⟩
  | true =>
    refine .inl ⟨rfl, ?_, (hplaced.1 hsynthetic).encloses⟩
    have hkind := hmade hsynthetic
    cases shape <;> first | rfl | cases hkind

end Node

namespace Sheet

variable {sheet : Sheet} {info : Info}

/-- For a placeholder, `edits` and `madeRemarks` consist of the one edit of its cut, which carries
all its comments. -/
theorem madeRemarks_removed (hsynthetic : info.synthetic)
    (h : sheet.source.encloses info.start info.stop) :
    ∃ e cut, sheet.edits (.mk info .removed) = .ok [e] ∧
      sheet.madeRemarks (.mk info .removed) = [⟨e, info.comments⟩] ∧
      sheet.source.removal info.start info.stop = .ok cut ∧
      cut.Covers sheet.source info.start info.stop ∧
      e.start = cut.start ∧ e.stop = cut.stop ∧ Remark.Carries ⟨e, info.comments⟩ := by
  obtain ⟨cut, hcut, hcovers⟩ := Text.removal_of_encloses h
  obtain ⟨e, hedit, hstart, hstop, hcarries⟩ : ∃ e, sheet.removalEdit info = .ok e ∧
      e.start = cut.start ∧ e.stop = cut.stop ∧ Remark.Carries ⟨e, info.comments⟩ := by
    rw [removalEdit, hcut]
    refine ⟨_, rfl, rfl, rfl, ?_⟩
    rw [Remark.Carries]
    cases info.comments with
    | nil => exact ⟨[], [], .inl rfl⟩
    | cons c cs =>
      simp only [List.isEmpty_cons, Bool.false_eq_true, if_false]
      split
      · exact ⟨sheet.source.lineIndent info.start, sheet.newline, .inl rfl⟩
      split
      · exact ⟨text " ", [], .inr (by simp [Comment.blocksAfter])⟩
      · exact ⟨[], text " ", .inr rfl⟩
  have hedits : sheet.edits (.mk info .removed) = .ok [e] := by
    simp only [edits, hsynthetic, if_true, hedit]
    rfl
  exact ⟨e, cut, hedits, by rw [madeRemarks, hedits]; rfl, hcut, hcovers, hstart, hstop, hcarries⟩

/-- If `edits` gives `own n` for every `n` of `ns`, `listEdits` gives all these in order. -/
theorem listEdits_eq_flatMap {own : Node → List Edit} {ns : List Node}
    (h : ∀ n ∈ ns, Ensures (sheet.edits n) fun edits => edits = own n) :
    Ensures (sheet.listEdits ns) fun edits => edits = ns.flatMap own := by
  induction ns with
  | nil =>
    rw [listEdits]
    exact ensures_ok rfl
  | cons n rest ih =>
    rw [List.forall_mem_cons] at h
    rw [listEdits]
    refine h.1.bind fun first hfirst => (ih h.2).bind fun later hlater => ensures_ok ?_
    rw [hfirst, hlater, List.flatMap_cons]

/-- `Sheet.edits` gives the edits of `remarks`, whatever a pass has made in the tree. -/
theorem edits_eq_remarks (n : Node) :
    Ensures (sheet.edits n) fun edits => edits = (n.remarks sheet).map (·.edit) := by
  induction n using Node.induction with
  | mk info shape ih =>
    cases hsynthetic : info.synthetic with
    | true =>
      intro edits hedits
      rw [Node.remarks_of_synthetic (n := .mk info shape) hsynthetic, madeRemarks, hedits]
      simp [Function.comp_def]
    | false =>
      rw [edits_of_not_synthetic hsynthetic]
      refine (listEdits_eq_flatMap ih).bind fun below hbelow => ensures_ok ?_
      rw [hbelow, Node.remarks_mk hsynthetic, List.map_append, List.map_append, List.map_flatMap,
        map_edit_leadingRemarks, map_edit_trailingRemarks]

/-- For a bare tree `Sheet.edits` does not fail, and gives the edits of `remarks`. -/
theorem edits_of_bare {n : Node} (h : n.Bare sheet) :
    sheet.edits n = .ok ((n.remarks sheet).map (·.edit)) := by
  induction n using Node.induction with
  | mk info shape ih =>
    rcases h.cases with ⟨hsynthetic, rfl, hencloses⟩ | ⟨hsynthetic, -⟩
    · obtain ⟨e, -, hedits, hremarks, -⟩ := madeRemarks_removed hsynthetic hencloses
      rw [Node.remarks_of_synthetic (n := .mk info .removed) hsynthetic, hremarks, hedits]
      rfl
    · rw [edits_of_not_synthetic hsynthetic, Node.remarks_mk hsynthetic,
        listEdits_of_forall fun c hc => ih c hc (h.of_mem_children hsynthetic hc)]
      simp only [List.map_append, List.map_flatMap, map_edit_leadingRemarks,
        map_edit_trailingRemarks, bind, Except.bind, pure, Except.pure]

/-- Every remark of `leadingRemarks` is carried by its edit. -/
theorem carries_leadingRemarks {r : Remark} (hr : r ∈ sheet.leadingRemarks info) :
    r.Carries := by
  obtain ⟨e, he, rfl⟩ := List.mem_map.mp hr
  rw [leadingEdit] at he
  split at he
  · cases he
  rw [List.mem_singleton] at he
  subst he
  simp only [Remark.Carries, leadingText]
  split
  · let indent := sheet.source.slice (sheet.source.lineStart info.start) info.start
    exact ⟨[], sheet.newline ++ indent, .inl (by simp [indent])⟩
  · exact ⟨[], text " ", .inr rfl⟩

/-- Every remark of `trailingRemarks` is carried by its edit. -/
theorem carries_trailingRemarks {shape : Shape Node} {r : Remark}
    (hr : r ∈ sheet.trailingRemarks info shape) : r.Carries := by
  have hlines : ∀ (e : Edit) (indent : Text) (cs : List Comment),
      e.text = Comment.lines indent sheet.newline cs → Remark.Carries ⟨e, cs⟩ :=
    fun e indent cs h => ⟨indent, sheet.newline, .inl h⟩
  obtain ⟨e, he, rfl⟩ := List.mem_map.mp hr
  rw [trailingEdit] at he
  split at he
  · cases he
  split at he
  · simp only at he
    split at he
    · exact hlines e _ _ (by rw [List.mem_singleton.mp he])
    · exact ⟨[], text " ", .inr (by rw [List.mem_singleton.mp he]; rfl)⟩
  · exact ⟨text " ", [], .inr (by rw [List.mem_singleton.mp he]; simp [Comment.blocksAfter])⟩

/-- Every remark of a bare tree is carried by its edit. -/
theorem carries_remarks {n : Node} (h : n.Bare sheet) : ∀ r ∈ n.remarks sheet, r.Carries := by
  induction n using Node.induction with
  | mk info shape ih =>
    rcases h.cases with ⟨hsynthetic, rfl, hencloses⟩ | ⟨hsynthetic, -⟩
    · obtain ⟨e, cut, -, hremarks, -, -, -, -, hcarries⟩ :=
        madeRemarks_removed hsynthetic hencloses
      rw [Node.remarks_of_synthetic (n := .mk info .removed) hsynthetic, hremarks,
        List.forall_mem_singleton]
      exact hcarries
    · rw [Node.remarks_mk hsynthetic, List.forall_mem_append, List.forall_mem_append,
        List.forall_mem_flatMap]
      exact ⟨⟨fun r hr => carries_leadingRemarks hr, fun r hr => carries_trailingRemarks hr⟩,
        fun c hc => ih c hc (h.of_mem_children hsynthetic hc)⟩

/-- `leadingRemarks` say the contents of the leading comments of `info`. -/
theorem contents_leadingRemarks (sheet : Sheet) (info : Info) :
    Remark.contents (sheet.leadingRemarks info) =
      Comment.contents (info.comments.filter (·.leading)) := by
  rw [leadingRemarks, leadingEdit]
  cases info.comments.filter (·.leading) <;> simp [Remark.contents, Comment.contents]

/-- `trailingRemarks` say the contents of its other comments. -/
theorem contents_trailingRemarks (sheet : Sheet) (info : Info) (shape : Shape Node) :
    Remark.contents (sheet.trailingRemarks info shape) =
      Comment.contents (info.comments.filter (!·.leading)) := by
  rw [trailingRemarks, trailingEdit]
  cases info.comments.filter (!·.leading) with
  | nil => simp [Remark.contents, Comment.contents]
  | cons c cs =>
    simp only [List.isEmpty_cons, Bool.false_eq_true, if_false]
    split
    · split <;> simp [Remark.contents]
    · simp [Remark.contents]

/-- For a bare tree, `sourceRemarks` say what is `noted` in it. -/
theorem contents_sourceRemarks {n : Node} (h : n.Bare sheet) :
    Remark.contents (n.sourceRemarks sheet) = n.noted := by
  induction n using Node.induction with
  | mk info shape ih =>
    rw [Node.sourceRemarks_mk, Node.noted_mk]
    rcases h.cases with ⟨hsynthetic, rfl, hencloses⟩ | ⟨hsynthetic, -⟩
    · obtain ⟨e, cut, -, hremarks, -⟩ := madeRemarks_removed hsynthetic hencloses
      rw [if_pos hsynthetic, if_pos hsynthetic, hremarks]
      simp [Remark.contents]
    · have hbelow : Remark.contents (shape.nodes.flatMap (Node.sourceRemarks sheet)) =
          shape.nodes.flatMap Node.noted := by
        rw [Remark.contents, List.flatMap_assoc]
        exact List.flatMap_congr fun c hc => ih c hc (h.of_mem_children hsynthetic hc)
      rw [hsynthetic, if_neg Bool.false_ne_true, if_neg Bool.false_ne_true,
        Remark.contents_append, Remark.contents_append, contents_leadingRemarks, hbelow,
        contents_trailingRemarks]

end Sheet

/-! ## The order of the source -/

/-- The edit for a sound site `s` lies in any stretch that starts at `s.start` and holds it. -/
theorem Site.Sound.liesIn {source : Text} {s : Site} (h : s.Sound source) {r : Remark}
    (hr : r.edit = s.edit) {stop : Nat} (hlt : s.start < stop) (hle : s.stop ≤ stop) :
    r.LiesIn source s.start stop := by
  refine ⟨fun o ho hcloses => hr ▸ h.le_edit_start hcloses ho, ?_⟩
  have hfirst : r.edit.start ≤ s.start →
      ∃ last ≤ stop, source.closesAt last ∧ r.edit.start < last := fun hle =>
    ⟨s.start + 1, hlt, Text.closesAt_succ h.first, Nat.lt_succ_of_le hle⟩
  have hfits := h.fits
  cases hkind : s.kind <;> simp only [Fits, hkind] at hfits
  case exact => exact hfirst (hr ▸ Nat.le_of_eq hfits.1)
  case line => exact hfirst (hr ▸ hfits.2.2.1 ▸ source.lineStart_le s.start)
  case within => exact ⟨s.stop, hle, h.last (Nat.lt_trans hfits.1 hfits.2.1), hr ▸ hfits.2.1⟩
  case cut =>
    obtain ⟨-, cut, hcovers, hstart, -⟩ := hfits
    exact hfirst (hr ▸ hstart ▸ hcovers.start_le)

namespace Node

/-- `n` is a placeholder for a statement that was taken out, or has comments before it. -/
def Heads (n : Node) : Prop := n.isPlaceholder ∨ ∃ c ∈ n.info.comments, c.leading

/-- A child of `n` with comments before it starts later than `n`. -/
def HeadsLater (n : Node) : Prop :=
  ∀ c ∈ n.children, (∃ m ∈ c.info.comments, m.leading) → n.info.start < c.info.start

/-- The commented edits of `n` are `ordered` as the source is, and lie `inside` its span; behind its
first character unless `n.Heads`. -/
structure InSourceOrder (sheet : Sheet) (n : Node) : Prop where
  ordered : (n.sourceRemarks sheet).Pairwise Remark.Before
  inside : ∀ r ∈ n.sourceRemarks sheet, r.commented →
    r.LiesIn sheet.source n.info.start n.info.stop ∧
      (n.Heads ∨ r.LiesIn sheet.source (n.info.start + 1) n.info.stop)

variable {sheet : Sheet}

/-- For nodes `ns` one behind the other, each in source order, so are all their `sourceRemarks`. -/
theorem InSourceOrder.pairwise_flatMap {ns : List Node}
    (hordered : ns.Pairwise (·.info.stop ≤ ·.info.start))
    (h : ∀ n ∈ ns, n.InSourceOrder sheet) :
    (ns.flatMap (sourceRemarks sheet)).Pairwise Remark.Before := by
  rw [List.pairwise_flatMap]
  refine ⟨fun n hn => (h n hn).ordered, hordered.imp_of_mem fun {a b} ha hb hab => ?_⟩
  intro r hr r' hr' hcommented hcommented'
  exact ((h a ha).inside r hr hcommented).1.lt ((h b hb).inside r' hr' hcommented').1 hab

/-- A placeholder is in source order, as its only edit is at its start. -/
theorem inSourceOrder_removed {info : Info} (hsynthetic : info.synthetic)
    (h : sheet.source.encloses info.start info.stop) :
    (mk info .removed).InSourceOrder sheet := by
  obtain ⟨e, cut, -, hremarks, -, hcovers, hstart, -⟩ := Sheet.madeRemarks_removed hsynthetic h
  obtain ⟨hlt, hfirst, -⟩ := Text.encloses_iff.mp h
  have hsource : (mk info .removed).sourceRemarks sheet = [⟨e, info.comments⟩] := by
    rw [sourceRemarks_mk, if_pos hsynthetic, hremarks]
  constructor
  case ordered => exact hsource ▸ List.pairwise_singleton _ _
  case inside =>
    rw [hsource, List.forall_mem_singleton]
    have hheads : (mk info .removed).isPlaceholder := by
      rw [isPlaceholder, info_mk, hsynthetic]
      rfl
    refine fun _ => ⟨⟨fun o ho hcloses => ?_, info.start + 1, hlt, Text.closesAt_succ hfirst, ?_⟩,
      .inl (.inl hheads)⟩
    · exact hstart ▸ Text.le_of_closesAt hcovers.before hfirst hcloses ho
    · exact Nat.lt_succ_of_le (hstart ▸ hcovers.start_le)

/-- The edit of `leadingRemarks` lies at the first character of the node. -/
theorem liesIn_leadingRemarks {info : Info} (h : ∀ c ∈ info.comments, c.leading →
      info.start < info.stop ∧ sheet.source.isVisibleAt info.start) :
    ∀ r ∈ sheet.leadingRemarks info, r.LiesIn sheet.source info.start (info.start + 1) ∧
      info.start < info.stop ∧ ∃ c ∈ info.comments, c.leading := by
  intro r hr
  obtain ⟨site, hsite, hleads⟩ := Sites.leadingEdit_site sheet info h
  obtain ⟨e, he, rfl⟩ := List.mem_map.mp hr
  have hcomments : ∃ c ∈ info.comments, c.leading := by
    by_contra hnone
    rw [Sheet.leadingEdit, List.filter_eq_nil_iff.mpr (by simpa using hnone)] at he
    cases he
  rw [hsite] at he
  obtain ⟨s, hs, rfl⟩ := List.mem_map.mp he
  have hs := hleads s hs
  have hstart := hs.start
  have hstop := hs.stop
  exact ⟨hstart ▸ hs.sound.liesIn rfl (by omega) (by omega), hs.lt, hcomments⟩

/-- The edit of `trailingRemarks` lies at the closing brace, behind all that the list holds. -/
theorem liesIn_trailingRemarks {info : Info} {shape : Shape Node}
    (h : ∀ c ∈ info.comments, c.leading = false →
      shape.kind.isBracedList ∧ (mk info shape).IsBraced sheet.source) :
    ∀ r ∈ sheet.trailingRemarks info shape, ∃ brace, info.start < brace ∧
      (∀ c ∈ shape.nodes, c.info.stop ≤ brace) ∧ r.LiesIn sheet.source brace info.stop := by
  intro r hr
  obtain ⟨site, hsite, hcloses⟩ := Sites.trailingEdit_site sheet info shape h
  obtain ⟨e, he, rfl⟩ := List.mem_map.mp hr
  rw [hsite] at he
  obtain ⟨s, hs, rfl⟩ := List.mem_map.mp he
  have hs := hcloses s hs
  exact ⟨s.start, hs.lt_start, hs.children, hs.sound.liesIn rfl hs.start_lt hs.stop_le⟩

/-- A commented edit below a node that `Stays` lies in one of its children, behind the first
character of the node. -/
theorem liesIn_below {info : Info} {shape : Shape Node} (h : (mk info shape).Stays sheet)
    (hlater : (mk info shape).HeadsLater) (hchildren : ∀ c ∈ shape.nodes, c.InSourceOrder sheet) :
    ∀ r ∈ shape.nodes.flatMap (sourceRemarks sheet), r.commented →
      ∃ c ∈ shape.nodes, r.LiesIn sheet.source (info.start + 1) c.info.stop := by
  obtain ⟨-, hinside, -⟩ := h.spans
  intro r hr hcommented
  obtain ⟨c, hc, hr⟩ := List.mem_flatMap.mp hr
  obtain ⟨hlies, hfirst⟩ := (hchildren c hc).inside r hr hcommented
  have hstart : info.start ≤ c.info.start := (hinside c hc).1
  refine ⟨c, hc, ?_⟩
  rcases hfirst with (hplaceholder | hcomments) | hbehind
  · exact hlies.mono (h.cuts c hc hplaceholder) (Nat.le_refl _)
  · exact hlies.mono (hlater c hc hcomments) (Nat.le_refl _)
  · exact hbehind.mono (Nat.succ_le_succ hstart) (Nat.le_refl _)

/-- At most one edit is always in order. -/
theorem pairwise_before_of_length {edits : List Edit} {cs : List Comment}
    (h : edits.length ≤ 1) : (edits.map (Remark.mk · cs)).Pairwise Remark.Before := by
  rcases edits with _ | ⟨e, _ | ⟨e', rest⟩⟩
  · exact .nil
  · exact List.pairwise_singleton _ _
  · simp at h

/-- A node that `Stays` is in source order if all its children are. -/
theorem inSourceOrder_of_stays {info : Info} {shape : Shape Node}
    (hsynthetic : info.synthetic = false) (h : (mk info shape).Stays sheet)
    (hlater : (mk info shape).HeadsLater) (hchildren : ∀ c ∈ shape.nodes, c.InSourceOrder sheet) :
    (mk info shape).InSourceOrder sheet := by
  obtain ⟨-, hinside, hordered⟩ := h.spans
  have hleading := liesIn_leadingRemarks h.leading
  have htrailing := liesIn_trailingRemarks h.trailing
  have hbelow := liesIn_below h hlater hchildren
  have hsource : (mk info shape).sourceRemarks sheet =
      sheet.leadingRemarks info ++ shape.nodes.flatMap (sourceRemarks sheet) ++
        sheet.trailingRemarks info shape := by
    rw [sourceRemarks_mk, hsynthetic, if_neg Bool.false_ne_true]
  constructor
  case ordered =>
    rw [hsource, List.pairwise_append, List.pairwise_append]
    refine ⟨⟨pairwise_before_of_length ?_, InSourceOrder.pairwise_flatMap hordered hchildren, ?_⟩,
      pairwise_before_of_length ?_, ?_⟩
    · rw [Sheet.leadingEdit]
      split <;> simp
    · intro r hr r' hr' _ hcommented'
      obtain ⟨c, -, hlies'⟩ := hbelow r' hr' hcommented'
      exact (hleading r hr).1.lt hlies' (Nat.le_refl _)
    · rw [Sheet.trailingEdit]
      split
      · simp
      split
      · simp only
        split <;> simp
      · simp
    · -- The closing brace comes behind the first character of the list and all that it holds.
      intro r hr r' hr' hcommented _
      obtain ⟨brace, hbrace, hlast, hlies'⟩ := htrailing r' hr'
      rcases List.mem_append.mp hr with hr | hr
      · exact (hleading r hr).1.lt hlies' hbrace
      · obtain ⟨c, hc, hlies⟩ := hbelow r hr hcommented
        exact hlies.lt hlies' (hlast c hc)
  case inside =>
    rw [hsource, List.forall_mem_append, List.forall_mem_append]
    refine ⟨⟨fun r hr _ => ?_, fun r hr hcommented => ?_⟩, fun r hr _ => ?_⟩
    · obtain ⟨hlies, hlt, hcomments⟩ := hleading r hr
      exact ⟨hlies.mono (Nat.le_refl _) hlt, .inl (.inr hcomments)⟩
    · obtain ⟨c, hc, hlies⟩ := hbelow r hr hcommented
      have hlies := hlies.mono (Nat.le_refl _) (hinside c hc).2
      exact ⟨hlies.mono (Nat.le_succ _) (Nat.le_refl _), .inr hlies⟩
    · obtain ⟨brace, hbrace, -, hlies⟩ := htrailing r hr
      exact ⟨hlies.mono (Nat.le_of_lt hbrace) (Nat.le_refl _),
        .inr (hlies.mono hbrace (Nat.le_refl _))⟩

/-- A bare tree in which all nodes with comments before them start later than what holds them is in
source order; by induction on the tree. -/
theorem Bare.inSourceOrder {n : Node} (h : n.Bare sheet) (hlater : ∀ m ∈ n.printed, m.HeadsLater) :
    n.InSourceOrder sheet := by
  induction n using Node.induction with
  | mk info shape ih =>
    rcases h.cases with ⟨hsynthetic, rfl, hencloses⟩ | ⟨hsynthetic, hstays⟩
    · exact inSourceOrder_removed hsynthetic hencloses
    · rw [printed_mk hsynthetic, List.forall_mem_cons, List.forall_mem_flatMap] at hlater
      exact inSourceOrder_of_stays hsynthetic hstays hlater.1 fun c hc =>
        ih c hc (h.of_mem_children hsynthetic hc) (hlater.2 c hc)

end Node
end FlagFold
