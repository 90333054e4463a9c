/-
  FlagFold.Proofs.Print.Cuts

  What is cut out for statements that were taken out of a tree.  A cut takes along
  blanks and at most one line terminator (`Text.Spares`).  Where a tree holds
  nothing made by a pass but placeholders, the edits that are not mere insertions
  are the cuts for its placeholders, in their order.
-/

import FlagFold.Proofs.Print.Copies
import FlagFold.Proofs.Print.Remarks

namespace FlagFold

namespace Text

/-- The span `cut`, taken out for the statement from `start` to `stop`, takes along no code: blanks
`before` it, and `after` it blanks and one line terminator, that only where the statement has its
lines for itself. -/
structure Spares (source : Text) (start stop : Nat) (cut : Nat × Nat) : Prop where
  start_le : cut.1 ≤ start
  le_stop : stop ≤ cut.2
  stop_le : cut.2 ≤ source.length
  before : source.isBlankBetween cut.1 start
  after : ∃ blanks terminator, source.slice stop cut.2 = blanks ++ terminator ∧
    blanks.all CodePoint.isBlank ∧
    (terminator = [] ∨ (terminator = text "\n" ∨ terminator = text "\r\n") ∧
      source.startsLine start ∧ source.endsLineAt stop)

variable {source : Text} {start stop : Nat}

/-- A `cut` with blanks on both sides of the statement, and no line terminator, `Spares` the
code. -/
theorem spares_of_blanks {cut : Nat × Nat} (hstart : cut.1 ≤ start) (hstop : stop ≤ cut.2)
    (hlength : cut.2 ≤ source.length) (hbefore : source.isBlankBetween cut.1 start)
    (hafter : source.isBlankBetween stop cut.2) : source.Spares start stop cut where
  start_le := hstart
  le_stop := hstop
  stop_le := hlength
  before := hbefore
  after := ⟨source.slice stop cut.2, [], (List.append_nil _).symm, hafter, .inl rfl⟩

/-- The cut from the start of the line of `start` up to and with the `terminator` behind `stop`
`Spares` the code. -/
theorem spares_of_line {terminator : Text} (hstop : stop ≤ source.length)
    (hblank : source.isBlankBetween (source.lineStart start) start)
    (hterminator : terminator = text "\n" ∨ terminator = text "\r\n")
    (h : terminator.isPrefixOf (source.drop (source.blanksEnd stop))) :
    source.Spares start stop (source.lineStart start,
      source.blanksEnd stop + terminator.length) where
  start_le := source.lineStart_le start
  le_stop := Nat.le_trans (source.le_blanksEnd stop) (Nat.le_add_right _ _)
  stop_le := le_length_of_isPrefixOf hstop h
  before := hblank
  after := by
    obtain ⟨rest, hrest⟩ := List.isPrefixOf_iff_prefix.mp h
    have hslice : source.slice (source.blanksEnd stop)
        (source.blanksEnd stop + terminator.length) = terminator := by
      rw [slice, ← hrest, Nat.add_sub_cancel_left, List.take_left]
    refine ⟨source.slice stop (source.blanksEnd stop), terminator, ?_,
      source.isBlankBetween_blanksEnd stop, .inr ⟨hterminator, hblank, ?_⟩⟩
    · rw [← slice_append_slice source (source.le_blanksEnd stop) (Nat.le_add_right _ _), hslice]
    · rw [endsLineAt_eq, ← hrest]
      rcases hterminator with rfl | rfl <;> rfl

/-- Every cut that `Text.removal` finds `Spares` the code around the statement. -/
theorem spares_of_removal {cut : Removal} (hlt : start < stop) (hstop : stop ≤ source.length)
    (h : source.removal start stop = .ok cut) :
    source.Spares start stop (cut.start, cut.stop) := by
  have hend := blanksEnd_le_length hstop
  have hfirst := source.lineStart_le start
  have hblanks := source.isBlankBetween_blanksEnd stop
  rw [removal_eq, if_neg (by omega)] at h
  by_cases hbefore : source.isBlankBetween (source.lineStart start) start
  · rw [if_pos hbefore] at h
    -- Nothing comes before the statement on its line: the line goes, with its terminator where
    -- there is one, or what follows on it stays.
    split at h
    case isTrue hempty =>
      cases h
      exact spares_of_blanks hfirst (source.le_blanksEnd stop) hend hbefore hblanks
    case isFalse hempty =>
    split at h
    case isTrue hcrlf =>
      cases h
      exact spares_of_line hstop hbefore (.inr rfl) hcrlf
    case isFalse hcrlf =>
    split at h
    case isTrue hfeed =>
      cases h
      exact spares_of_line hstop hbefore (.inl rfl) hfeed
    case isFalse hfeed =>
      cases h
      exact spares_of_blanks (Nat.le_refl _) (source.le_blanksEnd stop) hend
        (isBlankBetween_self _ _) hblanks
  · rw [if_neg hbefore] at h
    -- Something comes before it: the blanks in between go if nothing follows, and else those
    -- behind.
    split at h
    case isTrue hline =>
      rw [if_neg (by omega)] at h
      cases h
      exact spares_of_blanks (source.blanksStart_le _ _) (Nat.le_refl _) hstop
        (isBlankBetween_blanksStart hfirst (by omega)) (isBlankBetween_self _ _)
    case isFalse hline =>
      cases h
      exact spares_of_blanks (Nat.le_refl _) (source.le_blanksEnd stop) hend
        (isBlankBetween_self _ _) hblanks

end Text

/-! ## The cuts of a tree -/

namespace Node

/-- The span that `Text.removal` cuts out of `source` for the statement `n`. -/
def cutSpan (source : Text) (n : Node) : Nat × Nat :=
  match source.removal n.info.start n.info.stop with
  | .ok cut => (cut.start, cut.stop)
  | .error _ => n.span

/-- For a statement whose span `source.encloses`, `cutSpan` is a cut that `Spares` the code around
it. -/
theorem spares_cutSpan {source : Text} {n : Node}
    (h : source.encloses n.info.start n.info.stop) :
    source.Spares n.info.start n.info.stop (n.cutSpan source) := by
  obtain ⟨hlt, -, hcloses⟩ := Text.encloses_iff.mp h
  obtain ⟨cut, hcut, -⟩ := Text.removal_of_encloses h
  rw [cutSpan, hcut]
  exact Text.spares_of_removal hlt (Text.le_length_of_closesAt hcloses) hcut

variable {sheet : Sheet}

/-- A placeholder is the only one of the `placeholders` of its tree. -/
theorem placeholders_removed {info : Info} (h : info.synthetic) :
    (mk info .removed).placeholders = [mk info .removed] :=
  placeholders_of_synthetic (n := .mk info .removed) h

/-- `placeholders` come one behind the other, each for a visible span of `source`. -/
def InOrder (source : Text) (placeholders : List Node) : Prop :=
  placeholders.Pairwise (·.info.stop ≤ ·.info.start) ∧
    ∀ p ∈ placeholders, source.encloses p.info.start p.info.stop

/-- If the placeholders of each of `ns` are `InOrder` and lie in it, and `ns` come one behind the
other, so do all their placeholders. -/
theorem inOrder_flatMap {source : Text} {ns : List Node}
    (hordered : ns.Pairwise (·.info.stop ≤ ·.info.start))
    (h : ∀ n ∈ ns, InOrder source n.placeholders ∧
      ∀ p ∈ n.placeholders, n.info.start ≤ p.info.start ∧ p.info.stop ≤ n.info.stop) :
    InOrder source (ns.flatMap placeholders) := by
  rw [InOrder, List.pairwise_flatMap, List.forall_mem_flatMap]
  refine ⟨⟨fun n hn => (h n hn).1.1, hordered.imp_of_mem fun {a b} ha hb hab => ?_⟩,
    fun n hn => (h n hn).1.2⟩
  intro p hp q hq
  have hp' := (h a ha).2 p hp
  have hq' := (h b hb).2 q hq
  omega

/-- The placeholders of a bare tree are `InOrder` and lie in its span. -/
theorem Bare.placeholders_inOrder {n : Node} (h : n.Bare sheet) :
    InOrder sheet.source n.placeholders ∧
      ∀ p ∈ n.placeholders, n.info.start ≤ p.info.start ∧ p.info.stop ≤ n.info.stop := by
  induction n using Node.induction with
  | mk info shape ih =>
    rcases h.cases with ⟨hsynthetic, rfl, hencloses⟩ | ⟨hsynthetic, hstays⟩
    · rw [placeholders_removed hsynthetic, InOrder, List.forall_mem_singleton,
        List.forall_mem_singleton]
      exact ⟨⟨List.pairwise_singleton _ _, hencloses⟩, Nat.le_refl _, Nat.le_refl _⟩
    · have hchildren := fun c hc => ih c hc (h.of_mem_children hsynthetic hc)
      obtain ⟨-, hinside, hordered⟩ := hstays.spans
      rw [placeholders_mk hsynthetic]
      refine ⟨inOrder_flatMap hordered hchildren, fun p hp => ?_⟩
      obtain ⟨c, hc, hp⟩ := List.mem_flatMap.mp hp
      obtain ⟨hstart, hstop⟩ := (hchildren c hc).2 p hp
      have hc' := hinside c hc
      exact ⟨Nat.le_trans hc'.1 hstart, Nat.le_trans hstop hc'.2⟩

end Node

/-- `e` replaces a span that is not empty. -/
def Edit.takesOut (e : Edit) : Bool := e.start < e.stop

namespace Sheet

variable {sheet : Sheet}

/-- No edit of `leadingEdit` `takesOut` anything. -/
theorem takesOut_leadingEdit (sheet : Sheet) (info : Info) :
    (sheet.leadingEdit info).filter Edit.takesOut = [] := by
  rw [leadingEdit]
  split <;> simp [Edit.takesOut]

/-- No edit of `trailingEdit` `takesOut` anything. -/
theorem takesOut_trailingEdit (sheet : Sheet) (info : Info) (shape : Shape Node) :
    (sheet.trailingEdit info shape).filter Edit.takesOut = [] := by
  rw [trailingEdit]
  split
  · rfl
  split
  · simp only
    split <;> simp [Edit.takesOut]
  · simp [Edit.takesOut]

/-- Of the remarks of a bare tree, those that take something out have the spans `cutSpan` of its
placeholders, in order. -/
theorem takesOut_remarks {n : Node} (h : n.Bare sheet) :
    (((n.remarks sheet).map (·.edit)).filter Edit.takesOut).map Edit.span =
      n.placeholders.map (·.cutSpan sheet.source) := by
  induction n using Node.induction with
  | mk info shape ih =>
    rcases h.cases with ⟨hsynthetic, rfl, hencloses⟩ | ⟨hsynthetic, -⟩
    · obtain ⟨e, cut, -, hremarks, hcut, hcovers, hstart, hstop, -⟩ :=
        madeRemarks_removed hsynthetic hencloses
      obtain ⟨hlt, -, -⟩ := Text.encloses_iff.mp hencloses
      have htakes : e.takesOut := by
        have := hcovers.start_le
        have := hcovers.le_stop
        rw [Edit.takesOut, decide_eq_true_eq]
        omega
      rw [Node.remarks_of_synthetic (n := .mk info .removed) hsynthetic, hremarks,
        Node.placeholders_removed hsynthetic, List.map_singleton, List.filter_cons_of_pos htakes,
        List.filter_nil, List.map_singleton, List.map_singleton, Node.cutSpan, Node.info_mk, hcut,
        Edit.span, hstart, hstop]
    · rw [Node.remarks_mk hsynthetic, List.map_append, List.map_append, map_edit_leadingRemarks,
        map_edit_trailingRemarks, List.filter_append, List.filter_append, takesOut_leadingEdit,
        takesOut_trailingEdit, List.nil_append, List.nil_append, List.map_flatMap,
        List.filter_flatMap, List.map_flatMap, Node.placeholders_mk hsynthetic, List.map_flatMap]
      exact List.flatMap_congr fun c hc => ih c hc (h.of_mem_children hsynthetic hc)

end Sheet

/-! ## What a program without some statements copies -/

/-- No line of `source` holds characters of both `a` and `b`. -/
def Node.OnOtherLines (source : Text) (a b : Node) : Prop :=
  ∀ i < a.info.stop, a.info.start ≤ i → ∀ j < b.info.stop, b.info.start ≤ j →
    (source.position i).line ≠ (source.position j).line

instance (source : Text) (a b : Node) : Decidable (a.OnOtherLines source b) :=
  inferInstanceAs (Decidable (∀ i < a.info.stop, a.info.start ≤ i → ∀ j < b.info.stop,
    b.info.start ≤ j → (source.position i).line ≠ (source.position j).line))

namespace Text

variable {source : Text}

/-- If something visible ends at `a` and only blanks stand from there to `b`, then `a - 1` and `b`
are on one line. -/
theorem line_eq_of_isBlankBetween {a b : Nat} (hab : a ≤ b) (hcloses : source.closesAt a)
    (hblank : source.isBlankBetween a b) :
    (source.position (a - 1)).line = (source.position b).line := by
  have hpos := pos_of_closesAt hcloses
  rw [position_of_no_lineFeed (by omega : a - 1 ≤ b)]
  intro c hc hfeed
  rw [CodePoint.isLineFeed, decide_eq_true_eq] at hfeed
  subst hfeed
  obtain ⟨i, hi⟩ := List.mem_iff_getElem?.mp hc
  rw [getElem?_slice] at hi
  split at hi
  case isFalse => cases hi
  case isTrue hlt =>
    rcases Nat.eq_zero_or_pos i with rfl | hbehind
    · obtain ⟨c, hc, hends⟩ := exists_of_closesAt hcloses
      rw [Nat.add_zero, hc] at hi
      cases hi
      exact hends (by decide)
    · have h := isBlankBetween_iff.mp hblank (a - 1 + i) (by omega) (by omega) _ hi
      exact absurd h (by decide)

/-- Statements `OnOtherLines` share no blanks. -/
theorem not_sharesBlanks_of_onOtherLines {a b : Node}
    (ha : source.encloses a.info.start a.info.stop) (hb : b.info.start < b.info.stop)
    (h : a.OnOtherLines source b) :
    ¬ source.sharesBlanks a.info.stop b.info.start b.info.stop := by
  obtain ⟨hlt, -, hcloses⟩ := encloses_iff.mp ha
  simp only [sharesBlanks, Bool.and_eq_true, decide_eq_true_eq]
  rintro ⟨⟨hbetween, hblank⟩, -⟩
  refine h (a.info.stop - 1) (by omega) (by omega) b.info.start hb (Nat.le_refl _) ?_
  exact line_eq_of_isBlankBetween (Nat.le_of_lt hbetween) hcloses hblank

end Text

namespace Node

/-- If `a` ends before `b` and the two share no blanks, `a.cutSpan` ends before `b.cutSpan`
starts. -/
theorem cutSpan_le {source : Text} {a b : Node} (ha : source.encloses a.info.start a.info.stop)
    (hb : source.encloses b.info.start b.info.stop) (hle : a.info.stop ≤ b.info.start)
    (hshares : ¬ source.sharesBlanks a.info.stop b.info.start b.info.stop) :
    (a.cutSpan source).2 ≤ (b.cutSpan source).1 := by
  obtain ⟨-, -, hcloses⟩ := Text.encloses_iff.mp ha
  obtain ⟨-, hfirst, -⟩ := Text.encloses_iff.mp hb
  obtain ⟨cut, hcut, hcovers⟩ := Text.removal_of_encloses ha
  obtain ⟨cut', hcut', hcovers'⟩ := Text.removal_of_encloses hb
  rw [cutSpan, hcut, cutSpan, hcut']
  exact (hcovers.stop_le_start_iff hcovers' hcloses hfirst hle).mpr hshares

/-- If placeholders are `InOrder` and pairwise `OnOtherLines`, no two share blanks, and their cuts
come one behind the other. -/
theorem InOrder.cuts {source : Text} {ps : List Node} (h : InOrder source ps)
    (hlines : ps.Pairwise (OnOtherLines source)) :
    (∀ a ∈ ps, ∀ b ∈ ps, ¬ source.sharesBlanks a.info.stop b.info.start b.info.stop) ∧
      (ps.map (cutSpan source)).Pairwise (·.2 ≤ ·.1) := by
  obtain ⟨hordered, hencloses⟩ := h
  have hlt : ∀ p ∈ ps, p.info.start < p.info.stop := fun p hp =>
    (Text.encloses_iff.mp (hencloses p hp)).1
  have hforth : ps.Pairwise fun a b =>
      ¬ source.sharesBlanks a.info.stop b.info.start b.info.stop :=
    hlines.imp_of_mem fun {a b} ha hb hab =>
      Text.not_sharesBlanks_of_onOtherLines (hencloses a ha) (hlt b hb) hab
  constructor
  · -- Blanks are shared only with something that comes later.
    have hback : ∀ {a b : Node}, b.info.start < a.info.stop →
        ¬ source.sharesBlanks a.info.stop b.info.start b.info.stop := by
      intro a b hlt
      simp only [Text.sharesBlanks, Bool.and_eq_true, decide_eq_true_eq]
      omega
    have hboth : ps.Pairwise fun a b =>
        ¬ source.sharesBlanks a.info.stop b.info.start b.info.stop ∧
          ¬ source.sharesBlanks b.info.stop a.info.start a.info.stop := by
      refine (hforth.and hordered).imp_of_mem fun {a b} ha hb hab => ⟨hab.1, hback ?_⟩
      have := hlt a ha
      have := hlt b hb
      omega
    intro a ha b hb
    by_cases hab : a = b
    · exact hab ▸ hback (hlt a ha)
    · have : Std.Symm fun a b : Node =>
          ¬ source.sharesBlanks a.info.stop b.info.start b.info.stop ∧
            ¬ source.sharesBlanks b.info.stop a.info.start a.info.stop :=
        ⟨fun _ _ h => h.symm⟩
      exact (hboth.forall ha hb hab).1
  · rw [List.pairwise_map]
    exact (hordered.and hforth).imp_of_mem fun {a b} ha hb hab =>
      cutSpan_le (hencloses a ha) (hencloses b hb) hab.1 hab.2

/-- `endEdit` takes nothing out. -/
theorem takesOut_endEdit (program : Node) : program.endEdit.filter Edit.takesOut = [] := by
  rw [List.filter_eq_nil_iff]
  intro e he
  obtain ⟨hstart, hstop⟩ := span_of_mem_endEdit he
  simp [Edit.takesOut, hstart, hstop]

/-- Of the `programEdits` of a program with bare statements, those that take something out have the
spans `cutSpan` of its placeholders, in order. -/
theorem programEdits_of_bare {info : Info} {body : List Node} {source : Text}
    (hsynthetic : info.synthetic = false)
    (hbare : ∀ n ∈ body, n.Bare (Sheet.ofSource source)) {edits : List Edit}
    (hedits : (mk info (.program body source)).programEdits = .ok edits) :
    (edits.filter Edit.takesOut).map Edit.span =
      (mk info (.program body source)).placeholders.map (cutSpan source) := by
  have hlist : (mk info (.program body source)).sheet.listEdits body =
      .ok (body.flatMap fun n => (n.remarks (Sheet.ofSource source)).map (·.edit)) :=
    Sheet.listEdits_of_forall fun n hn => Sheet.edits_of_bare (hbare n hn)
  rw [programEdits_mk, show (Shape.program body source).nodes = body from rfl, hlist] at hedits
  cases hedits
  rw [List.filter_append, takesOut_endEdit, List.append_nil, List.filter_flatMap,
    List.map_flatMap, placeholders_mk hsynthetic, List.map_flatMap]
  exact List.flatMap_congr fun n hn => Sheet.takesOut_remarks (hbare n hn)

end Node

/-- A list of spans that are not empty and come one behind the other is the only such order of its
spans. -/
theorem Edit.spans_eq_of_perm {spans spans' : List (Nat × Nat)} (hperm : spans.Perm spans')
    (hwide : ∀ s ∈ spans, s.1 < s.2) (h : spans.Pairwise (·.2 ≤ ·.1))
    (h' : spans'.Pairwise (·.2 ≤ ·.1)) : spans = spans' := by
  refine hperm.eq_of_pairwise (fun a b ha hb hab hba => ?_) h h'
  have := hwide a ha
  have := hwide b (hperm.mem_iff.mpr hb)
  omega

/-- Edits that are pairwise `Apart` can be spliced, and what is copied is the source without the
spans `cuts` of those that take something out. -/
theorem Sheet.splice_copies (sheet : Sheet) {edits : List Edit} {cuts : List (Nat × Nat)}
    (hspan : ∀ e ∈ edits, e.start ≤ e.stop ∧ e.stop ≤ sheet.source.length)
    (hapart : edits.Pairwise Edit.Apart)
    (hcuts : (edits.filter Edit.takesOut).map Edit.span = cuts)
    (hordered : cuts.Pairwise (·.2 ≤ ·.1)) :
    ∃ chunks, sheet.splice 0 sheet.source.length edits = .ok chunks ∧
      Chunk.copies sheet.source chunks = sheet.source.without cuts := by
  have hperm := Edit.sort_perm edits
  have hsorted : ∀ e ∈ Edit.sort edits, e.start ≤ e.stop ∧ e.stop ≤ sheet.source.length :=
    fun e he => hspan e (hperm.mem_iff.mp he)
  have hfits : Edit.Fits 0 (Edit.sort edits) :=
    (Edit.fits_sort_iff fun e he => ⟨Nat.zero_le _, (hspan e he).1⟩).mpr hapart
  obtain ⟨-, hinOrder⟩ := (Edit.fits_iff_pairwise fun e he => (hsorted e he).1).mp hfits
  rcases sheet.spliceFrom_cases sheet.source.length [] 0 (Edit.sort edits) with
    ⟨-, chunks, hchunks⟩ | ⟨hnot, -⟩
  case inr => exact absurd hfits hnot
  refine ⟨chunks, hchunks, ?_⟩
  -- Sorted or not, the edits that take something out come in the same order.
  have hsame : ((Edit.sort edits).map Edit.span).filter (fun s => s.1 < s.2) = cuts := by
    rw [List.filter_map]
    subst hcuts
    apply Edit.spans_eq_of_perm ((hperm.filter Edit.takesOut).map Edit.span)
    · intro s hs
      obtain ⟨e, he, rfl⟩ := List.mem_map.mp hs
      exact of_decide_eq_true (List.mem_filter.mp he).2
    · rw [List.pairwise_map]
      exact hinOrder.filter _
    · exact hordered
  rw [copies_spliceFrom hchunks, Text.without, ← hsame]
  symm
  apply Text.withoutFrom_filter _ (Nat.zero_le _)
  · rw [List.forall_mem_map]
    exact fun e he => ⟨Nat.zero_le _, hsorted e he⟩
  · rw [List.pairwise_map]
    exact hinOrder

end FlagFold
