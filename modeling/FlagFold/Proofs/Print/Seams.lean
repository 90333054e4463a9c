/-
  FlagFold.Proofs.Print.Seams

  Where the texts of an output meet.  A word that an edit puts in could run together
  with a character of a name before or behind it.  Edits that keep to the seams of the
  source (`Edit.Lies`) never bring a name in front of a word, and let one follow it only
  where it follows in the source.
-/

import FlagFold.Proofs.Print.Comments
import FlagFold.Proofs.Print.Remarks
import FlagFold.Proofs.Text.Seams

namespace FlagFold

/-! ## Cuts and comments -/

/-- A text that writes at least one comment `StandsApart` from names, if `newline` does. -/
theorem CommentForm.Writes.standsApart {form : CommentForm} {newline : Text} {cs : List Comment}
    {t : Text} (h : form.Writes newline cs t) (hne : cs ≠ []) (hnewline : newline.StandsApart) :
    t.StandsApart := by
  obtain ⟨before, after, hblank, rfl⟩ := h
  refine Text.standsApart_flatMap hne fun c _ => ?_
  -- The slashes come first, and the end of the line or a slash comes last.
  have hwritten : Text.StandsApart (form.write c ++ form.close newline) := by
    cases form with
    | line =>
      refine ⟨by simp [hnewline.ne_nil, close], ?_, ?_⟩
      · change ¬ CodePoint.isInName (CodePoint.ofChar '/')
        decide
      · rw [show close .line newline = newline from rfl, Text.endsInName_append hnewline.ne_nil]
        exact hnewline.last
    | block =>
      have hclose : text " */" ≠ [] := by decide
      refine ⟨by simp [write, Comment.block, text], ?_, ?_⟩
      · change ¬ CodePoint.isInName (CodePoint.ofChar '/')
        decide
      · rw [show close .block newline = [] from rfl, List.append_nil, write, Comment.block,
          Text.endsInName_append hclose]
        decide
  rw [show before ++ form.write c ++ form.close newline ++ after =
    before ++ (form.write c ++ form.close newline) ++ after by simp only [List.append_assoc]]
  exact hwritten.between hblank

namespace Text

variable {t : Text} {ends : Nat → Prop}

/-- Where no name comes right before the statement and its blanks, none comes before `cut`; and
`cut` starts at a seam only if it takes along blanks before the statement, and then it stops at
one. -/
theorem removal_isSeam {start stop : Nat} {cut : Removal} (h : t.removal start stop = .ok cut)
    (hencloses : t.encloses start stop) (hends : ¬ ends start)
    (hname : ¬ t.nameBefore (t.blanksStart (t.lineStart start) start)) :
    ¬ t.nameBefore cut.start ∧
      (t.IsSeam ends cut.start → ¬ t.nameAt cut.start ∧ t.IsSeam ends cut.stop ∧
        ¬ t.nameAt cut.stop) := by
  obtain ⟨-, hfirst, hcloses⟩ := encloses_iff.mp hencloses
  have hlength := lt_length_of_isVisibleAt hfirst
  have hblanks := isBlankBetween_blanksStart (t.lineStart_le start) (Nat.le_of_lt hlength)
  have hstart : ¬ t.IsSeam ends start := not_isSeam_of_isVisibleAt hfirst hends
  have hbefore : ¬ t.nameBefore start := by
    rcases Nat.lt_or_eq_of_le (t.blanksStart_le (t.lineStart start) start) with hback | heq
    · rw [nameBefore, Bool.and_eq_true]
      exact fun hname => not_nameAt_of_isBlankBetween hblanks (by omega) (by omega) hname.2
    · rwa [heq] at hname
  -- At the start of the line, at the statement, or at the blanks before it.
  have hline : ¬ t.nameBefore (t.lineStart start) ∧ ∀ {P : Prop},
      t.IsSeam ends (t.lineStart start) → P :=
    ⟨t.not_nameBefore_lineStart start, fun hseam => absurd hseam (t.not_isSeam_lineStart start)⟩
  rw [removal_eq] at h
  split at h
  · cases h
  split at h
  · split at h
    · cases h
      exact ⟨hline.1, hline.2⟩
    split at h
    · cases h
      exact ⟨hline.1, hline.2⟩
    split at h
    · cases h
      exact ⟨hline.1, hline.2⟩
    · cases h
      exact ⟨hbefore, fun hseam => absurd hseam hstart⟩
  split at h
  case isTrue hends' =>
    split at h
    · cases h
    · cases h
      have hblank := not_isVisibleAt_of_endsLineAt hends'
      refine ⟨hname, fun hseam => ⟨?_, ⟨hcloses, .inr hblank⟩, ?_⟩⟩
      · -- The statement itself starts at no seam.
        have hle := t.blanksStart_le (t.lineStart start) start
        have hne : t.blanksStart (t.lineStart start) start ≠ start := by
          intro heq
          rw [heq] at hseam
          exact hstart hseam
        exact not_nameAt_of_isBlankBetween hblanks (Nat.le_refl _) (Nat.lt_of_le_of_ne hle hne)
      · exact fun hname => hblank (isVisibleAt_of_nameAt hname)
  case isFalse =>
    cases h
    exact ⟨hbefore, fun hseam => absurd hseam hstart⟩

end Text

/-! ## Edits at seams -/

section Edits

variable (source : Text) (ends : Nat → Prop)

/-- `e` puts a word in the place of what starts at no seam, with no name before it, and stops at a
seam. -/
structure Edit.IsWord (e : Edit) : Prop where
  text : e.text ≠ []
  ownLine : e.ownLine = false
  before : ¬ source.nameBefore e.start
  start : ¬ source.IsSeam ends e.start
  stop : source.IsSeam ends e.stop

/-- `e` puts in a text that no name runs together with. -/
structure Edit.IsAside (e : Edit) : Prop where
  text : e.text ≠ []
  last : ¬ e.text.endsInName
  seam : source.IsSeam ends e.start → ¬ e.text.startsInName ∧ ¬ source.nameAt e.start

/-- `e` takes out a stretch with no name before it; if that starts at a seam, it stops at one, with
no name at either. -/
structure Edit.IsCut (e : Edit) : Prop where
  text : e.text = []
  before : ¬ source.nameBefore e.start
  seam : source.IsSeam ends e.start →
    ¬ source.nameAt e.start ∧ source.IsSeam ends e.stop ∧ ¬ source.nameAt e.stop

/-- `e` keeps to the seams of `source` as a `word`, an `aside` or a `cut`. -/
inductive Edit.Lies (e : Edit) : Prop
  | word (h : e.IsWord source ends)
  | aside (h : e.IsAside source ends)
  | cut (h : e.IsCut source ends)

end Edits

namespace Sheet

variable {sheet : Sheet} {ends : Nat → Prop}

/-- The `insertion` of an aside is not empty, does not end in a name, and does not start with one at
a seam. -/
theorem insertion_of_isAside (hnewline : sheet.newline.StandsApart)
    (before : Text) {e : Edit} (h : e.IsAside sheet.source ends) :
    sheet.insertion before e ≠ [] ∧ ¬ (sheet.insertion before e).endsInName ∧
      (sheet.source.IsSeam ends e.start → ¬ (sheet.insertion before e).startsInName) := by
  rcases sheet.insertion_eq before e with heq | ⟨-, -, heq⟩
  · rw [heq]
    exact ⟨h.text, h.last, fun hseam => (h.seam hseam).1⟩
  · rw [heq, Text.endsInName_append h.text, Text.startsInName_append hnewline.ne_nil]
    exact ⟨by simp [h.text], h.last, fun _ => hnewline.first⟩

/-- The `insertion` of a cut is empty. -/
theorem insertion_of_isCut (before : Text) {e : Edit} (h : e.IsCut sheet.source ends) :
    sheet.insertion before e = [] := by
  rcases sheet.insertion_eq before e with heq | ⟨-, hne, -⟩
  · rw [heq, h.text]
  · exact absurd h.text hne

theorem insertion_of_isWord (before : Text) {e : Edit} (h : e.IsWord sheet.source ends) :
    sheet.insertion before e = e.text := by
  rcases sheet.insertion_eq before e with heq | ⟨hown, -⟩
  · exact heq
  · rw [h.ownLine] at hown
    cases hown

/-- From a seam on, the output starts with a character of a name just if the source goes on with
one; by induction on `edits`. -/
theorem startsInName_spliceFrom (hnewline : sheet.newline.StandsApart)
    {cursor : Nat} {last : Text} {edits : List Edit} {chunks : List Chunk}
    (h : sheet.spliceFrom sheet.source.length last cursor edits = .ok chunks)
    (hlies : ∀ e ∈ edits, e.Lies sheet.source ends)
    (hinside : ∀ e ∈ edits, e.start ≤ sheet.source.length)
    (hseam : sheet.source.IsSeam ends cursor) :
    (Chunk.outputs sheet.source chunks).startsInName = sheet.source.nameAt cursor := by
  induction edits generalizing cursor last chunks with
  | nil =>
    rw [spliceFrom] at h
    cases h
    rw [Chunk.outputs_copy]
    rcases Nat.lt_or_ge cursor sheet.source.length with hlt | hge
    · exact Text.startsInName_slice hlt
    · rw [Text.slice, Nat.sub_eq_zero_of_le hge, List.take_zero, Text.nameAt,
        List.getElem?_eq_none hge]
      rfl
  | cons edit rest ih =>
    rw [List.forall_mem_cons] at hlies hinside
    obtain ⟨hcursor, before, last', later, hlater, rfl⟩ := exists_of_spliceFrom_cons h
    rw [Chunk.outputs_append, Chunk.outputs_append, Chunk.outputs_copy,
      Chunk.outputs_inserted]
    rcases Nat.lt_or_eq_of_le hcursor with hlt | rfl
    · -- What comes first is copied.
      have hcopied : sheet.source.slice cursor edit.start ≠ [] := by
        have := hinside.1
        rw [← List.length_pos_iff, Text.length_slice]
        omega
      rw [Text.startsInName_append hcopied, Text.startsInName_slice hlt]
    · rw [Text.slice_self, List.nil_append]
      rcases hlies.1 with hword | haside | hcut
      · exact absurd hseam hword.start
      · obtain ⟨hne, -, hfirst⟩ := insertion_of_isAside hnewline before haside
        rw [Text.startsInName_append hne, Bool.eq_false_iff.mpr (hfirst hseam),
          Bool.eq_false_iff.mpr (haside.seam hseam).2]
      · obtain ⟨hat, hstop, hbehind⟩ := hcut.seam hseam
        rw [insertion_of_isCut before hcut, List.nil_append, ih hlater hlies.2 hinside.2 hstop,
          Bool.eq_false_iff.mpr hat, Bool.eq_false_iff.mpr hbehind]

/-- Each `IsWord` edit stands in the output by itself: no character of a name comes `before` it, and
one comes `after` it just where one comes behind its span in the source; by induction on `edits`. -/
theorem spliceFrom_words (hnewline : sheet.newline.StandsApart)
    {cursor : Nat} {last : Text} {edits : List Edit} {chunks : List Chunk}
    (h : sheet.spliceFrom sheet.source.length last cursor edits = .ok chunks)
    (hlies : ∀ e ∈ edits, e.Lies sheet.source ends)
    (hinside : ∀ e ∈ edits, e.start ≤ sheet.source.length) {out : Text}
    (hout : out.endsInName → sheet.source.IsSeam ends cursor) :
    ∀ e ∈ edits, e.IsWord sheet.source ends →
      ∃ before after, chunks = before ++ .inserted e.start e.text :: after ∧
        ¬ Text.endsInName (out ++ Chunk.outputs sheet.source before) ∧
        (Chunk.outputs sheet.source after).startsInName = sheet.source.nameAt e.stop := by
  induction edits generalizing cursor last chunks out with
  | nil => simp
  | cons edit rest ih =>
    rw [List.forall_mem_cons] at hlies hinside ⊢
    obtain ⟨hcursor, before, last', later, hlater, rfl⟩ := exists_of_spliceFrom_cons h
    set t := sheet.insertion before edit
    set copied := sheet.source.slice cursor edit.start with hcopied
    -- The output up to the edit ends as the source does there, or where it ended before.
    have hup : Text.endsInName (out ++ copied) →
        sheet.source.nameBefore edit.start ∨ sheet.source.IsSeam ends edit.start := by
      rcases Nat.lt_or_eq_of_le hcursor with hlt | rfl
      · have hne : copied ≠ [] := by
          have := hinside.1
          rw [← List.length_pos_iff, Text.length_slice]
          omega
        rw [Text.endsInName_append hne, Text.endsInName_slice hlt hinside.1]
        exact .inl
      · rw [hcopied, Text.slice_self, List.append_nil]
        exact fun hends => .inr (hout hends)
    constructor
    · intro hword
      have ht : t = edit.text := insertion_of_isWord before hword
      refine ⟨Chunk.copy cursor edit.start, later, ?_, ?_, ?_⟩
      · rw [ht, if_neg (by simpa using hword.text)]
        rfl
      · rw [Chunk.outputs_copy]
        exact fun hends => (hup hends).elim hword.before hword.start
      · exact startsInName_spliceFrom hnewline hlater hlies.2 hinside.2 hword.stop
    · -- What the output ends with behind the edit.
      have hnext : Text.endsInName (out ++ copied ++ t) →
          sheet.source.IsSeam ends edit.stop := by
        intro hends
        rcases hlies.1 with hword | haside | hcut
        · exact hword.stop
        · obtain ⟨hne, hlast, -⟩ := insertion_of_isAside hnewline before haside
          rw [Text.endsInName_append hne] at hends
          exact absurd hends hlast
        · rw [show t = [] from insertion_of_isCut before hcut, List.append_nil] at hends
          exact (hcut.seam ((hup hends).resolve_left hcut.before)).2.1
      intro e he hword
      obtain ⟨front, after, hchunks, hfront, hafter⟩ :=
        ih hlater hlies.2 hinside.2 hnext e he hword
      refine ⟨Chunk.copy cursor edit.start ++
        ((if t.isEmpty then [] else [.inserted edit.start t]) ++ front), after, ?_, ?_, hafter⟩
      · rw [hchunks]
        simp only [List.append_assoc]
      · rw [Chunk.outputs_append, Chunk.outputs_append, Chunk.outputs_copy,
      Chunk.outputs_inserted]
        simpa only [List.append_assoc] using hfront

end Sheet

/-! ## The edits of a tree -/

/-- The printer can deal with `n`, and its edits keep to the seams. -/
structure Node.KeepsSeams (sheet : Sheet) (ends : Nat → Prop) (n : Node) : Prop where
  placed : n.Placed sheet
  leading : (∃ c ∈ n.info.comments, c.leading) → ¬ ends n.info.start
  braces : n.info.synthetic = false → n.kind.isBracedList → ends (n.info.stop - 1) →
    ¬ sheet.source.nameAt (n.info.stop - 1)
  removed : n.isPlaceholder → ¬ ends n.info.start ∧
    ¬ sheet.source.nameBefore
      (sheet.source.blanksStart (sheet.source.lineStart n.info.start) n.info.start)
  made : n.info.synthetic → n.kind ≠ .removed →
    Ensures (sheet.edits n) fun edits => ∀ e ∈ edits, e.Lies sheet.source ends

namespace Sheet

variable {sheet : Sheet} {ends : Nat → Prop}

/-- The edit of `removalEdit` is a cut, or an aside that leaves comments. -/
theorem lies_removalEdit (hnewline : sheet.newline.StandsApart) {info : Info}
    (hencloses : sheet.source.encloses info.start info.stop) (hends : ¬ ends info.start)
    (hname : ¬ sheet.source.nameBefore
      (sheet.source.blanksStart (sheet.source.lineStart info.start) info.start)) :
    Ensures (sheet.removalEdit info) fun e => e.Lies sheet.source ends := by
  intro e he
  obtain ⟨form, hform⟩ := writes_removalEdit sheet info e he
  obtain ⟨cut, hcut, hstart, hstop⟩ := span_of_removalEdit he
  obtain ⟨hbefore, hseam⟩ := Text.removal_isSeam hcut hencloses hends hname
  rw [← hstart, ← hstop] at hseam
  rw [← hstart] at hbefore
  by_cases hnone : info.comments = []
  · obtain ⟨front, back, -, htext⟩ := hform
    rw [hnone, List.flatMap_nil] at htext
    exact .cut ⟨htext, hbefore, hseam⟩
  · have happart := hform.standsApart hnone hnewline
    exact .aside ⟨happart.ne_nil, happart.last, fun h => ⟨happart.first, (hseam h).1⟩⟩

/-- The edit of `leadingEdit` is an aside at no seam. -/
theorem lies_leadingEdit (hnewline : sheet.newline.StandsApart) {n : Node}
    (h : n.KeepsSeams sheet ends) (hstays : n.Stays sheet) :
    ∀ e ∈ sheet.leadingEdit n.info, e.Lies sheet.source ends := by
  intro e he
  obtain ⟨hsome, form, hform⟩ := writes_leadingEdit e he
  have happart := hform.standsApart hsome hnewline
  obtain ⟨c, hc⟩ := List.exists_mem_of_ne_nil _ hsome
  rw [List.mem_filter] at hc
  refine .aside ⟨happart.ne_nil, happart.last, fun hseam => ?_⟩
  rw [(span_of_mem_leadingEdit he).1] at hseam
  exact absurd hseam (Text.not_isSeam_of_isVisibleAt (hstays.leading c hc.1 hc.2).2
    (h.leading ⟨c, hc⟩))

/-- The edit of `trailingEdit` is an aside before the closing brace, or at the start of a line. -/
theorem lies_trailingEdit (hnewline : sheet.newline.StandsApart) {n : Node}
    (h : n.KeepsSeams sheet ends) (hstays : n.Stays sheet) (hsynthetic : n.info.synthetic = false) :
    ∀ e ∈ sheet.trailingEdit n.info n.shape, e.Lies sheet.source ends := by
  intro e he
  obtain ⟨hsome, form, hform⟩ := writes_trailingEdit n.shape e he
  have happart := hform.standsApart hsome hnewline
  obtain ⟨c, hc⟩ := List.exists_mem_of_ne_nil _ hsome
  rw [List.mem_filter] at hc
  obtain ⟨hkind, -, brace, hlt, hstart, -⟩ := hstays.trailing c hc.1 (by simpa using hc.2)
  refine .aside ⟨happart.ne_nil, happart.last, fun hseam => ⟨happart.first, ?_⟩⟩
  obtain ⟨-, hplace | hplace⟩ := span_of_mem_trailingEdit hkind (Nat.lt_trans hstart hlt) he
  · rw [hplace] at hseam ⊢
    exact hseam.after.elim (h.braces hsynthetic hkind) fun hblank hname =>
      hblank (Text.isVisibleAt_of_nameAt hname)
  · rw [hplace] at hseam
    exact absurd hseam (sheet.source.not_isSeam_lineStart _)

end Sheet

/-- If `n.KeepsSeams`, all edits for which `n` itself asks keep to them. -/
theorem Node.KeepsSeams.asksFor {sheet : Sheet} {ends : Nat → Prop}
    (hnewline : sheet.newline.StandsApart) {n : Node} (h : n.KeepsSeams sheet ends) :
    n.AsksFor sheet (Edit.Lies sheet.source ends) where
  beside hsynthetic := by
    have hstays := h.placed.2 hsynthetic
    rw [List.forall_mem_append]
    exact ⟨Sheet.lies_leadingEdit hnewline h hstays,
      Sheet.lies_trailingEdit hnewline h hstays hsynthetic⟩
  cut hplaceholder := by
    obtain ⟨hends, hname⟩ := h.removed hplaceholder
    rw [isPlaceholder, Bool.and_eq_true] at hplaceholder
    exact Sheet.lies_removalEdit hnewline (h.placed.1 hplaceholder.1).encloses hends hname
  made := h.made

/-- `endEdit` is an aside behind all of the source. -/
theorem Node.lies_endEdit (program : Node) {ends : Nat → Prop} :
    ∀ e ∈ program.endEdit, e.Lies program.source ends := by
  intro e he
  obtain ⟨hsome, hform⟩ := writes_endEdit e he
  have happart := hform.standsApart hsome program.source.standsApart_newline
  have hend : ¬ program.source.nameAt e.start := by
    rw [(span_of_mem_endEdit he).1, Text.nameAt, List.getElem?_eq_none (Nat.le_refl _)]
    exact Bool.false_ne_true
  exact .aside ⟨happart.ne_nil, happart.last, fun _ => ⟨happart.first, hend⟩⟩

/-- If all printed nodes of a program `KeepsSeams`, each made word stands in its output by itself:
no character of a name comes `before` it, and one comes `after` it just where one comes behind its
span in the source. -/
theorem Node.printChunks_words {info : Info} {body : List Node} {source : Text}
    {ends : Nat → Prop} (hsynthetic : info.synthetic = false)
    (hordered : body.Pairwise (·.info.stop ≤ ·.info.start))
    (hkeeps : ∀ n ∈ body, ∀ m ∈ n.printed, m.KeepsSeams (Sheet.ofSource source) ends)
    {chunks : List Chunk}
    (hchunks : (mk info (.program body source)).printChunks = .ok chunks) :
    ∀ n ∈ body, ∀ m ∈ n.printed, m.info.synthetic → ∀ e, e.IsWord source ends →
      (Sheet.ofSource source).edits m = .ok [e] →
      ∃ before after, chunks = before ++ .inserted e.start e.text :: after ∧
        ¬ (Chunk.outputs source before).endsInName ∧
        (Chunk.outputs source after).startsInName = source.nameAt e.stop := by
  set program := mk info (.program body source)
  have hnewline : (Sheet.ofSource source).newline.StandsApart := source.standsApart_newline
  obtain ⟨edits, hedits, hinside, -⟩ := programEdits_of_placed info hsynthetic hordered
    fun n hn m hm => (hkeeps n hn m hm).placed
  have hbelow : edits = (body.flatMap fun n => (n.remarks (Sheet.ofSource source)).map (·.edit)) ++
      program.endEdit := by
    rw [programEdits_mk] at hedits
    obtain ⟨below, hbelow, h⟩ := exists_of_bind_eq_ok hedits
    cases h
    rw [Sheet.listEdits_eq_flatMap (fun n _ => Sheet.edits_eq_remarks n) _ hbelow]
    rfl
  have hlies : ∀ e ∈ edits, e.Lies source ends :=
    programEdits_ensures (lies_endEdit program)
      (fun n hn m hm => (hkeeps n hn m hm).asksFor hnewline) edits hedits
  have hsorted : ∀ e ∈ Edit.sort edits, e ∈ edits := fun e he =>
    (Edit.sort_perm edits).mem_iff.mp he
  rw [printChunks, hedits] at hchunks
  intro n hn m hm hmade e hword hedit
  -- A made node has no edit but `e`, and all edits of printed nodes are among those of the program.
  have he : e ∈ edits := by
    rw [hbelow]
    apply List.mem_append_left
    rw [List.mem_flatMap]
    refine ⟨n, hn, List.mem_map.mpr ⟨⟨e, m.info.comments⟩, ?_, rfl⟩⟩
    rw [remarks, List.mem_flatMap]
    refine ⟨m, hm, ?_⟩
    rw [Sheet.remarksAt, if_pos hmade, Sheet.madeRemarks, hedit]
    exact List.mem_singleton_self _
  -- Nothing is written before the start.
  have hnone : Text.endsInName [] → source.IsSeam ends 0 := fun h => by cases h
  exact Sheet.spliceFrom_words hnewline hchunks (fun e he => hlies e (hsorted e he))
    (fun e he => Nat.le_trans (hinside e (hsorted e he)).1 (hinside e (hsorted e he)).2) hnone e
    ((Edit.sort_perm edits).mem_iff.mpr he) hword

end FlagFold
