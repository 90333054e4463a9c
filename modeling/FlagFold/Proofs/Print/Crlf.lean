/-
  FlagFold.Proofs.Print.Crlf

  Texts whose lines end with a carriage return and a line feed (`Text.IsCrlf`).
  Printing keeps them so: what edits put in has no other ends of lines, and what is
  copied behind an edit never starts between the two characters, whichever shape the
  cut or the comment has.
-/

import FlagFold.Proofs.Print.Comments
import FlagFold.Proofs.Print.Removal

namespace FlagFold

/-! ## Ends of lines -/

namespace Text

/-- The character at offset `o` of `t` is a line feed. -/
def isLineFeedAt (t : Text) (o : Nat) : Bool := t[o]?.any CodePoint.isLineFeed

/-- Every line feed of `t` comes right behind a carriage return. -/
def IsCrlf (t : Text) : Prop :=
  ∀ o, t.isLineFeedAt o → 0 < o ∧ t[o - 1]? = some (CodePoint.ofChar '\r')

variable {t u : Text}

theorem isLineFeedAt_iff {o : Nat} :
    t.isLineFeedAt o ↔ t[o]? = some (CodePoint.ofChar '\n') := by
  rw [isLineFeedAt, Option.any_eq_true]
  simp [CodePoint.isLineFeed]

theorem not_isLineFeedAt_of_length_le {o : Nat} (h : t.length ≤ o) : ¬ t.isLineFeedAt o := by
  rw [isLineFeedAt, List.getElem?_eq_none h]
  exact Bool.false_ne_true

instance (t : Text) : Decidable t.IsCrlf :=
  decidable_of_iff
    (∀ o < t.length, t.isLineFeedAt o → 0 < o ∧ t[o - 1]? = some (CodePoint.ofChar '\r'))
    ⟨fun h o hfeed => h o (by
      by_contra hle
      exact not_isLineFeedAt_of_length_le (Nat.not_lt.mp hle) hfeed) hfeed,
    fun h o _ => h o⟩

theorem not_isLineFeedAt_of_isVisibleAt {o : Nat} (h : t.isVisibleAt o) : ¬ t.isLineFeedAt o := by
  rw [isLineFeedAt_iff]
  intro hfeed
  rw [isVisibleAt, hfeed] at h
  exact absurd h (by decide)

/-- If the character before `o` is no carriage return, there is no line feed at `o`. -/
theorem IsCrlf.not_isLineFeedAt (h : t.IsCrlf) {o : Nat}
    (hbefore : t[o - 1]? ≠ some (CodePoint.ofChar '\r')) : ¬ t.isLineFeedAt o :=
  fun hfeed => hbefore (h o hfeed).2

theorem IsCrlf.not_isLineFeedAt_of_closesAt (h : t.IsCrlf) {o : Nat} (hcloses : t.closesAt o) :
    ¬ t.isLineFeedAt o := by
  refine h.not_isLineFeedAt fun hreturn => ?_
  obtain ⟨c, hc, hends⟩ := exists_of_closesAt hcloses
  rw [hreturn] at hc
  cases hc
  exact hends (by decide)

theorem IsCrlf.not_isLineFeedAt_zero (h : t.IsCrlf) : ¬ t.isLineFeedAt 0 :=
  fun hfeed => Nat.lt_irrefl 0 (h 0 hfeed).1

/-- No line of an `IsCrlf` text starts with a line feed. -/
theorem IsCrlf.not_isLineFeedAt_lineStart (h : t.IsCrlf) (o : Nat) :
    ¬ t.isLineFeedAt (t.lineStart o) := by
  rcases t.lineStart_spec o with ⟨hstart, -⟩ | ⟨i, -, hstart, hfeed, -⟩
  · rw [hstart]
    exact h.not_isLineFeedAt_zero
  · refine h.not_isLineFeedAt ?_
    rw [hstart, Nat.add_sub_cancel, isLineFeedAt_iff.mp hfeed]
    decide

/-! ## Texts put together -/

theorem isCrlf_of_no_lineFeed (h : ∀ c ∈ t, ¬ c.isLineFeed) : t.IsCrlf := by
  intro o hfeed
  obtain ⟨c, hc, hfeed⟩ := Option.any_eq_true _ _ |>.mp hfeed
  exact absurd hfeed (h c (List.mem_of_getElem? hc))

/-- A text of characters of a class `p` without the line feed is `IsCrlf`. -/
theorem isCrlf_of_forall {p : CodePoint → Bool} (hp : p (CodePoint.ofChar '\n') = false)
    (h : ∀ c ∈ t, p c) : t.IsCrlf := by
  refine isCrlf_of_no_lineFeed fun c hc hfeed => ?_
  have hmember := h c hc
  rw [CodePoint.isLineFeed, decide_eq_true_eq] at hfeed
  rw [hfeed, hp] at hmember
  cases hmember

theorem IsCrlf.append (ht : t.IsCrlf) (hu : u.IsCrlf) : IsCrlf (t ++ u) := by
  intro o hfeed
  -- No line feed comes first in the second text, so what is before it is in the same text.
  rcases Nat.lt_or_ge o t.length with hlt | hge
  · rw [isLineFeedAt, List.getElem?_append_left hlt] at hfeed
    obtain ⟨hpos, hreturn⟩ := ht o hfeed
    exact ⟨hpos, by rw [List.getElem?_append_left (by omega), hreturn]⟩
  · rw [isLineFeedAt, List.getElem?_append_right hge] at hfeed
    obtain ⟨hpos, hreturn⟩ := hu (o - t.length) hfeed
    refine ⟨by omega, ?_⟩
    rw [List.getElem?_append_right (by omega), ← hreturn]
    congr 1
    omega

theorem isCrlf_flatMap {α : Type} {f : α → Text} {as : List α} (h : ∀ a ∈ as, (f a).IsCrlf) :
    IsCrlf (as.flatMap f) := by
  induction as with
  | nil => exact isCrlf_of_no_lineFeed (by simp)
  | cons a rest ih =>
    rw [List.forall_mem_cons] at h
    exact h.1.append (ih h.2)

/-- The slice of an `IsCrlf` text is `IsCrlf` if it does not start at a line feed. -/
theorem IsCrlf.slice (h : t.IsCrlf) {a : Nat} (ha : ¬ t.isLineFeedAt a) (b : Nat) :
    (t.slice a b).IsCrlf := by
  intro o hfeed
  rw [isLineFeedAt, getElem?_slice] at hfeed
  split at hfeed
  case isFalse => cases hfeed
  case isTrue hlt =>
    have hpos : 0 < o := by
      apply Nat.pos_of_ne_zero
      rintro rfl
      exact ha hfeed
    obtain ⟨-, hreturn⟩ := h (a + o) hfeed
    refine ⟨hpos, ?_⟩
    rw [getElem?_slice, if_pos (by omega), ← hreturn]
    congr 1
    omega

/-- `Text.newline` of an `IsCrlf` text with a line feed in it is `\r\n`. -/
theorem IsCrlf.newline (h : t.IsCrlf) (hsome : CodePoint.ofChar '\n' ∈ t) :
    t.newline = text "\r\n" := by
  obtain ⟨first, rest, rfl, hnone⟩ := List.eq_append_cons_of_mem hsome
  have hfirst : (first ++ CodePoint.ofChar '\n' :: rest).takeWhile (!·.isLineFeed) = first := by
    rw [List.takeWhile_append_of_pos, List.takeWhile_cons_of_neg (by decide), List.append_nil]
    intro c hc
    have hne : c ≠ CodePoint.ofChar '\n' := ne_of_mem_of_not_mem hc hnone
    simpa [CodePoint.isLineFeed] using hne
  have hfeed : isLineFeedAt (first ++ CodePoint.ofChar '\n' :: rest) first.length := by
    rw [isLineFeedAt_iff, List.getElem?_append_right (Nat.le_refl _), Nat.sub_self]
    rfl
  -- The first line feed is no exception, so the first line ends with a carriage return.
  obtain ⟨hpos, hreturn⟩ := h _ hfeed
  rw [List.getElem?_append_left (by omega), ← List.getLast?_eq_getElem?] at hreturn
  rw [Text.newline]
  simp only [hfirst]
  exact if_pos ⟨by simp, hreturn⟩

end Text

/-! ## Comments and cuts -/

/-- If `newline` and the contents of `cs` are `IsCrlf`, so is a text that writes `cs` in either
form. -/
theorem CommentForm.Writes.isCrlf {form : CommentForm} {newline : Text} {cs : List Comment}
    {t : Text} (h : form.Writes newline cs t) (hnewline : newline.IsCrlf)
    (hcontents : ∀ c ∈ cs, c.content.IsCrlf) : t.IsCrlf := by
  obtain ⟨before, after, hblank, rfl⟩ := h
  rw [List.forall_mem_append] at hblank
  have hopen : Text.IsCrlf (text "//") ∧ Text.IsCrlf (text "/*") := by decide
  have hstar : Text.IsCrlf (text " */") := by decide
  refine Text.isCrlf_flatMap fun c hc => ?_
  have hwritten : (form.write c).IsCrlf := by
    cases form with
    | line => exact hopen.1.append (hcontents c hc)
    | block => exact (hopen.2.append (hcontents c hc)).append hstar
  have hclose : (form.close newline).IsCrlf := by
    cases form with
    | line => exact hnewline
    | block => exact Text.isCrlf_of_no_lineFeed (by simp [close])
  have haround : ∀ {t : Text}, (∀ c ∈ t, c.isBlank) → t.IsCrlf :=
    Text.isCrlf_of_forall (by decide)
  exact (((haround hblank.1).append hwritten).append hclose).append (haround hblank.2)

/-- No line feed stands at the end of a cut that `Covers` a statement: a cut takes both characters
of a line end, or stops behind a blank or behind the statement. -/
theorem Removal.Covers.not_isLineFeedAt_stop {source : Text} {start stop : Nat} {cut : Removal}
    (h : cut.Covers source start stop) (hsource : source.IsCrlf)
    (hcloses : source.closesAt stop) : ¬ source.isLineFeedAt cut.stop := by
  rcases Nat.lt_or_eq_of_le h.le_stop with hlt | heq
  · -- The last character of the cut is a blank or a line feed, and so no carriage return.
    refine hsource.not_isLineFeedAt ?_
    rcases h.ending with hblank | ⟨-, hfeed⟩
    · intro hreturn
      have hlastBlank := Text.isBlankBetween_iff.mp hblank (cut.stop - 1) (by omega) (by omega) _
        hreturn
      exact absurd hlastBlank (by decide)
    · rw [hfeed]
      decide
  · rw [← heq]
    exact hsource.not_isLineFeedAt_of_closesAt hcloses

/-! ## Edits -/

/-- The text of `e` is `IsCrlf`, and no line feed stands at its end in `source`, so that it does not
leave half of a line end. -/
structure Edit.KeepsCrlf (source : Text) (e : Edit) : Prop where
  text : e.text.IsCrlf
  stop : ¬ source.isLineFeedAt e.stop

namespace Sheet

variable {sheet : Sheet}

theorem isCrlf_insertion (hnewline : sheet.newline.IsCrlf) (before : Text) {e : Edit}
    (he : e.text.IsCrlf) : (sheet.insertion before e).IsCrlf := by
  rcases sheet.insertion_eq before e with heq | ⟨-, -, heq⟩
  · rwa [heq]
  · rw [heq]
    exact hnewline.append he

/-- If `edits` keep to this, `spliceFrom` from a `cursor` without a line feed gives an `IsCrlf`
output; by induction on `edits`, each of which goes on at such a place. -/
theorem isCrlf_spliceFrom (hsource : sheet.source.IsCrlf) (hnewline : sheet.newline.IsCrlf)
    {stop cursor : Nat} {last : Text} {edits : List Edit}
    (hedits : ∀ e ∈ edits, e.KeepsCrlf sheet.source)
    (hcursor : ¬ sheet.source.isLineFeedAt cursor) :
    Ensures (sheet.spliceFrom stop last cursor edits) fun chunks =>
      (Chunk.outputs sheet.source chunks).IsCrlf := by
  induction edits generalizing cursor last with
  | nil =>
    rw [spliceFrom]
    refine ensures_ok ?_
    rw [Chunk.outputs_copy]
    exact hsource.slice hcursor stop
  | cons edit rest ih =>
    rw [List.forall_mem_cons] at hedits
    intro chunks h
    obtain ⟨-, before, last', later, hlater, rfl⟩ := exists_of_spliceFrom_cons h
    rw [Chunk.outputs_append, Chunk.outputs_append, Chunk.outputs_copy, Chunk.outputs_inserted]
    -- What is copied up to the edit, what is put in for it, and what comes behind it.
    have hcopied := hsource.slice hcursor edit.start
    have hput := isCrlf_insertion hnewline before hedits.1.text
    exact hcopied.append (hput.append (ih hedits.2 hedits.1.stop later hlater))

end Sheet

/-! ## Trees -/

/-- The printer can deal with `n`, its comments are `IsCrlf`, and so are its edits if a pass has
made it and it is no placeholder. -/
structure Node.KeepsCrlf (sheet : Sheet) (n : Node) : Prop where
  placed : n.Placed sheet
  comments : ∀ c ∈ n.info.comments, c.content.IsCrlf
  made : n.info.synthetic → n.kind ≠ .removed →
    Ensures (sheet.edits n) fun edits => ∀ e ∈ edits, e.KeepsCrlf sheet.source

namespace Sheet

variable {sheet : Sheet} {n : Node}

theorem keepsCrlf_leadingEdit (hnewline : sheet.newline.IsCrlf) (h : n.KeepsCrlf sheet)
    (hstays : n.Stays sheet) : ∀ e ∈ sheet.leadingEdit n.info, e.KeepsCrlf sheet.source := by
  intro e he
  obtain ⟨hsome, form, hform⟩ := writes_leadingEdit e he
  obtain ⟨c, hc⟩ := List.exists_mem_of_ne_nil _ hsome
  rw [List.mem_filter] at hc
  constructor
  case text => exact hform.isCrlf hnewline fun c hc => h.comments c (List.mem_of_mem_filter hc)
  case stop =>
    rw [(span_of_mem_leadingEdit he).2]
    exact Text.not_isLineFeedAt_of_isVisibleAt (hstays.leading c hc.1 hc.2).2

theorem keepsCrlf_trailingEdit (hsource : sheet.source.IsCrlf) (hnewline : sheet.newline.IsCrlf)
    (h : n.KeepsCrlf sheet) (hstays : n.Stays sheet) :
    ∀ e ∈ sheet.trailingEdit n.info n.shape, e.KeepsCrlf sheet.source := by
  intro e he
  obtain ⟨hsome, form, hform⟩ := writes_trailingEdit n.shape e he
  obtain ⟨c, hc⟩ := List.exists_mem_of_ne_nil _ hsome
  rw [List.mem_filter] at hc
  obtain ⟨hkind, hcloses, brace, hlt, hstart, -⟩ := hstays.trailing c hc.1 (by simpa using hc.2)
  constructor
  case text => exact hform.isCrlf hnewline fun c hc => h.comments c (List.mem_of_mem_filter hc)
  case stop =>
    obtain ⟨hstop, hplace | hplace⟩ := span_of_mem_trailingEdit hkind (Nat.lt_trans hstart hlt) he
    · -- The last character of the list ends no line.
      obtain ⟨c, hc, hends⟩ := Text.exists_of_closesAt hcloses
      rw [hstop, hplace, Text.isLineFeedAt_iff, hc, Option.some.injEq]
      rintro rfl
      exact hends (by decide)
    · rw [hstop, hplace]
      exact hsource.not_isLineFeedAt_lineStart _

theorem keepsCrlf_removalEdit (hsource : sheet.source.IsCrlf) (hnewline : sheet.newline.IsCrlf)
    {info : Info} (hcomments : ∀ c ∈ info.comments, c.content.IsCrlf)
    (hencloses : sheet.source.encloses info.start info.stop) :
    Ensures (sheet.removalEdit info) fun e => e.KeepsCrlf sheet.source := by
  intro e he
  obtain ⟨form, hform⟩ := writes_removalEdit sheet info e he
  obtain ⟨cut, hcut, -, hstop⟩ := span_of_removalEdit he
  constructor
  case text => exact hform.isCrlf hnewline hcomments
  case stop =>
    obtain ⟨cut', hcut', hcovers⟩ := Text.removal_of_encloses hencloses
    obtain rfl : cut = cut' := Except.ok.inj (hcut.symm.trans hcut')
    rw [hstop]
    exact hcovers.not_isLineFeedAt_stop hsource (Text.encloses_iff.mp hencloses).2.2

end Sheet

namespace Node

theorem KeepsCrlf.asksFor {sheet : Sheet} {n : Node} (h : n.KeepsCrlf sheet)
    (hsource : sheet.source.IsCrlf) (hnewline : sheet.newline.IsCrlf) :
    n.AsksFor sheet (Edit.KeepsCrlf sheet.source) where
  beside hsynthetic := by
    have hstays := h.placed.2 hsynthetic
    rw [List.forall_mem_append]
    exact ⟨Sheet.keepsCrlf_leadingEdit hnewline h hstays,
      Sheet.keepsCrlf_trailingEdit hsource hnewline h hstays⟩
  cut hplaceholder := by
    rw [isPlaceholder, Bool.and_eq_true] at hplaceholder
    exact Sheet.keepsCrlf_removalEdit hsource hnewline h.comments
      (h.placed.1 hplaceholder.1).encloses
  made := h.made

/-- `endEdit` comes behind all of the source and puts in `IsCrlf` lines. -/
theorem keepsCrlf_endEdit {program : Node} (hnewline : program.sheet.newline.IsCrlf)
    (hcomments : ∀ c ∈ program.comments, c.content.IsCrlf) :
    ∀ e ∈ program.endEdit, e.KeepsCrlf program.source := by
  intro e he
  constructor
  case text =>
    exact (writes_endEdit e he).2.isCrlf hnewline fun c hc =>
      hcomments c (List.mem_of_mem_filter hc)
  case stop =>
    rw [(span_of_mem_endEdit he).2]
    exact Text.not_isLineFeedAt_of_length_le (Nat.le_refl _)

/-- A program on an `IsCrlf` source with at least one line feed is printed as an `IsCrlf` text, if
the comments and texts of its nodes are. -/
theorem isCrlf_print {program : Node} (hsource : program.source.IsCrlf)
    (hsome : CodePoint.ofChar '\n' ∈ program.source)
    (hcomments : ∀ c ∈ program.comments, c.content.IsCrlf)
    (hkeeps : ∀ n ∈ program.children, ∀ m ∈ n.printed, m.KeepsCrlf program.sheet) :
    Ensures program.print Text.IsCrlf := by
  have hnewline : program.sheet.newline.IsCrlf := by
    rw [show program.sheet.newline = text "\r\n" from hsource.newline hsome]
    decide
  have hedits : Ensures program.programEdits fun edits => ∀ e ∈ edits, e.KeepsCrlf program.source :=
    programEdits_ensures (keepsCrlf_endEdit hnewline hcomments) fun n hn m hm =>
      (hkeeps n hn m hm).asksFor hsource hnewline
  have hchunks : Ensures program.printChunks fun chunks =>
      (Chunk.outputs program.source chunks).IsCrlf := by
    refine hedits.bind fun edits hkeeps => ?_
    exact Sheet.isCrlf_spliceFrom hsource hnewline
      (fun e he => hkeeps e ((Edit.sort_perm edits).mem_iff.mp he)) hsource.not_isLineFeedAt_zero
  exact hchunks.bind fun chunks hcrlf => ensures_ok hcrlf

end Node
end FlagFold
