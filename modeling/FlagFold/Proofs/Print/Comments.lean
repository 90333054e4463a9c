/-
  FlagFold.Proofs.Print.Comments

  The two forms in which comments are put into an output: up to the end of a line, or
  between slashes and stars.  Either ends early where the comment says what ends the
  form (`CommentForm.Admits`); otherwise it is read as one comment, whatever follows.
  Whatever the tree, each edit puts in comments of one form, or the text of a node
  that a pass has made.
-/

import FlagFold.Grammar.Cursor
import FlagFold.Proofs.Print.Edits
import FlagFold.Proofs.Print.Placed
import FlagFold.Proofs.World.Steps
import Mathlib.Data.List.Infix

namespace FlagFold

/-- The two forms in which the printer writes comments: `block` between slashes and stars, `line`
behind two slashes. -/
inductive CommentForm where
  | line
  | block
  deriving DecidableEq

namespace CommentForm

/-- The comment `c` as it is written in `form`. -/
def write (form : CommentForm) (c : Comment) : Text :=
  match form with
  | line => c.line
  | block => c.block

/-- What has to come right behind a comment in `form`: `newline` behind a `line` comment, nothing
behind a `block` comment. -/
def close (form : CommentForm) (newline : Text) : Text :=
  match form with
  | line => newline
  | block => []

/-- `content` holds nothing that would end a comment in `form`: no `*/` for `block`, no line
terminator for `line`. -/
def Admits (form : CommentForm) (content : Text) : Prop :=
  match form with
  | line => ∀ c ∈ content, ¬ StringLiteral.isLineTerminator c
  | block => ¬ text "*/" <:+: content

instance (form : CommentForm) (content : Text) : Decidable (form.Admits content) :=
  match form with
  | line => inferInstanceAs (Decidable (∀ c ∈ content, _))
  | block => inferInstanceAs (Decidable (¬ _))

/-! ## Reading a comment -/

/-- Written in `form` and closed, `c` is read by `Grammar.commentTail?` as one comment, whatever
`rest` follows. -/
def ReadsAsOne (form : CommentForm) (newline : Text) (c : Comment) : Prop :=
  ∀ rest : Text, Grammar.commentTail?
      ((form.write c ++ form.close newline ++ rest).map CodePoint.toChar) =
    some ((form.write c).length - 2)

end CommentForm

/-- `CodePoint.toChar` keeps the number of `c`, but reads a surrogate as `0xFFFD`, a number above
all surrogates. -/
theorem CodePoint.toNat_toChar (c : CodePoint) :
    c.toChar.toNat = c.value ∨ c.value < 0xE000 ∧ 0xD800 ≤ c.value ∧ c.toChar.toNat = 0xFFFD := by
  by_cases h : c.value.isValidChar
  · rw [toChar, dif_pos h]
    exact .inl UInt32.toNat_ofNatLT
  · have := c.isLt
    rw [toChar, dif_neg h]
    unfold Nat.isValidChar at h
    exact .inr ⟨by omega, by omega, rfl⟩

theorem CodePoint.toChar_eq_iff {c : CodePoint} {char : Char} (h : char.toNat < 0xD800) :
    c.toChar = char ↔ c = CodePoint.ofChar char := by
  have hchar : c.toChar = char ↔ c.toChar.toNat = char.toNat :=
    ⟨congrArg _, fun h => Char.toNat_inj.mp h⟩
  rw [hchar, CodePoint.ext_iff, value_ofChar]
  rcases c.toNat_toChar with hc | ⟨-, hlow, hc⟩ <;> omega

/-- `Grammar.endsLine` ends a line where `StringLiteral.isLineTerminator` takes it to end, the
carriage return apart. -/
theorem endsLine_toChar (c : CodePoint) :
    (!Grammar.endsLine c.toChar && c.toChar ≠ '\r') = !StringLiteral.isLineTerminator c := by
  have hfeed : c.toChar = '\n' ↔ c = CodePoint.ofChar '\n' := CodePoint.toChar_eq_iff (by decide)
  have hreturn : c.toChar = '\r' ↔ c = CodePoint.ofChar '\r' :=
    CodePoint.toChar_eq_iff (by decide)
  have hwide : ∀ n, n = 0x2028 ∨ n = 0x2029 → (c.toChar.toNat = n ↔ c.value = n) := by
    intro n hn
    rcases c.toNat_toChar with hc | ⟨-, hlow, hc⟩ <;> omega
  have h2028 := hwide 0x2028 (.inl rfl)
  have h2029 := hwide 0x2029 (.inr rfl)
  rw [Bool.eq_iff_iff, Grammar.endsLine, StringLiteral.isLineTerminator]
  simp only [Bool.not_or, Bool.and_eq_true, Bool.not_eq_true', decide_eq_false_iff_not,
    decide_eq_true_eq, ne_eq, hfeed, hreturn, h2028, h2029]
  tauto

/-- With `back` starting with something that does not satisfy `p`, `takeWhile p` stops at the end of
`front` just if all of `front` satisfies `p`. -/
theorem length_takeWhile_eq_iff {α : Type} {p : α → Bool} {front back : List α}
    (hback : ∀ b ∈ back.head?, p b = false) :
    ((front ++ back).takeWhile p).length = front.length ↔ ∀ a ∈ front, p a := by
  induction front with
  | nil =>
    cases back with
    | nil => simp
    | cons b back => simp [hback b rfl]
  | cons a front ih =>
    rw [List.cons_append, List.forall_mem_cons]
    by_cases ha : p a
    · rw [List.takeWhile_cons_of_pos ha, List.length_cons, List.length_cons,
        Nat.add_right_cancel_iff, ih, and_iff_right ha]
    · rw [List.takeWhile_cons_of_neg ha]
      simp [ha]

/-- `Grammar.blockEnd?` finds the closing `*/` right behind `content` just if `content` does not
hold one itself. -/
theorem blockEnd?_eq_iff (content rest : Text) :
    Grammar.blockEnd? ((content ++ text " */" ++ rest).map CodePoint.toChar) =
        some (content.length + 3) ↔ ¬ text "*/" <:+: content := by
  induction content with
  | nil =>
    have hstart : ((text " */" ++ rest).map CodePoint.toChar) =
        ' ' :: '*' :: '/' :: rest.map CodePoint.toChar := rfl
    rw [List.nil_append, hstart]
    simp [Grammar.blockEnd?, text]
  | cons c content ih =>
    rw [List.infix_cons_iff, not_or]
    by_cases hclosed : text "*/" <+: c :: content
    · obtain ⟨after, hafter⟩ := hclosed
      rw [← hafter]
      have hstart : ((text "*/" ++ after ++ text " */" ++ rest).map CodePoint.toChar) =
          '*' :: '/' :: (after ++ text " */" ++ rest).map CodePoint.toChar := by
        simp only [List.append_assoc]
        rfl
      have hlength := congrArg List.length hafter
      rw [List.length_append, List.length_cons] at hlength
      rw [hstart, Grammar.blockEnd?]
      have hwide : (text "*/").length = 2 := rfl
      simp [List.prefix_append]
    · -- What closes the comment does not start here, so the reader goes on.
      have hopen : ∀ later, c.toChar = '*' →
          (content ++ text " */" ++ rest).map CodePoint.toChar = '/' :: later → False := by
        intro later hc hlater
        rw [CodePoint.toChar_eq_iff (by decide)] at hc
        cases content with
        | nil =>
          have hblank : (CodePoint.ofChar ' ').toChar = '/' := (List.cons.inj hlater).1
          exact absurd hblank (by decide)
        | cons d content =>
          have hd : d.toChar = '/' := by
            rw [List.cons_append, List.cons_append, List.map_cons] at hlater
            exact (List.cons.inj hlater).1
          rw [CodePoint.toChar_eq_iff (by decide)] at hd
          exact hclosed ⟨content, by rw [hc, hd]; rfl⟩
      have hcons : (c :: content ++ text " */" ++ rest).map CodePoint.toChar =
          c.toChar :: (content ++ text " */" ++ rest).map CodePoint.toChar := rfl
      rw [hcons, Grammar.blockEnd?.eq_2 _ _ hopen, and_iff_right hclosed, ← ih, List.length_cons]
      cases Grammar.blockEnd? ((content ++ text " */" ++ rest).map CodePoint.toChar) <;> simp

namespace CommentForm

/-- A comment `ReadsAsOne` in `form` just if `form.Admits` its content. -/
theorem readsAsOne_iff {form : CommentForm} {newline : Text} {c : Comment}
    (hnewline : ∃ e later, newline = e :: later ∧ StringLiteral.isLineTerminator e) :
    form.ReadsAsOne newline c ↔ form.Admits c.content := by
  cases form with
  | line =>
    -- A line comment ends at the first line terminator, which is that of `newline` or comes before.
    have hread : ∀ rest : Text, Grammar.commentTail?
        ((c.line ++ newline ++ rest).map CodePoint.toChar) = some ((c.line).length - 2) ↔
          ∀ d ∈ c.content, ¬ StringLiteral.isLineTerminator d := by
      intro rest
      obtain ⟨e, later, rfl, he⟩ := hnewline
      have hstart : (c.line ++ e :: later ++ rest).map CodePoint.toChar = '/' :: '/' ::
          (c.content.map CodePoint.toChar ++ (e :: (later ++ rest)).map CodePoint.toChar) := by
        simp only [Comment.line, List.append_assoc, ← List.map_append]
        rfl
      have hlength : c.line.length - 2 = (c.content.map CodePoint.toChar).length := by
        rw [Comment.line, List.length_append, List.length_map]
        exact Nat.add_sub_cancel_left 2 _
      rw [hstart, hlength, Grammar.commentTail?, Option.some_inj, length_takeWhile_eq_iff,
        List.forall_mem_map]
      · simp only [endsLine_toChar, Bool.not_eq_true', Bool.not_eq_true]
      · intro b hb
        cases hb
        exact (endsLine_toChar e).trans (by rw [he]; rfl)
    exact ⟨fun h => (hread []).mp (h []), fun h rest => (hread rest).mpr h⟩
  | block =>
    -- A block comment ends at the first `*/`, which is its own or stands in the content.
    have hread : ∀ rest : Text, Grammar.commentTail?
        ((c.block ++ [] ++ rest).map CodePoint.toChar) = some ((c.block).length - 2) ↔
          ¬ text "*/" <:+: c.content := by
      intro rest
      have hstart : (c.block ++ [] ++ rest).map CodePoint.toChar = '/' :: '*' ::
          (c.content ++ text " */" ++ rest).map CodePoint.toChar := by
        simp only [Comment.block, List.append_assoc, List.append_nil]
        rfl
      have hlength : c.block.length - 2 = c.content.length + 3 := by
        rw [Comment.block, List.length_append, List.length_append]
        change 2 + c.content.length + 3 - 2 = c.content.length + 3
        omega
      rw [hstart, hlength, Grammar.commentTail?, blockEnd?_eq_iff]
    exact ⟨fun h => (hread []).mp (h []), fun h rest => (hread rest).mpr h⟩

end CommentForm

/-! ## What edits put in -/

namespace CommentForm

/-- `t` consists of the comments `cs`, all in `form`, each with `form.close newline` right behind it
and with blanks before and after. -/
def Writes (form : CommentForm) (newline : Text) (cs : List Comment) (t : Text) : Prop :=
  ∃ before after : Text, (∀ c ∈ before ++ after, c.isBlank) ∧
    t = cs.flatMap fun c => before ++ form.write c ++ form.close newline ++ after

end CommentForm

/-- The text of `e` either writes comments that all satisfy `P` in one form, or satisfies `Q`
itself. -/
def Edit.Puts (newline : Text) (P : Comment → Prop) (Q : Text → Prop) (e : Edit) : Prop :=
  (∃ form cs, CommentForm.Writes form newline cs e.text ∧ ∀ c ∈ cs, P c) ∨ Q e.text

namespace Comment

theorem writes_blocksBefore (newline : Text) (cs : List Comment) :
    CommentForm.block.Writes newline cs (blocksBefore cs) := by
  refine ⟨[], text " ", by decide, ?_⟩
  simp [blocksBefore, CommentForm.write, CommentForm.close]

theorem writes_blocksAfter (newline : Text) (cs : List Comment) :
    CommentForm.block.Writes newline cs (blocksAfter cs) := by
  refine ⟨text " ", [], by decide, ?_⟩
  simp [blocksAfter, CommentForm.write, CommentForm.close]

theorem writes_lines {indent : Text} (h : ∀ c ∈ indent, c.isBlank) (newline : Text)
    (cs : List Comment) : CommentForm.line.Writes newline cs (lines indent newline cs) := by
  refine ⟨indent, [], by simpa using h, ?_⟩
  simp [lines, CommentForm.write, CommentForm.close]

end Comment

namespace Sheet

variable {sheet : Sheet} {P : Comment → Prop} {Q : Text → Prop}

theorem isBlank_of_mem_lineIndent {source : Text} {offset : Nat} :
    ∀ c ∈ source.lineIndent offset, c.isBlank :=
  fun _ hc => List.mem_takeWhile_imp hc

theorem writes_leadingText (sheet : Sheet) (offset : Nat) (cs : List Comment) :
    ∃ form : CommentForm, form.Writes sheet.newline cs (sheet.leadingText offset cs) := by
  unfold leadingText
  split
  case isTrue hstarts =>
    refine ⟨.line, [], sheet.source.slice (sheet.source.lineStart offset) offset, ?_, ?_⟩
    · simpa [Text.startsLine] using hstarts
    · simp [CommentForm.write, CommentForm.close]
  case isFalse => exact ⟨.block, Comment.writes_blocksBefore _ _⟩

/-- The edit that `leadingEdit` makes writes all leading comments of `info`, in one form. -/
theorem writes_leadingEdit {info : Info} : ∀ e ∈ sheet.leadingEdit info,
    info.comments.filter (·.leading) ≠ [] ∧ ∃ form : CommentForm,
      form.Writes sheet.newline (info.comments.filter (·.leading)) e.text := by
  intro e he
  rw [leadingEdit] at he
  split at he
  · cases he
  case isFalse hsome =>
    obtain rfl := List.mem_singleton.mp he
    exact ⟨by simpa using hsome, sheet.writes_leadingText info.start _⟩

theorem writes_trailingEdit {info : Info} (shape : Shape Node) :
    ∀ e ∈ sheet.trailingEdit info shape,
      info.comments.filter (!·.leading) ≠ [] ∧ ∃ form : CommentForm,
        form.Writes sheet.newline (info.comments.filter (!·.leading)) e.text := by
  intro e he
  rw [trailingEdit] at he
  split at he
  · cases he
  case isFalse hsome =>
    refine ⟨by simpa using hsome, ?_⟩
    split at he
    · simp only at he
      split at he
      · -- In braces, on lines before the closing one.
        obtain rfl := List.mem_singleton.mp he
        refine ⟨.line, Comment.writes_lines ?_ _ _⟩
        split
        · exact isBlank_of_mem_lineIndent
        · intro c hc
          rcases List.mem_append.mp hc with hc | hc
          · exact isBlank_of_mem_lineIndent c hc
          · have htab : ∀ c ∈ text "\t", c.isBlank := by decide
            exact htab c hc
      · obtain rfl := List.mem_singleton.mp he
        exact ⟨.block, Comment.writes_blocksBefore _ _⟩
    · obtain rfl := List.mem_singleton.mp he
      exact ⟨.block, Comment.writes_blocksAfter _ _⟩

/-- The edit that `removalEdit` makes writes all comments of `info`, in one form. -/
theorem writes_removalEdit (sheet : Sheet) (info : Info) :
    Ensures (sheet.removalEdit info) fun e =>
      ∃ form : CommentForm, form.Writes sheet.newline info.comments e.text := by
  refine (ensures_self _).bind fun cut _ => ensures_ok ?_
  change ∃ form : CommentForm, form.Writes sheet.newline info.comments
    (if info.comments.isEmpty then []
      else if cut.wholeLine then
        Comment.lines (sheet.source.lineIndent info.start) sheet.newline info.comments
      else if cut.start < info.start then Comment.blocksAfter info.comments
      else Comment.blocksBefore info.comments)
  split
  case isTrue hnone =>
    rw [List.isEmpty_iff.mp hnone]
    exact ⟨.line, [], [], by simp, rfl⟩
  case isFalse =>
    split
    · exact ⟨.line, Comment.writes_lines isBlank_of_mem_lineIndent _ _⟩
    split
    · exact ⟨.block, Comment.writes_blocksAfter _ _⟩
    · exact ⟨.block, Comment.writes_blocksBefore _ _⟩

/-- `leadingEdit` inserts at `info.start` and replaces nothing. -/
theorem span_of_mem_leadingEdit {info : Info} {e : Edit} (he : e ∈ sheet.leadingEdit info) :
    e.start = info.start ∧ e.stop = info.start := by
  rw [leadingEdit] at he
  split at he
  · cases he
  · rw [List.mem_singleton.mp he]
    exact ⟨rfl, rfl⟩

/-- `trailingEdit` inserts before the closing brace of the list, or where the line of the brace
starts, and replaces nothing. -/
theorem span_of_mem_trailingEdit {info : Info} {shape : Shape Node}
    (hkind : shape.kind.isBracedList) (hlt : info.start < info.stop) {e : Edit}
    (he : e ∈ sheet.trailingEdit info shape) :
    e.stop = e.start ∧
      (e.start = info.stop - 1 ∨ e.start = sheet.source.lineStart (info.stop - 1)) := by
  rw [trailingEdit] at he
  split at he
  · cases he
  rw [hkind, decide_eq_true hlt] at he
  simp only [Bool.and_self, if_true] at he
  split at he
  · obtain rfl := List.mem_singleton.mp he
    exact ⟨rfl, .inr rfl⟩
  · obtain rfl := List.mem_singleton.mp he
    exact ⟨rfl, .inl rfl⟩

/-- `removalEdit` replaces the span of the cut that `Text.removal` finds for `info`. -/
theorem span_of_removalEdit {info : Info} {e : Edit} (he : sheet.removalEdit info = .ok e) :
    ∃ cut, sheet.source.removal info.start info.stop = .ok cut ∧
      e.start = cut.start ∧ e.stop = cut.stop := by
  obtain ⟨cut, hcut, he⟩ := exists_of_bind_eq_ok he
  cases he
  exact ⟨cut, hcut, rfl, rfl⟩

theorem puts_leadingEdit {info : Info} (h : ∀ c ∈ info.comments, P c) :
    ∀ e ∈ sheet.leadingEdit info, e.Puts sheet.newline P Q := by
  intro e he
  obtain ⟨-, form, hform⟩ := writes_leadingEdit e he
  exact .inl ⟨form, _, hform, fun c hc => h c (List.mem_of_mem_filter hc)⟩

theorem puts_trailingEdit {info : Info} (h : ∀ c ∈ info.comments, P c) (shape : Shape Node) :
    ∀ e ∈ sheet.trailingEdit info shape, e.Puts sheet.newline P Q := by
  intro e he
  obtain ⟨-, form, hform⟩ := writes_trailingEdit shape e he
  exact .inl ⟨form, _, hform, fun c hc => h c (List.mem_of_mem_filter hc)⟩

/-- If all comments of `info` satisfy `P`, `removalEdit` puts in comments that satisfy `P`. -/
theorem removalEdit_ensures {info : Info} (h : ∀ c ∈ info.comments, P c) :
    Ensures (sheet.removalEdit info) fun e => e.Puts sheet.newline P Q := by
  intro e he
  obtain ⟨form, hform⟩ := writes_removalEdit sheet info e he
  exact .inl ⟨form, _, hform, h⟩

theorem listEdits_ensures {ns : List Node} {R : Edit → Prop}
    (h : ∀ n ∈ ns, Ensures (sheet.edits n) fun es => ∀ e ∈ es, R e) :
    Ensures (sheet.listEdits ns) fun es => ∀ e ∈ es, R e := by
  induction ns with
  | nil =>
    rw [listEdits]
    exact ensures_ok (by simp)
  | cons n rest ih =>
    rw [List.forall_mem_cons] at h
    rw [listEdits]
    refine h.1.bind fun es hes => (ih h.2).bind fun later hlater => ensures_ok ?_
    intro e he
    exact (List.mem_append.mp he).elim (hes e) (hlater e)

end Sheet

/-- `R` holds of each edit for which `n` itself asks: in `beside` those for its comments, in `cut`
that of a placeholder, in `made` those of another node that a pass has made. -/
structure Node.AsksFor (sheet : Sheet) (R : Edit → Prop) (n : Node) : Prop where
  beside : n.info.synthetic = false →
    ∀ e ∈ sheet.leadingEdit n.info ++ sheet.trailingEdit n.info n.shape, R e
  cut : n.isPlaceholder → Ensures (sheet.removalEdit n.info) R
  made : n.info.synthetic → n.kind ≠ .removed → Ensures (sheet.edits n) fun es => ∀ e ∈ es, R e

/-- If every printed node in `n` only `AsksFor` edits that satisfy `R`, so does every edit of
`sheet.edits n`; by induction on the tree. -/
theorem Sheet.edits_ensures {sheet : Sheet} {R : Edit → Prop} {n : Node}
    (h : ∀ m ∈ n.printed, m.AsksFor sheet R) :
    Ensures (sheet.edits n) fun es => ∀ e ∈ es, R e := by
  induction n using Node.induction with
  | mk info shape ih =>
    have hself := h (.mk info shape) (Node.mem_preorder_self _ _)
    cases hsynthetic : info.synthetic with
    | true =>
      by_cases hkind : (Node.mk info shape).kind = .removed
      · have hcut : Ensures (sheet.removalEdit info) R :=
          hself.cut (by rw [Node.isPlaceholder, Node.info_mk, hsynthetic, hkind]; rfl)
        obtain rfl : shape = .removed := by
          cases shape <;> first | rfl | cases hkind
        simp only [edits, hsynthetic, if_true]
        refine hcut.bind fun e he => ensures_ok ?_
        rwa [List.forall_mem_singleton]
      · exact hself.made hsynthetic hkind
    | false =>
      rw [Node.printed_mk hsynthetic, List.forall_mem_cons, List.forall_mem_flatMap] at h
      rw [edits_of_not_synthetic hsynthetic]
      have hbelow := listEdits_ensures fun c hc => ih c hc (h.2 c hc)
      refine hbelow.bind fun es hes => ensures_ok ?_
      rw [List.forall_mem_append]
      exact ⟨hself.beside hsynthetic, hes⟩

/-- The same for `programEdits`, where `endEdit` has to satisfy `R` besides. -/
theorem Node.programEdits_ensures {program : Node} {R : Edit → Prop}
    (hend : ∀ e ∈ program.endEdit, R e)
    (h : ∀ n ∈ program.children, ∀ m ∈ n.printed, m.AsksFor program.sheet R) :
    Ensures program.programEdits fun es => ∀ e ∈ es, R e := by
  cases program with
  | mk info shape =>
    rw [programEdits_mk]
    have hbelow := Sheet.listEdits_ensures fun c hc => Sheet.edits_ensures (h c hc)
    refine hbelow.bind fun es hes => ensures_ok ?_
    rw [List.forall_mem_append]
    exact ⟨hes, hend⟩

/-- `endEdit` writes the comments at the end of the program as `line` comments. -/
theorem Node.writes_endEdit {program : Node} : ∀ e ∈ program.endEdit,
    program.comments.filter (!·.leading) ≠ [] ∧
      CommentForm.line.Writes program.sheet.newline (program.comments.filter (!·.leading))
        e.text := by
  intro e he
  rw [endEdit] at he
  split at he
  · cases he
  case isFalse hsome =>
    obtain rfl := List.mem_singleton.mp he
    exact ⟨by simpa using hsome, Comment.writes_lines (by simp) _ _⟩

/-- `P` holds of the comments of `n`, and `Q` of the texts of its edits if a pass has made it and it
is no placeholder. -/
structure Node.PutsIn (sheet : Sheet) (P : Comment → Prop) (Q : Text → Prop) (n : Node) : Prop where
  comments : ∀ c ∈ n.info.comments, P c
  made : n.info.synthetic → n.shape = .removed ∨
    Ensures (sheet.edits n) fun es => ∀ e ∈ es, Q e.text

theorem Node.PutsIn.asksFor {sheet : Sheet} {P : Comment → Prop} {Q : Text → Prop} {n : Node}
    (h : n.PutsIn sheet P Q) : n.AsksFor sheet (Edit.Puts sheet.newline P Q) where
  beside _ := by
    rw [List.forall_mem_append]
    exact ⟨Sheet.puts_leadingEdit h.comments, Sheet.puts_trailingEdit h.comments n.shape⟩
  cut _ := Sheet.removalEdit_ensures h.comments
  made hmade hkind := by
    rcases h.made hmade with hshape | htexts
    · exact absurd (by rw [kind, hshape]; rfl) hkind
    · exact fun es hes e he => .inr (htexts es hes e he)

namespace Sheet

variable {sheet : Sheet}

theorem not_inserted_mem_copy {start stop offset : Nat} {t : Text} :
    Chunk.inserted offset t ∉ Chunk.copy start stop := by
  unfold Chunk.copy
  split <;> simp

/-- What `spliceFrom` inserts is the text of one of `edits`, with `sheet.newline` before it or
not. -/
theorem spliceFrom_ensures (stop : Nat) (last : Text) (cursor : Nat) (edits : List Edit) :
    Ensures (sheet.spliceFrom stop last cursor edits) fun chunks =>
      ∀ offset t, Chunk.inserted offset t ∈ chunks →
        ∃ e ∈ edits, t = e.text ∨ t = sheet.newline ++ e.text := by
  induction edits generalizing last cursor with
  | nil =>
    rw [spliceFrom]
    exact ensures_ok fun offset t ht => absurd ht not_inserted_mem_copy
  | cons edit rest ih =>
    intro chunks h offset t ht
    obtain ⟨-, before, last', later, hlater, rfl⟩ := exists_of_spliceFrom_cons h
    rcases List.mem_append.mp ht with ht | ht
    · exact absurd ht not_inserted_mem_copy
    rcases List.mem_append.mp ht with ht | ht
    · -- The text of this edit.
      split at ht
      case isTrue => cases ht
      case isFalse =>
        cases List.mem_singleton.mp ht
        exact ⟨edit, List.mem_cons_self, (sheet.insertion_eq before edit).imp_right fun h => h.2.2⟩
    · obtain ⟨e, he, hcases⟩ := ih last' edit.stop later hlater offset t ht
      exact ⟨e, List.mem_cons_of_mem _ he, hcases⟩

end Sheet

/-- If the comments satisfy `P` and the made nodes satisfy `Q`, each chunk that `printChunks`
inserts is the text of an edit that `Puts` in such comments or such a text, with a line break before
it or not. -/
theorem Node.printChunks_ensures {program : Node} {P : Comment → Prop} {Q : Text → Prop}
    (hcomments : ∀ c ∈ program.comments, P c)
    (h : ∀ n ∈ program.children, ∀ m ∈ n.printed, m.PutsIn program.sheet P Q) :
    Ensures program.printChunks fun chunks => ∀ offset t, Chunk.inserted offset t ∈ chunks →
      ∃ e : Edit, e.Puts program.sheet.newline P Q ∧
        (t = e.text ∨ t = program.sheet.newline ++ e.text) := by
  have hend : ∀ e ∈ program.endEdit, e.Puts program.sheet.newline P Q := by
    intro e he
    exact .inl ⟨.line, _, (writes_endEdit e he).2, fun c hc =>
      hcomments c (List.mem_of_mem_filter hc)⟩
  refine (programEdits_ensures hend fun n hn m hm => (h n hn m hm).asksFor).bind
    fun edits hedits chunks hchunks => ?_
  intro offset t ht
  obtain ⟨e, he, hcases⟩ := Sheet.spliceFrom_ensures _ _ _ _ chunks hchunks offset t ht
  exact ⟨e, hedits e ((Edit.sort_perm edits).mem_iff.mp he), hcases⟩

end FlagFold
