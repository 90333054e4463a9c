/-
  FlagFold.Proofs.Print.Ending

  The comments of a program behind all that is printed of it.  They begin on a line
  of their own, for which a line terminator is put in where the output so far does
  not end one.  Where there is no output so far, the end of the source is looked at
  in its place, though all of the source was taken out: a source that does not end
  its last line leaves an empty line in front of the comments.
-/

import FlagFold.Fold.Module
import FlagFold.Proofs.Fold.Delivered
import FlagFold.Proofs.Print.Order

namespace FlagFold

namespace Text

/-! ## Where a line begins -/

/-- `t` is empty or ends with a line feed, so that a line begins behind it. -/
def endsLine (t : Text) : Bool := t.getLast?.all CodePoint.isLineFeed

theorem endsLine_append {t u : Text} (h : u ≠ []) : Text.endsLine (t ++ u) = u.endsLine := by
  rw [endsLine, endsLine, List.getLast?_append_of_ne_nil t h]

/-- `t.newline` is not empty, and a line begins behind it. -/
theorem newline_spec (t : Text) : t.newline ≠ [] ∧ t.newline.endsLine := by
  rw [newline]
  split <;> decide

/-- If `t.endsLine`, `t.length` is the start of a line in `t ++ later`. -/
theorem lineStart_append_length {t : Text} (h : t.endsLine) (later : Text) :
    Text.lineStart (t ++ later) t.length = t.length := by
  rcases List.eq_nil_or_concat t with rfl | ⟨front, c, rfl⟩
  · cases later <;> rfl
  · have hfeed : c.isLineFeed := by simpa [endsLine] using h
    rw [List.concat_eq_append, List.length_append, lineStart, lineStartFrom_add, List.append_assoc,
      List.drop_left, List.length_singleton, List.singleton_append, lineStartFrom, if_pos hfeed,
      lineStartFrom, Nat.zero_add]

/-- The line terminator that comes behind the output `before` ahead of an edit with `ownLine`: none
where `before` ends a line, or where it is empty and `source` ends one. -/
def breakBehind (source before : Text) : Text :=
  if Text.endsLine (if before = [] then source else before) then [] else source.newline

variable {source before : Text}

theorem breakBehind_eq : source.breakBehind before = [] ∨
    source.breakBehind before = source.newline := by
  rw [breakBehind]
  exact ite_eq_or_eq _ _ _

theorem breakBehind_ne_nil_iff : source.breakBehind before ≠ [] ↔
    before ≠ [] ∧ ¬ before.endsLine ∨ before = [] ∧ ¬ source.endsLine := by
  have hiff : source.breakBehind before ≠ [] ↔
      ¬ Text.endsLine (if before = [] then source else before) := by
    rw [breakBehind]
    generalize Text.endsLine (if before = [] then source else before) = ends
    cases ends <;> simp [(newline_spec source).1]
  rw [hiff]
  by_cases hbefore : before = [] <;> simp [hbefore]

/-- `breakBehind` is a terminator just where `before` asks for one (is not empty and does not end a
line) if and only if `before` is not empty or `source` ends a line. -/
theorem breakBehind_asNeeded_iff :
    (source.breakBehind before ≠ [] ↔ before ≠ [] ∧ ¬ before.endsLine) ↔
      before ≠ [] ∨ source.endsLine := by
  rw [breakBehind_ne_nil_iff]
  by_cases hbefore : before = [] <;> simp [hbefore]

/-- A line begins behind `before ++ source.breakBehind before` in any case. -/
theorem endsLine_append_breakBehind (source before : Text) :
    Text.endsLine (before ++ source.breakBehind before) := by
  by_cases hbreak : source.breakBehind before = []
  · have hends := mt breakBehind_ne_nil_iff.mpr (not_not.mpr hbreak)
    rw [hbreak, List.append_nil]
    by_cases hbefore : before = []
    · rw [hbefore]
      rfl
    · by_contra hnot
      exact hends (.inl ⟨hbefore, hnot⟩)
  · rw [endsLine_append hbreak, breakBehind_eq.resolve_left hbreak]
    exact (newline_spec source).2

end Text

namespace Chunk

variable {source : Text}

/-- If no chunk is empty, `lastOutput` is empty just if `outputs` is, and ends a line just if
`outputs` does. -/
theorem lastOutput_spec {chunks : List Chunk} (h : ∀ c ∈ chunks, c.output source ≠ []) :
    (lastOutput source [] chunks = [] ↔ outputs source chunks = []) ∧
      (lastOutput source [] chunks).endsLine = (outputs source chunks).endsLine := by
  rcases List.eq_nil_or_concat chunks with rfl | ⟨front, last, rfl⟩
  · exact ⟨Iff.rfl, rfl⟩
  · have hlast : last.output source ≠ [] := h last (by simp)
    have hsingle : outputs source [last] = last.output source := by simp [outputs]
    rw [List.concat_eq_append, lastOutput_append, lastOutput_singleton, outputs_append, hsingle,
      Text.endsLine_append hlast]
    simp [hlast]

end Chunk

namespace Sheet

variable {sheet : Sheet}

/-- `insertion` of an edit with `ownLine`: `sheet.newline` comes before its text unless the `last`
chunk, or the source before `e` where there is none, ends a line. -/
theorem insertion_of_ownLine {e : Edit} (hown : e.ownLine) (htext : e.text ≠ [])
    (hstart : e.start ≤ sheet.source.length) (last : Text) :
    sheet.insertion last e =
      (if Text.endsLine (if last = [] then sheet.source.take e.start else last) then []
        else sheet.newline) ++ e.text := by
  -- The character that is looked at is the last one of the text in front.
  have hprevious : ∀ front : Text,
      (if !front.getLast?.toList.isEmpty && front.getLast?.toList ≠ text "\n" then
        sheet.newline ++ e.text else e.text) =
      (if front.endsLine then [] else sheet.newline) ++ e.text := by
    intro front
    cases hlast : front.getLast? with
    | none => simp [Text.endsLine, hlast]
    | some c =>
      by_cases hfeed : c = '\n' <;>
        simp [Text.endsLine, hlast, CodePoint.isLineFeed, hfeed, text]
  have hlast : ∀ front : Text, front.drop (front.length - 1) = front.getLast?.toList := by
    intro front
    rcases List.eq_nil_or_concat front with rfl | ⟨front, c, rfl⟩ <;> simp
  rw [insertion, if_pos (by simp [hown, htext]), ← hprevious, ← hlast]
  by_cases hempty : last = []
  · have htake : sheet.source.slice (e.start - 1) e.start =
        (sheet.source.take e.start).drop ((sheet.source.take e.start).length - 1) := by
      rw [List.length_take, Nat.min_eq_left hstart, Text.slice, List.drop_take]
    simp only [hempty, if_true, htake, List.isEmpty_nil]
  · simp only [hempty, if_false, List.isEmpty_eq_false_iff.mpr hempty, Bool.false_eq_true]

/-- `spliceFrom` at an edit `e` in the midst of others: `before` is spliced first, and `e` is put in
behind the last output of that. -/
theorem exists_of_spliceFrom_append {stop cursor : Nat} {last : Text} {before later : List Edit}
    {e : Edit} {chunks : List Chunk}
    (h : sheet.spliceFrom stop last cursor (before ++ e :: later) = .ok chunks) :
    ∃ front last' back, sheet.spliceFrom e.start last cursor before = .ok front ∧
      sheet.spliceFrom stop last' e.stop later = .ok back ∧
      chunks = front ++ sheet.inserts (Chunk.lastOutput sheet.source last front) e ++ back := by
  induction before generalizing last cursor chunks with
  | nil =>
    have hstart : cursor ≤ e.start := (exists_of_spliceFrom_cons h).1
    rw [List.nil_append, spliceFrom_cons hstart] at h
    obtain ⟨back, hback, hchunks⟩ := exists_of_bind_eq_ok h
    cases hchunks
    exact ⟨_, _, back, rfl, hback, rfl⟩
  | cons edit rest ih =>
    have hstart : cursor ≤ edit.start := (exists_of_spliceFrom_cons h).1
    rw [List.cons_append, spliceFrom_cons hstart] at h
    obtain ⟨after, hafter, hchunks⟩ := exists_of_bind_eq_ok h
    cases hchunks
    obtain ⟨front, last', back, hfront, hback, rfl⟩ := ih hafter
    let here := Chunk.copy cursor edit.start ++
      sheet.inserts (Chunk.lastOutput sheet.source last (Chunk.copy cursor edit.start)) edit
    have hbefore : sheet.spliceFrom e.start last cursor (edit :: rest) = .ok (here ++ front) := by
      rw [spliceFrom_cons hstart]
      simp only
      rw [hfront]
      rfl
    exact ⟨_, last', back, hbefore, hback,
      by simp only [Chunk.lastOutput_append, List.append_assoc, here]⟩

/-- `spliceFrom` makes no empty chunk if all edits start within the source. -/
theorem output_ne_nil_of_mem_spliceFrom {stop cursor : Nat} {last : Text} {edits : List Edit}
    {chunks : List Chunk} (hstop : stop ≤ sheet.source.length)
    (hedits : ∀ e ∈ edits, e.start ≤ sheet.source.length)
    (h : sheet.spliceFrom stop last cursor edits = .ok chunks) :
    ∀ c ∈ chunks, c.output sheet.source ≠ [] := by
  have hcopy : ∀ a b, b ≤ sheet.source.length → ∀ c ∈ Chunk.copy a b,
      c.output sheet.source ≠ [] := by
    intro a b hb c hc
    unfold Chunk.copy at hc
    split at hc
    case isTrue => cases hc
    case isFalse hlt =>
      rw [List.mem_singleton.mp hc, Chunk.output, ← List.length_pos_iff, Text.length_slice]
      omega
  induction edits generalizing last cursor chunks with
  | nil =>
    cases h
    exact hcopy cursor stop hstop
  | cons edit rest ih =>
    rw [List.forall_mem_cons] at hedits
    obtain ⟨-, before, last', later, hlater, rfl⟩ := exists_of_spliceFrom_cons h
    rw [List.forall_mem_append, List.forall_mem_append]
    refine ⟨hcopy cursor edit.start hedits.1, ?_, ih hedits.2 hlater⟩
    intro c hc
    split at hc
    case isTrue => cases hc
    case isFalse hsome =>
      rw [List.mem_singleton.mp hc]
      exact mt List.isEmpty_iff.mpr hsome

/-- An edit with `ownLine` at the end of `source` is put in behind the output of all `inner` edits
that come before it in `Edit.le`. -/
theorem splice_concat {source : Text} {inner : List Edit} {e : Edit} {chunks : List Chunk}
    (hown : e.ownLine) (htext : e.text ≠ []) (hstart : e.start = source.length)
    (h : (Sheet.ofSource source).splice 0 source.length (inner ++ [e]) = .ok chunks) :
    ∃ front back,
      (Sheet.ofSource source).splice 0 source.length (inner.filter (·.le e)) = .ok front ∧
      let before := Chunk.outputs source front
      Chunk.outputs source chunks = before ++ source.breakBehind before ++ e.text ++ back ∧
      ((∀ a ∈ inner, a.le e) → e.stop = source.length → back = []) := by
  rw [splice, Edit.sort_concat] at h
  obtain ⟨front, last', back, hfront, hback, rfl⟩ := exists_of_spliceFrom_append h
  have hinside : ∀ a ∈ Edit.sort (inner.filter (·.le e)), a.start ≤ source.length := by
    intro a ha
    have hle := (List.mem_filter.mp ((Edit.sort_perm _).mem_iff.mp ha)).2
    rw [Edit.le_iff] at hle
    omega
  rw [hstart] at hfront
  -- What is looked at is the end of the output so far, or of the source.
  have hinsertion : (Sheet.ofSource source).insertion (Chunk.lastOutput source [] front) e =
      source.breakBehind (Chunk.outputs source front) ++ e.text := by
    obtain ⟨hnone, hlast⟩ : (Chunk.lastOutput source [] front = [] ↔
          Chunk.outputs source front = []) ∧
        Text.endsLine (Chunk.lastOutput source [] front) =
          Text.endsLine (Chunk.outputs source front) :=
      Chunk.lastOutput_spec (output_ne_nil_of_mem_spliceFrom (Nat.le_refl _) hinside hfront)
    have hends : Text.endsLine (if Chunk.lastOutput source [] front = [] then source.take e.start
          else Chunk.lastOutput source [] front) =
        Text.endsLine (if Chunk.outputs source front = [] then source
          else Chunk.outputs source front) := by
      rw [hstart, List.take_length]
      by_cases hbefore : Chunk.outputs source front = []
      · rw [if_pos hbefore, if_pos (hnone.mpr hbefore)]
      · rw [if_neg hbefore, if_neg (mt hnone.mp hbefore), hlast]
    rw [insertion_of_ownLine hown htext (Nat.le_of_eq hstart), Text.breakBehind, ← hends]
    rfl
  refine ⟨front, Chunk.outputs source back, hfront, ?_, fun hinner hstop => ?_⟩
  · calc Chunk.outputs source
          (front ++ (Sheet.ofSource source).inserts (Chunk.lastOutput source [] front) e ++ back)
        = Chunk.outputs source front ++
            (Sheet.ofSource source).insertion (Chunk.lastOutput source [] front) e ++
            Chunk.outputs source back := by
          rw [Chunk.outputs_append, Chunk.outputs_append, inserts, Chunk.outputs_inserted]
      _ = _ := by
          rw [hinsertion, ← List.append_assoc]
  · have hnone : inner.filter (!·.le e) = [] := by simpa using hinner
    rw [hnone, Edit.sort, List.mergeSort_nil, spliceFrom, hstop] at hback
    cases hback
    exact (Chunk.outputs_copy _ _).trans (by simp [Text.slice])

end Sheet

/-! ## The comments at the end -/

namespace Node

/-- The comments of `program` that are not leading; they are printed behind it. -/
def endComments (program : Node) : List Comment := program.comments.filter (!·.leading)

/-- `endComments` begin at the start of a line. `before` them comes all that is printed for edits
inside the source, and a terminator of their own just if `before` is not empty and does not end a
line, or is empty and the source does not end its last line. So the terminator is as needed just if
there is output before it, or the source ends its last line. -/
theorem print_endComments {program : Node} {code : Text} (hprint : program.print = .ok code)
    (hcomments : program.endComments ≠ []) :
    let source := program.source
    let atEnd : Edit := ⟨source.length, source.length, [], true⟩
    ∃ inner chunks lineBreak later,
      program.sheet.innerEdits program.shape = .ok inner ∧
      program.sheet.splice 0 source.length (inner.filter (·.le atEnd)) = .ok chunks ∧
      let before := program.sheet.write chunks
      code = before ++ lineBreak ++ Comment.lines [] source.newline program.endComments ++ later ∧
      ((∀ e ∈ inner, e.le atEnd) → later = []) ∧
      code.lineStart (before ++ lineBreak).length = (before ++ lineBreak).length ∧
      (lineBreak = [] ∨ lineBreak = source.newline) ∧
      (lineBreak ≠ [] ↔ before ≠ [] ∧ ¬ before.endsLine ∨ before = [] ∧ ¬ source.endsLine) ∧
      ((lineBreak ≠ [] ↔ before ≠ [] ∧ ¬ before.endsLine) ↔ before ≠ [] ∨ source.endsLine) := by
  intro source atEnd
  let e : Edit := ⟨source.length, source.length,
    Comment.lines [] source.newline program.endComments, true⟩
  have hend : program.endEdit = [e] := if_neg (mt List.isEmpty_iff.mp hcomments)
  have htext : e.text ≠ [] := by
    obtain ⟨c, cs, hcs⟩ := List.exists_cons_of_ne_nil hcomments
    simp [e, hcs, Comment.lines, Comment.line, text]
  -- The edit at the end is listed behind those inside the source.
  obtain ⟨chunks, hchunks, hcode⟩ := exists_of_bind_eq_ok hprint
  obtain ⟨edits, hedits, hsplice⟩ := exists_of_bind_eq_ok hchunks
  obtain ⟨inner, hinner, hedits⟩ := exists_of_bind_eq_ok hedits
  cases hedits
  rw [hend] at hsplice
  obtain ⟨front, later, hfront, houtput, hlater⟩ := Sheet.splice_concat rfl htext rfl hsplice
  let before := program.sheet.write front
  have hwritten : code = before ++ source.breakBehind before ++ e.text ++ later :=
    (Except.ok.inj hcode).symm.trans houtput
  refine ⟨inner, front, source.breakBehind before, later, hinner, hfront, hwritten,
    fun hinside => hlater hinside rfl, ?_, Text.breakBehind_eq, Text.breakBehind_ne_nil_iff,
    Text.breakBehind_asNeeded_iff⟩
  rw [hwritten, List.append_assoc]
  exact Text.lineStart_append_length (Text.endsLine_append_breakBehind source before) _

end Node

/-- A program of `others` and a pragma `'has("a")'` with a semicolon and no line terminator behind
it. -/
def pragmaLast (others : List Node) (source : Text) : Node :=
  let start := source.length - 11
  let pragma : Node := .mk { start := start, stop := start + 10 }
    (.string (text "has(\"a\")") (text "'has(\"a\")'"))
  .mk { stop := source.length } (.program
    (others ++ [.mk { start := start, stop := start + 11 } (.expressionStatement (some pragma))])
    source)

/-- The statement `f();` at the start of a source. -/
def callFirst : Node :=
  .mk { stop := 4 } (.expressionStatement (some (.mk { stop := 3 }
    (.call (some (.mk { stop := 1 } (.identifier (text "f")))) [] false))))

/-- In `f(); 'has("a")';` the comment for the pragma gets a line of its own. -/
theorem print_endComments_behindCall :
    let delivered := pragmaLast [callFirst] (text "f(); 'has(\"a\")';")
    let program := (delivered.foldModule [] [] []).program
    let code := text "f();\n// has('a')\n"
    program.print = .ok code ∧ program.endComments ≠ [] ∧
      ∃ before lineBreak later, code = before ++ lineBreak ++ text "// has('a')\n" ++ later ∧
        code.lineStart (before ++ lineBreak).length = (before ++ lineBreak).length ∧
        (lineBreak ≠ [] ↔ before ≠ [] ∧ ¬ Text.endsLine before ∨
          before = [] ∧ ¬ program.source.endsLine) := by
  intro delivered program code
  have hedits : program.programEdits = .ok [⟨4, 16, [], false⟩,
      ⟨16, 16, text "// has('a')\n", true⟩] := by rfl
  have hprint : program.print = .ok code := by
    rw [Node.print, Node.printChunks, hedits]
    simp only [bind, Except.bind, Sheet.splice]
    rw [Edit.sort_of_pairwise (by decide)]
    rfl
  have hcomments : program.endComments ≠ [] := by decide
  obtain ⟨inner, chunks, lineBreak, later, -, -, hcode, -, hline, -, hbreak, -⟩ :=
    Node.print_endComments hprint hcomments
  exact ⟨hprint, hcomments, _, lineBreak, later, hcode, hline, hbreak⟩

/-- Where a pragma is all of the source and no line terminator ends it, all is taken out, and the
comment still comes behind an empty line. -/
theorem print_endComments_emptyLine :
    let delivered := pragmaLast [] (text "'has(\"a\")';")
    let program := (delivered.foldModule [] [] []).program
    delivered.Delivered ∧ program.print = .ok (text "\n// has('a')\n") ∧
      ∃ inner chunks, program.sheet.innerEdits program.shape = .ok inner ∧
        program.sheet.splice 0 11 (inner.filter (·.le ⟨11, 11, [], true⟩)) = .ok chunks ∧
        program.sheet.write chunks = [] := by
  intro delivered program
  refine ⟨by decide, ?_, [⟨0, 11, [], false⟩], [], rfl, ?_, rfl⟩
  · have hedits : program.programEdits = .ok [⟨0, 11, [], false⟩,
        ⟨11, 11, text "// has('a')\n", true⟩] := by rfl
    rw [Node.print, Node.printChunks, hedits]
    simp only [bind, Except.bind, Sheet.splice]
    rw [Edit.sort_of_pairwise (by decide)]
    rfl
  · rw [Sheet.splice, Edit.sort_of_pairwise (by decide)]
    rfl

end FlagFold
