/-
  FlagFold.Proofs.Text.Lines

  Where lines start, and the line and column of an offset.  The line is the number
  of line feeds before the offset and the column the distance from the start of
  its line, so both run on evenly where there is no line feed.
-/

import FlagFold.Proofs.Text.Pieces
import FlagFold.Text.Lines

namespace FlagFold.Text

/-! ## Slices -/

theorem take_append_slice (t : Text) {a b : Nat} (h : a ≤ b) :
    t.take a ++ t.slice a b = t.take b := by
  rw [slice, ← List.take_add, Nat.add_sub_cancel' h]

theorem slice_append_slice (t : Text) {a b c : Nat} (hab : a ≤ b) (hbc : b ≤ c) :
    t.slice a b ++ t.slice b c = t.slice a c := by
  have hdrop : t.drop b = (t.drop a).drop (b - a) := by
    rw [List.drop_drop, Nat.add_sub_cancel' hab]
  rw [slice, slice, hdrop, ← List.take_add, slice]
  congr 1
  omega

@[simp] theorem slice_self (t : Text) (a : Nat) : t.slice a a = [] := by
  rw [slice, Nat.sub_self, List.take_zero]

theorem getElem?_slice (t : Text) (a b i : Nat) :
    (t.slice a b)[i]? = if i < b - a then t[a + i]? else none := by
  rw [slice, List.getElem?_take, List.getElem?_drop]

/-- A slice of a slice of `t` is one of `t`, as long as it stays within the first. -/
theorem slice_slice (t : Text) {a b i j : Nat} (h : a + j ≤ b) :
    (t.slice a b).slice i j = t.slice (a + i) (a + j) := by
  rw [slice, slice, List.drop_take, List.drop_drop, List.take_take, slice]
  congr 1
  omega

theorem slice_append_left {t : Text} (u : Text) {a b : Nat} (h : b ≤ t.length) :
    (t ++ u).slice a b = t.slice a b := by
  by_cases hab : a ≤ b
  · rw [slice, List.drop_append_of_le_length (by omega), List.take_append_of_le_length
      (by rw [List.length_drop]; omega), slice]
  · rw [slice, slice, Nat.sub_eq_zero_of_le (by omega), List.take_zero, List.take_zero]

theorem slice_append_right (t u : Text) (a b : Nat) :
    (t ++ u).slice (t.length + a) (t.length + b) = u.slice a b := by
  have hdrop : (t ++ u).drop (t.length + a) = u.drop a := by simp
  rw [slice, hdrop, slice]
  congr 1
  omega

/-! ## Starts of lines -/

theorem lineStartFrom_add (start here n m : Nat) (t : Text) :
    lineStartFrom start here (n + m) t =
      lineStartFrom (lineStartFrom start here n t) (here + n) m (t.drop n) := by
  induction n generalizing start here t with
  | zero => simp [lineStartFrom]
  | succ n ih =>
    cases t with
    | nil =>
      cases m <;> simp [lineStartFrom]
    | cons c rest =>
      rw [Nat.add_right_comm, lineStartFrom, ih, lineStartFrom, List.drop_succ_cons]
      congr 1
      omega

theorem lineStartFrom_of_no_lineFeed {start here n : Nat} {t : Text}
    (h : ∀ c ∈ t.take n, ¬ c.isLineFeed) : lineStartFrom start here n t = start := by
  induction n generalizing here t with
  | zero => rw [lineStartFrom]
  | succ n ih =>
    cases t with
    | nil => rw [lineStartFrom]
    | cons c rest =>
      rw [List.take_succ_cons, List.forall_mem_cons] at h
      rw [lineStartFrom, if_neg h.1, ih h.2]

/-- `lineStartFrom` goes back to behind the last line feed among the first `n` characters of `t`, or
to `start` if there is none. -/
theorem lineStartFrom_spec (start here n : Nat) (t : Text) :
    lineStartFrom start here n t = start ∧ (∀ c ∈ t.take n, ¬ c.isLineFeed) ∨
    ∃ i < n, lineStartFrom start here n t = here + i + 1 ∧ (t[i]?.any CodePoint.isLineFeed) ∧
      ∀ c ∈ t.slice (i + 1) n, ¬ c.isLineFeed := by
  induction n generalizing start here t with
  | zero => exact .inl ⟨by rw [lineStartFrom], by simp⟩
  | succ n ih =>
    cases t with
    | nil => exact .inl ⟨by rw [lineStartFrom], by simp⟩
    | cons c rest =>
      rw [lineStartFrom]
      -- The last line feed is in the rest, or it is the first character, or there is none.
      rcases ih (if c.isLineFeed then here + 1 else start) (here + 1) rest with
        ⟨hstart, hno⟩ | ⟨i, hi, hstart, hbreak, hno⟩
      · rw [hstart]
        by_cases hc : c.isLineFeed
        · refine .inr ⟨0, by omega, by rw [if_pos hc], by simpa using hc, ?_⟩
          simpa [slice] using hno
        · refine .inl ⟨by rw [if_neg hc], ?_⟩
          simpa [hc] using hno
      · refine .inr ⟨i + 1, by omega, by rw [hstart]; omega, by simpa using hbreak, ?_⟩
        simpa [slice] using hno

theorem lineStart_spec (t : Text) (o : Nat) :
    t.lineStart o = 0 ∧ (∀ c ∈ t.take o, ¬ c.isLineFeed) ∨
    ∃ i < o, t.lineStart o = i + 1 ∧ (t[i]?.any CodePoint.isLineFeed) ∧
      ∀ c ∈ t.slice (i + 1) o, ¬ c.isLineFeed := by
  simpa [lineStart] using lineStartFrom_spec 0 0 o t

theorem lineStart_le (t : Text) (o : Nat) : t.lineStart o ≤ o := by
  rcases t.lineStart_spec o with ⟨h, -⟩ | ⟨i, hi, h, -⟩ <;> omega

/-- Between `t.lineStart o` and `o` there is no line feed. -/
theorem no_lineFeed_of_mem_slice_lineStart {t : Text} {o : Nat} :
    ∀ c ∈ t.slice (t.lineStart o) o, ¬ c.isLineFeed := by
  rcases t.lineStart_spec o with ⟨h, hno⟩ | ⟨i, -, h, -, hno⟩
  · simpa [h, slice] using hno
  · rwa [h]

/-- Offsets `a` and `b` without a line feed between them are on one line. -/
theorem lineStart_of_no_lineFeed {t : Text} {a b : Nat} (hab : a ≤ b)
    (h : ∀ c ∈ t.slice a b, ¬ c.isLineFeed) : t.lineStart b = t.lineStart a := by
  have hb : b = a + (b - a) := by omega
  rw [lineStart, hb, lineStartFrom_add, ← lineStart]
  exact lineStartFrom_of_no_lineFeed h

/-! ## Lines and columns -/

theorem le_of_mem_lineBreaksFrom {offset x : Nat} {t : Text} (h : x ∈ t.lineBreaksFrom offset) :
    offset < x := by
  induction t generalizing offset with
  | nil => simp [lineBreaksFrom] at h
  | cons c rest ih =>
    rw [lineBreaksFrom] at h
    split at h
    · rcases List.mem_cons.mp h with rfl | h
      · omega
      · have := ih h
        omega
    · have := ih h
      omega

theorem positionFrom_of_lt {offset line start : Nat} {starts : List Nat}
    (h : ∀ s ∈ starts, offset < s) :
    positionFrom offset line start starts = ⟨line, offset - start⟩ := by
  cases starts with
  | nil => rw [positionFrom]
  | cons next rest =>
    have hnext := h next List.mem_cons_self
    rw [positionFrom, if_neg (by omega)]

theorem positionFrom_lineBreaksFrom (line start here n : Nat) (t : Text) :
    positionFrom (here + n) line start (t.lineBreaksFrom here) =
      ⟨line + (t.take n).countP CodePoint.isLineFeed,
        here + n - lineStartFrom start here n t⟩ := by
  induction t generalizing line start here n with
  | nil => cases n <;> simp [lineBreaksFrom, positionFrom, lineStartFrom]
  | cons c rest ih =>
    cases n with
    | zero =>
      rw [positionFrom_of_lt fun s hs => by simpa using le_of_mem_lineBreaksFrom hs]
      simp [lineStartFrom]
    | succ n =>
      have hn : here + (n + 1) = here + 1 + n := by omega
      rw [lineBreaksFrom, List.take_succ_cons, List.countP_cons, lineStartFrom, hn]
      by_cases hc : c.isLineFeed
      · simp only [hc, if_true]
        rw [positionFrom, if_pos (by omega), ih]
        congr 1
        omega
      · simp only [hc, Bool.false_eq_true, if_false]
        rw [ih, Nat.add_zero]
        rfl

/-- The line of an offset `o` is the number of line feeds before it, and its column counts from
`t.lineStart o`. -/
theorem position_eq (t : Text) (o : Nat) :
    t.position o = ⟨(t.take o).countP CodePoint.isLineFeed, o - t.lineStart o⟩ := by
  have h := positionFrom_lineBreaksFrom 0 0 0 o t
  simpa [position, positionIn, lineStarts, lineStart] using h

/-- From `a` to `b` the column runs on evenly if there is no line feed between them. -/
theorem position_of_no_lineFeed {t : Text} {a b : Nat} (hab : a ≤ b)
    (h : ∀ c ∈ t.slice a b, ¬ c.isLineFeed) :
    t.position b = ⟨(t.position a).line, (t.position a).column + (b - a)⟩ := by
  have hcount : (t.slice a b).countP CodePoint.isLineFeed = 0 := List.countP_eq_zero.mpr h
  have hle := t.lineStart_le a
  rw [position_eq, position_eq, ← take_append_slice t hab, List.countP_append, hcount,
    lineStart_of_no_lineFeed hab h]
  congr 1
  simp only
  omega

/-- Between offsets `a` and `b` on one line there is no line feed. -/
theorem no_lineFeed_of_line_eq {t : Text} {a b : Nat} (hab : a ≤ b)
    (h : (t.position a).line = (t.position b).line) : ∀ c ∈ t.slice a b, ¬ c.isLineFeed := by
  rw [position_eq, position_eq, ← take_append_slice t hab, List.countP_append] at h
  apply List.countP_eq_zero.mp
  simpa using h

/-- On one line the columns of `a` and `b` are as far apart as the offsets. -/
theorem column_of_line_eq {t : Text} {a b : Nat} (hab : a ≤ b)
    (h : (t.position a).line = (t.position b).line) :
    (t.position b).column = (t.position a).column + (b - a) := by
  rw [position_of_no_lineFeed hab (no_lineFeed_of_line_eq hab h)]

/-- A text has one line more than line feeds. -/
theorem length_lineStarts (t : Text) :
    t.lineStarts.length = t.countP CodePoint.isLineFeed + 1 := by
  have h : ∀ offset, (t.lineBreaksFrom offset).length = t.countP CodePoint.isLineFeed := by
    induction t with
    | nil => intro offset; rfl
    | cons c rest ih =>
      intro offset
      rw [lineBreaksFrom, List.countP_cons]
      by_cases hc : c.isLineFeed <;> simp [hc, ih]
  rw [lineStarts, List.length_cons, h]

theorem length_lineStarts_eq_length_splitOn (t : Text) :
    t.lineStarts.length = (splitOn '\n' t).length := by
  rw [length_lineStarts, length_splitOn, List.count]
  congr 2

theorem line_lt_length_lineStarts (t : Text) (o : Nat) :
    (t.position o).line < t.lineStarts.length := by
  have h : (t.take o).countP CodePoint.isLineFeed ≤ t.countP CodePoint.isLineFeed :=
    (List.take_sublist o t).countP_le
  rw [position_eq, length_lineStarts]
  exact Nat.lt_succ_of_le h

end FlagFold.Text
