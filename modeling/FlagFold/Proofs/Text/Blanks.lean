/-
  FlagFold.Proofs.Text.Blanks

  Blanks and visible characters at offsets of a text.
-/

import FlagFold.Proofs.Text.Lines
import FlagFold.Tree.StringLiteral
import Mathlib.Data.List.DropRight

namespace FlagFold

/-- Neither a blank nor one of the characters that end lines. -/
def CodePoint.isVisible (c : CodePoint) : Bool :=
  !c.isBlank && !StringLiteral.isLineTerminator c

theorem CodePoint.not_isLineTerminator_of_isBlank {c : CodePoint} (h : c.isBlank) :
    ¬ StringLiteral.isLineTerminator c := by
  rw [isBlank, Bool.or_eq_true, decide_eq_true_eq, decide_eq_true_eq] at h
  rcases h with rfl | rfl <;> decide

namespace Text

/-- Does a visible character stand at the offset `o`? -/
def isVisibleAt (t : Text) (o : Nat) : Bool := t[o]?.any CodePoint.isVisible

/-- Can something end at the offset `o`? A visible character is right before it, or a blank that is
the last character of its line, as where a comment that ends in blanks belongs to a statement. -/
def closesAt (t : Text) (o : Nat) : Bool :=
  0 < o && (t.isVisibleAt (o - 1) ||
    t[o - 1]?.any CodePoint.isBlank && t[o]?.all StringLiteral.isLineTerminator)

/-- Do `start` and `stop` enclose something that starts with a visible character and can end where
it does? -/
def encloses (t : Text) (start stop : Nat) : Bool :=
  start < stop && t.isVisibleAt start && t.closesAt stop

/-- Are there only blanks from `start` on and before `stop`? -/
def isBlankBetween (t : Text) (start stop : Nat) : Bool :=
  (t.slice start stop).all CodePoint.isBlank

/-- Are there only blanks from `offset` on to the end of the line? -/
def endsLineAt (t : Text) (offset : Nat) : Bool :=
  match (t.drop offset).dropWhile CodePoint.isBlank with
  | [] => true
  | c :: _ => c = '\n' || c = '\r'

variable {t : Text}

theorem lt_length_of_isVisibleAt {o : Nat} (h : t.isVisibleAt o) : o < t.length := by
  by_contra hle
  rw [isVisibleAt, List.getElem?_eq_none (by omega)] at h
  cases h

theorem encloses_iff {start stop : Nat} :
    t.encloses start stop ↔
      start < stop ∧ t.isVisibleAt start ∧ t.closesAt stop := by
  simp [encloses, and_assoc]

/-- A comment belongs to a statement without a semicolon, with the blanks at its end. -/
example : encloses (text "a() // c  \nb") 0 10 ∧ ¬ encloses (text "a()  b") 0 4 := by decide

/-! ## Stretches of blanks -/

theorem isBlankBetween_iff {a b : Nat} :
    t.isBlankBetween a b ↔ ∀ i, a ≤ i → i < b → ∀ c, t[i]? = some c → c.isBlank := by
  rw [isBlankBetween, List.all_eq_true]
  constructor
  · intro h i ha hb c hc
    refine h c (List.mem_of_getElem? (i := i - a) ?_)
    rw [getElem?_slice, if_pos (by omega), ← hc]
    congr 1
    omega
  · intro h c hc
    obtain ⟨i, hi⟩ := List.mem_iff_getElem?.mp hc
    rw [getElem?_slice] at hi
    split at hi
    · exact h (a + i) (by omega) (by omega) c hi
    · cases hi

/-- A visible character at `o` is not among the blanks from `a` to `b`. -/
theorem not_isVisibleAt_of_isBlankBetween {a b o : Nat} (h : t.isBlankBetween a b) (ha : a ≤ o)
    (hb : o < b) : ¬ t.isVisibleAt o := by
  rw [isVisibleAt]
  cases hc : t[o]? with
  | none => simp
  | some c => simp [CodePoint.isVisible, isBlankBetween_iff.mp h o ha hb c hc]

/-- A visible character before `b`, the end of a stretch of blanks, is before its start `a`. -/
theorem lt_of_isVisibleAt {a b o : Nat} (h : t.isBlankBetween a b) (ho : t.isVisibleAt o)
    (hb : o < b) : o < a := by
  by_contra hle
  exact not_isVisibleAt_of_isBlankBetween h (by omega) hb ho

theorem isBlankBetween_self (t : Text) (a : Nat) : t.isBlankBetween a a := by
  simp [isBlankBetween]

/-- A stretch of blanks from `a` to `b` holds no line feed, so that both are on one line. -/
theorem lineStart_of_isBlankBetween {a b : Nat} (hab : a ≤ b) (h : t.isBlankBetween a b) :
    t.lineStart b = t.lineStart a := by
  apply lineStart_of_no_lineFeed hab
  intro c hc hfeed
  have hblank := List.all_eq_true.mp h c hc
  rw [CodePoint.isLineFeed, decide_eq_true_eq] at hfeed
  rw [hfeed] at hblank
  exact absurd hblank (by decide)

/-! ## Where something can end -/

theorem pos_of_closesAt {o : Nat} (h : t.closesAt o) : 0 < o := by
  rw [closesAt, Bool.and_eq_true, decide_eq_true_eq] at h
  exact h.1

/-- Before an offset `o` at which something can end stands a visible character, or a blank that is
the last of its line. -/
theorem closesAt_cases {o : Nat} (h : t.closesAt o) :
    t.isVisibleAt (o - 1) ∨
      (∃ c, t[o - 1]? = some c ∧ c.isBlank) ∧
        ∀ c, t[o]? = some c → StringLiteral.isLineTerminator c := by
  rw [closesAt, Bool.and_eq_true, Bool.or_eq_true, Bool.and_eq_true, Option.any_eq_true,
    Option.all_eq_true] at h
  exact h.2

/-- Something can end behind a visible character. -/
theorem closesAt_succ {o : Nat} (h : t.isVisibleAt o) : t.closesAt (o + 1) := by
  rw [closesAt, Nat.add_sub_cancel, h]
  simp

/-- The character before an offset `o` at which something can end is in the text, and ends no
line. -/
theorem exists_of_closesAt {o : Nat} (h : t.closesAt o) :
    ∃ c, t[o - 1]? = some c ∧ ¬ StringLiteral.isLineTerminator c := by
  rcases closesAt_cases h with hvisible | ⟨⟨c, hc, hblank⟩, -⟩
  · rw [isVisibleAt, Option.any_eq_true] at hvisible
    obtain ⟨c, hc, hvisible⟩ := hvisible
    rw [CodePoint.isVisible, Bool.and_eq_true, Bool.not_eq_true', Bool.not_eq_true'] at hvisible
    exact ⟨c, hc, by simp [hvisible.2]⟩
  · exact ⟨c, hc, CodePoint.not_isLineTerminator_of_isBlank hblank⟩

theorem le_length_of_closesAt {o : Nat} (h : t.closesAt o) : o ≤ t.length := by
  obtain ⟨c, hc, -⟩ := exists_of_closesAt h
  obtain ⟨hlt, -⟩ := List.getElem?_eq_some_iff.mp hc
  omega

/-- The blanks from `a` to something visible at `b` do not reach back over an offset `o` at which
something can end. -/
theorem le_of_closesAt {a b o : Nat} (h : t.isBlankBetween a b) (hvisible : t.isVisibleAt b)
    (ho : t.closesAt o) (hb : o ≤ b) : o ≤ a := by
  have hpos := pos_of_closesAt ho
  rcases closesAt_cases ho with hlast | ⟨-, hends⟩
  · have := lt_of_isVisibleAt h hlast (by omega)
    omega
  · -- What comes behind the offset is neither visible nor a blank.
    by_contra hlt
    have hends' : ∀ c, t[o]? = some c → ¬ c.isVisible ∧ ¬ c.isBlank := by
      intro c hc
      have hend := hends c hc
      refine ⟨by simp [CodePoint.isVisible, hend], fun hblank => ?_⟩
      exact CodePoint.not_isLineTerminator_of_isBlank hblank hend
    rw [isVisibleAt, Option.any_eq_true] at hvisible
    obtain ⟨c, hc, hvisible⟩ := hvisible
    rcases Nat.lt_or_eq_of_le hb with hb | rfl
    · obtain ⟨hlength, -⟩ := List.getElem?_eq_some_iff.mp hc
      have hchar := List.getElem?_eq_getElem (l := t) (i := o) (by omega)
      exact (hends' _ hchar).2 (isBlankBetween_iff.mp h o (by omega) hb _ hchar)
    · exact (hends' c hc).1 hvisible

/-- Nothing can end at the start of a line. -/
theorem lineStart_ne_of_closesAt {p : Nat} (h : t.closesAt p) (o : Nat) : t.lineStart o ≠ p := by
  rintro rfl
  have hpos := pos_of_closesAt h
  rcases t.lineStart_spec o with ⟨hstart, -⟩ | ⟨i, -, hstart, hfeed, -⟩
  · omega
  · obtain ⟨c, hc, hends⟩ := exists_of_closesAt h
    rw [hstart, Nat.add_sub_cancel] at hc
    rw [hc, Option.any_some, CodePoint.isLineFeed, decide_eq_true_eq] at hfeed
    rw [hfeed] at hends
    exact hends (by decide)

/-- The line on which something ends at `o` starts before `o`. -/
theorem lineStart_lt_of_closesAt {o : Nat} (h : t.closesAt o) : t.lineStart o < o :=
  Nat.lt_of_le_of_ne (t.lineStart_le o) (lineStart_ne_of_closesAt h o)

/-! ## The blanks behind an offset -/

/-- The offset behind the blanks that stand from `offset` on. -/
def blanksEnd (t : Text) (offset : Nat) : Nat :=
  offset + ((t.drop offset).takeWhile CodePoint.isBlank).length

theorem le_blanksEnd (t : Text) (offset : Nat) : offset ≤ t.blanksEnd offset := Nat.le_add_right _ _

theorem blanksEnd_le_length {offset : Nat} (h : offset ≤ t.length) :
    t.blanksEnd offset ≤ t.length := by
  have hle : ((t.drop offset).takeWhile CodePoint.isBlank).length ≤ (t.drop offset).length :=
    (List.takeWhile_prefix _).length_le
  rw [List.length_drop] at hle
  rw [blanksEnd]
  omega

theorem drop_blanksEnd (t : Text) (offset : Nat) :
    t.drop (t.blanksEnd offset) = (t.drop offset).dropWhile CodePoint.isBlank := by
  have h := List.takeWhile_append_dropWhile (p := CodePoint.isBlank) (l := t.drop offset)
  rw [blanksEnd, ← List.drop_drop]
  exact (congrArg (List.drop _) h).symm.trans List.drop_left

theorem slice_blanksEnd (t : Text) (offset : Nat) :
    t.slice offset (t.blanksEnd offset) = (t.drop offset).takeWhile CodePoint.isBlank := by
  have h := List.takeWhile_append_dropWhile (p := CodePoint.isBlank) (l := t.drop offset)
  rw [slice, blanksEnd, Nat.add_sub_cancel_left]
  exact (congrArg (List.take _) h).symm.trans List.take_left

theorem isBlankBetween_blanksEnd (t : Text) (offset : Nat) :
    t.isBlankBetween offset (t.blanksEnd offset) := by
  rw [isBlankBetween, slice_blanksEnd]
  exact List.all_takeWhile

/-- `blanksEnd` goes as far as there are only blanks. -/
theorem le_blanksEnd_of_isBlankBetween {a b : Nat} (hb : b ≤ t.length)
    (h : t.isBlankBetween a b) : b ≤ t.blanksEnd a := by
  by_contra hlt
  -- The character at the end of the stretch is no blank.
  have hle := t.le_blanksEnd a
  have hend : t.blanksEnd a < t.length := by omega
  have hdrop := t.drop_blanksEnd a
  rw [List.drop_eq_getElem_cons hend] at hdrop
  have hblank := isBlankBetween_iff.mp h (t.blanksEnd a) hle (by omega) _
    (List.getElem?_eq_getElem hend)
  have hhead := List.head?_dropWhile_not (p := CodePoint.isBlank) (t.drop a)
  rw [← hdrop, List.head?_cons] at hhead
  exact Bool.false_ne_true (hhead.symm.trans hblank)

theorem endsLineAt_eq (t : Text) (offset : Nat) :
    t.endsLineAt offset = match t.drop (t.blanksEnd offset) with
      | [] => true
      | c :: _ => c = '\n' || c = '\r' := by
  rw [endsLineAt, drop_blanksEnd]

/-- Where something visible at `b` comes behind `a` with only blanks between, the line goes on at
`a`. -/
theorem not_endsLineAt {a b : Nat} (hab : a ≤ b) (hblank : t.isBlankBetween a b)
    (hb : t.isVisibleAt b) : t.blanksEnd a = b ∧ ¬ t.endsLineAt a := by
  have hlength := lt_length_of_isVisibleAt hb
  have hend : t.blanksEnd a = b := by
    have hle := le_blanksEnd_of_isBlankBetween (by omega) hblank
    by_contra hne
    exact not_isVisibleAt_of_isBlankBetween (t.isBlankBetween_blanksEnd a) hab (by omega) hb
  refine ⟨hend, ?_⟩
  -- What stands behind the blanks is visible, and so ends no line.
  rw [endsLineAt_eq, hend, List.drop_eq_getElem_cons hlength]
  rw [isVisibleAt, List.getElem?_eq_getElem hlength, Option.any_some] at hb
  simp only [CodePoint.isVisible, StringLiteral.isLineTerminator, Bool.and_eq_true,
    Bool.not_eq_true', Bool.or_eq_false_iff, decide_eq_false_iff_not] at hb
  simpa using ⟨hb.2.1.1.1, hb.2.1.1.2⟩

/-! ## The blanks before an offset -/

/-- The offset before the blanks that stand before `offset`, none of them before `first`. -/
def blanksStart (t : Text) (first offset : Nat) : Nat :=
  offset - ((t.slice first offset).reverse.takeWhile CodePoint.isBlank).length

theorem blanksStart_eq (t : Text) (first offset : Nat) :
    t.blanksStart first offset =
      offset - ((t.slice first offset).rtakeWhile CodePoint.isBlank).length := by
  rw [blanksStart, List.rtakeWhile, List.length_reverse]

theorem blanksStart_le (t : Text) (first offset : Nat) : t.blanksStart first offset ≤ offset :=
  Nat.sub_le _ _

theorem le_blanksStart {first offset : Nat} (h : first ≤ offset) :
    first ≤ t.blanksStart first offset := by
  have hle := (List.rtakeWhile_suffix CodePoint.isBlank (t.slice first offset)).length_le
  rw [length_slice] at hle
  rw [blanksStart_eq]
  omega

theorem isBlankBetween_blanksStart {first offset : Nat} (h : first ≤ offset)
    (hlength : offset ≤ t.length) : t.isBlankBetween (t.blanksStart first offset) offset := by
  have hslice : t.slice (t.blanksStart first offset) offset =
      (t.slice first offset).rtakeWhile CodePoint.isBlank := by
    have hcut := slice_append_slice t (le_blanksStart h) (t.blanksStart_le first offset)
    have hsplit := List.rdropWhile_append_rtakeWhile (p := CodePoint.isBlank)
      (l := t.slice first offset)
    -- Both parts before the blanks are equally long.
    refine (List.append_inj (hcut.trans hsplit.symm) ?_).2
    have hlengths := congrArg List.length hsplit
    rw [List.length_append, length_slice] at hlengths
    rw [length_slice, blanksStart_eq]
    omega
  rw [isBlankBetween, hslice, List.all_eq_true]
  exact fun c hc => List.mem_rtakeWhile_imp hc

/-- Where a blank stands right before `offset`, `blanksStart` reaches back. -/
theorem blanksStart_lt {first offset : Nat} (h : first < offset) (hlength : offset ≤ t.length)
    (hblank : t.isBlankBetween (offset - 1) offset) : t.blanksStart first offset < offset := by
  have hcut := slice_append_slice t (by omega : first ≤ offset - 1) (Nat.sub_le offset 1)
  -- The blank is the last character of the stretch that is looked through.
  have hlast : t.slice (offset - 1) offset = [t[offset - 1]] := by
    rw [slice, List.drop_eq_getElem_cons (by omega), Nat.sub_sub_self (by omega)]
    rfl
  have hc : t[offset - 1].isBlank := by
    rw [isBlankBetween, hlast] at hblank
    simpa using hblank
  rw [blanksStart_eq, ← hcut, hlast, List.rtakeWhile_concat_pos _ _ _ hc, List.length_append,
    List.length_singleton]
  omega

end Text
end FlagFold
