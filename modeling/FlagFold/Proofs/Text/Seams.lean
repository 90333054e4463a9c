/-
  FlagFold.Proofs.Text.Seams

  Characters of names in a text, and the places where it can be cut without one
  running together with what is put there.  At a seam one thing ends and nothing
  begins that an edit would replace.
-/

import FlagFold.Grammar.Cursor
import FlagFold.Proofs.Text.Blanks

namespace FlagFold

/-! ## Characters of names -/

/-- May a name go on with `c`? -/
def CodePoint.isInName (c : CodePoint) : Bool := Grammar.inName c.toChar

theorem CodePoint.isVisible_of_isInName {c : CodePoint} (h : c.isInName) : c.isVisible := by
  have hother : ∀ char, (ofChar char).isInName = false → c ≠ ofChar char := by
    rintro char hchar rfl
    rw [hchar] at h
    cases h
  have hspace := hother ' ' (by decide)
  have htab := hother '\t' (by decide)
  have hlines : StringLiteral.isLineTerminator c = false := by
    have hfeed := hother '\n' (by decide)
    have hreturn := hother '\r' (by decide)
    have hline := hother '\u2028' (by decide)
    have hparagraph := hother '\u2029' (by decide)
    have hvalue : ∀ char, c ≠ ofChar char → c.value ≠ (ofChar char).value := fun char hne heq =>
      hne (CodePoint.ext heq)
    simp only [StringLiteral.isLineTerminator, hfeed, hreturn, decide_false, Bool.false_or,
      Bool.or_eq_false_iff, decide_eq_false_iff_not]
    exact ⟨hvalue _ hline, hvalue _ hparagraph⟩
  simp [isVisible, isBlank, hspace, htab, hlines]

theorem CodePoint.not_isInName_of_isBlank {c : CodePoint} (h : c.isBlank) : ¬ c.isInName := by
  intro hname
  have hvisible := isVisible_of_isInName hname
  rw [isVisible, h] at hvisible
  cases hvisible

namespace Text

/-- Does `t` end with a character of a name? -/
def endsInName (t : Text) : Bool := t.getLast?.any CodePoint.isInName

/-- Does `t` start with a character of a name? -/
def startsInName (t : Text) : Bool := t.head?.any CodePoint.isInName

/-- Does a character of a name stand at the offset `o`? -/
def nameAt (t : Text) (o : Nat) : Bool := t[o]?.any CodePoint.isInName

/-- Does a character of a name stand right before the offset `o`? -/
def nameBefore (t : Text) (o : Nat) : Bool := o ≠ 0 && t.nameAt (o - 1)

variable {t u : Text}

theorem endsInName_append (hu : u ≠ []) : endsInName (t ++ u) = u.endsInName := by
  rw [endsInName, endsInName, List.getLast?_append_of_ne_nil t hu]

theorem startsInName_append (ht : t ≠ []) : startsInName (t ++ u) = t.startsInName := by
  rw [startsInName, startsInName, List.head?_append_of_ne_nil t ht]

theorem isVisibleAt_of_nameAt {o : Nat} (h : t.nameAt o) : t.isVisibleAt o := by
  rw [nameAt, Option.any_eq_true] at h
  rw [isVisibleAt, Option.any_eq_true]
  obtain ⟨c, hc, hname⟩ := h
  exact ⟨c, hc, CodePoint.isVisible_of_isInName hname⟩

/-- The stretch from `a` to `b` ends in a name if a character of one stands right before `b`. -/
theorem endsInName_slice {a b : Nat} (hab : a < b) (hb : b ≤ t.length) :
    (t.slice a b).endsInName = t.nameBefore b := by
  have hlength : (t.slice a b).length = b - a := by
    rw [length_slice]
    omega
  rw [endsInName, List.getLast?_eq_getElem?, hlength, getElem?_slice, if_pos (by omega),
    nameBefore, decide_eq_true (by omega : b ≠ 0), Bool.true_and, nameAt]
  congr 2
  omega

/-- The stretch from `a` on starts in a name if a character of one stands at `a`. -/
theorem startsInName_slice {a b : Nat} (hab : a < b) : (t.slice a b).startsInName = t.nameAt a := by
  rw [startsInName, nameAt, List.head?_eq_getElem?, getElem?_slice, if_pos (by omega),
    Nat.add_zero]

/-- A text `t` with which no name runs together, before it or behind it. -/
structure StandsApart (t : Text) : Prop where
  ne_nil : t ≠ []
  first : ¬ t.startsInName
  last : ¬ t.endsInName

theorem StandsApart.append (ht : t.StandsApart) (hu : u.StandsApart) :
    StandsApart (t ++ u) where
  ne_nil := by simp [ht.ne_nil]
  first := by
    rw [startsInName_append ht.ne_nil]
    exact ht.first
  last := by
    rw [endsInName_append hu.ne_nil]
    exact hu.last

theorem standsApart_of_isBlank (hne : t ≠ []) (h : ∀ c ∈ t, c.isBlank) : t.StandsApart where
  ne_nil := hne
  first := by
    rw [startsInName, List.head?_eq_some_head hne]
    exact CodePoint.not_isInName_of_isBlank (h _ (List.head_mem hne))
  last := by
    rw [endsInName, List.getLast?_eq_some_getLast hne]
    exact CodePoint.not_isInName_of_isBlank (h _ (List.getLast_mem hne))

/-- Blanks around a text that stands apart leave it so. -/
theorem StandsApart.between {before after : Text} (ht : t.StandsApart)
    (h : ∀ c ∈ before ++ after, c.isBlank) : StandsApart (before ++ t ++ after) := by
  rw [List.forall_mem_append] at h
  have hfront : StandsApart (before ++ t) := by
    by_cases hne : before = []
    · rwa [hne, List.nil_append]
    · exact (standsApart_of_isBlank hne h.1).append ht
  by_cases hne : after = []
  · rwa [hne, List.append_nil]
  · exact hfront.append (standsApart_of_isBlank hne h.2)

/-- Several texts that stand apart are one that does. -/
theorem standsApart_flatMap {α : Type} {f : α → Text} {as : List α} (hne : as ≠ [])
    (h : ∀ a ∈ as, (f a).StandsApart) : StandsApart (as.flatMap f) := by
  induction as with
  | nil => exact absurd rfl hne
  | cons a rest ih =>
    rw [List.forall_mem_cons] at h
    rw [List.flatMap_cons]
    by_cases hrest : rest = []
    · rw [hrest, List.flatMap_nil, List.append_nil]
      exact h.1
    · exact h.1.append (ih hrest h.2)

theorem standsApart_newline (t : Text) : t.newline.StandsApart := by
  have hlines : StandsApart (text "\r\n") ∧ StandsApart (text "\n") :=
    ⟨⟨by decide, by decide, by decide⟩, ⟨by decide, by decide, by decide⟩⟩
  rw [newline]
  split
  · exact hlines.1
  · exact hlines.2

theorem not_nameBefore_lineStart (t : Text) (o : Nat) : ¬ t.nameBefore (t.lineStart o) := by
  rw [nameBefore, Bool.and_eq_true, decide_eq_true_eq]
  rintro ⟨hpos, hname⟩
  have hcloses := closesAt_succ (isVisibleAt_of_nameAt hname)
  exact lineStart_ne_of_closesAt hcloses o (by omega)

/-! ## Seams -/

/-- A seam at the offset `o`: something ends there, and either nothing visible follows or `o` is
among the `ends` of what an edit may replace. -/
structure IsSeam (t : Text) (ends : Nat → Prop) (o : Nat) : Prop where
  before : t.closesAt o
  after : ends o ∨ ¬ t.isVisibleAt o

variable {ends : Nat → Prop}

theorem not_isSeam_lineStart (t : Text) (o : Nat) : ¬ t.IsSeam ends (t.lineStart o) :=
  fun h => lineStart_ne_of_closesAt h.before o rfl

theorem not_isSeam_of_isVisibleAt {o : Nat} (h : t.isVisibleAt o) (hends : ¬ ends o) :
    ¬ t.IsSeam ends o :=
  fun hseam => hseam.after.elim hends fun hblank => hblank h

theorem not_nameAt_of_isBlankBetween {a b o : Nat} (h : t.isBlankBetween a b) (ha : a ≤ o)
    (hb : o < b) : ¬ t.nameAt o :=
  fun hname => not_isVisibleAt_of_isBlankBetween h ha hb (isVisibleAt_of_nameAt hname)

/-- Where only blanks are left of a line, nothing visible stands. -/
theorem not_isVisibleAt_of_endsLineAt {o : Nat} (h : t.endsLineAt o) : ¬ t.isVisibleAt o :=
  fun hvisible => (not_endsLineAt (Nat.le_refl o) (t.isBlankBetween_self o) hvisible).2 h

end Text
end FlagFold
