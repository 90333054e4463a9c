/-
  FlagFold.Proofs.Print.Removal

  What a cut for a statement covers besides the statement: blanks before it, and
  after it blanks with at most one end of a line behind them.  Two cuts take the
  same blanks if there are only blanks between their statements and nothing more
  behind the second one on its line, and in no other case.
-/

import FlagFold.Print.Edit
import FlagFold.Proofs.Text.Blanks

namespace FlagFold

/-- What `cut` may take along, made for the statement from `start` to `stop`. -/
structure Removal.Covers (source : Text) (start stop : Nat) (cut : Removal) : Prop where
  start_le : cut.start ≤ start
  le_stop : stop ≤ cut.stop
  stop_le : cut.stop ≤ source.length
  /-- Before `start` there are only blanks. -/
  before : source.isBlankBetween cut.start start
  /-- Behind `stop` nothing is visible. -/
  after : ∀ i, stop ≤ i → i < cut.stop → ¬ source.isVisibleAt i
  /-- A line feed comes last, if at all. -/
  lineFeed : ∀ i, stop ≤ i → i + 1 < cut.stop → source[i]? ≠ some (CodePoint.ofChar '\n')
  /-- What is no blank behind `stop` is the end of a line. -/
  ending : source.isBlankBetween stop cut.stop ∨
    stop < cut.stop ∧ source[cut.stop - 1]? = some (CodePoint.ofChar '\n')
  /-- Blanks before `start` go along if nothing else is on its line before it or behind `stop`. -/
  reason : cut.start < start →
    source.isBlankBetween (source.lineStart start) start ∨ source.endsLineAt stop
  /-- If something is on the line before `start` and nothing behind `stop`, the blank before `start`
  goes along. -/
  back : source.endsLineAt stop → ¬ source.isBlankBetween (source.lineStart start) start →
    source.isBlankBetween (start - 1) start → cut.start < start
  /-- If something comes behind `stop` on its line, the blanks up to it go along. -/
  forth : ¬ source.endsLineAt stop → source.blanksEnd stop ≤ cut.stop

namespace Text

variable {source : Text}

/-- A cut from `from'` up to the blanks behind `stop` `Covers` the statement. -/
theorem covers_of_blanks {start stop from' : Nat} (wholeLine : Bool) (hstart : from' ≤ start)
    (hstop : stop ≤ source.length) (hbefore : source.isBlankBetween from' start)
    (hreason : from' < start →
      source.isBlankBetween (source.lineStart start) start ∨ source.endsLineAt stop)
    (hback : source.endsLineAt stop →
      ¬ source.isBlankBetween (source.lineStart start) start →
      source.isBlankBetween (start - 1) start → from' < start) :
    Removal.Covers source start stop ⟨from', source.blanksEnd stop, wholeLine⟩ where
  start_le := hstart
  le_stop := source.le_blanksEnd stop
  stop_le := blanksEnd_le_length hstop
  before := hbefore
  after i hi hlt := not_isVisibleAt_of_isBlankBetween (source.isBlankBetween_blanksEnd stop) hi hlt
  lineFeed i hi hlt hfeed := by
    have h := isBlankBetween_iff.mp (source.isBlankBetween_blanksEnd stop) i hi
      (Nat.lt_of_succ_lt hlt) _ hfeed
    exact absurd h (by decide)
  ending := .inl (source.isBlankBetween_blanksEnd stop)
  reason := hreason
  back := hback
  forth _ := Nat.le_refl _

/-- A cut of the whole line with the `size` characters of its terminator `Covers` the statement. -/
theorem covers_of_line {start stop size : Nat} (hsize : 0 < size)
    (hend : source.blanksEnd stop + size ≤ source.length)
    (hblank : source.isBlankBetween (source.lineStart start) start)
    (hchars : ∀ i < size, ¬ source.isVisibleAt (source.blanksEnd stop + i))
    (hfeed : ∀ i, i + 1 < size → source[source.blanksEnd stop + i]? ≠ some (CodePoint.ofChar '\n'))
    (hlast : source[source.blanksEnd stop + size - 1]? = some (CodePoint.ofChar '\n'))
    (hline : source.endsLineAt stop) :
    Removal.Covers source start stop
      ⟨source.lineStart start, source.blanksEnd stop + size, true⟩ where
  start_le := source.lineStart_le start
  le_stop := Nat.le_trans (source.le_blanksEnd stop) (Nat.le_add_right _ _)
  stop_le := hend
  before := hblank
  after i hi hlt := by
    by_cases hblanks : i < source.blanksEnd stop
    · exact not_isVisibleAt_of_isBlankBetween (source.isBlankBetween_blanksEnd stop) hi hblanks
    · have h := hchars (i - source.blanksEnd stop) (by simp only at hlt; omega)
      rwa [Nat.add_sub_cancel' (by omega)] at h
  lineFeed i hi hlt hfeed' := by
    by_cases hblanks : i < source.blanksEnd stop
    · have h := isBlankBetween_iff.mp (source.isBlankBetween_blanksEnd stop) i hi hblanks _ hfeed'
      exact absurd h (by decide)
    · apply hfeed (i - source.blanksEnd stop) (by simp only at hlt; omega)
      rwa [Nat.add_sub_cancel' (by omega)]
  ending := by
    have := source.le_blanksEnd stop
    exact .inr ⟨by simp only; omega, hlast⟩
  reason _ := .inl hblank
  back _ h := absurd hblank h
  forth h := absurd hline h

/-- `Text.removal` case by case: a whole line at the end of the source, with `\r\n` or with `\n`;
the last statement of a line; and any other. -/
theorem removal_eq (source : Text) (start stop : Nat) :
    source.removal start stop =
      if source.blanksEnd stop > source.length then .error .pastEnd
      else if source.isBlankBetween (source.lineStart start) start then
        if (source.drop (source.blanksEnd stop)).isEmpty then
          .ok ⟨source.lineStart start, source.blanksEnd stop, true⟩
        else if (text "\r\n").isPrefixOf (source.drop (source.blanksEnd stop)) then
          .ok ⟨source.lineStart start, source.blanksEnd stop + 2, true⟩
        else if (text "\n").isPrefixOf (source.drop (source.blanksEnd stop)) then
          .ok ⟨source.lineStart start, source.blanksEnd stop + 1, true⟩
        else .ok ⟨start, source.blanksEnd stop, false⟩
      else if source.endsLineAt stop then
        if start > source.length then .error .pastEnd
        else .ok ⟨source.blanksStart (source.lineStart start) start, stop, false⟩
      else .ok ⟨start, source.blanksEnd stop, false⟩ := by
  rw [endsLineAt_eq]
  rfl

/-- If `terminator` comes behind the blanks after `stop`, its characters are those of the source
there. -/
theorem getElem?_of_isPrefixOf {terminator : Text} {stop i : Nat} (hi : i < terminator.length)
    (h : terminator.isPrefixOf (source.drop (source.blanksEnd stop))) :
    source[source.blanksEnd stop + i]? = terminator[i]? := by
  obtain ⟨rest, hrest⟩ := List.isPrefixOf_iff_prefix.mp h
  rw [← List.getElem?_drop, ← hrest, List.getElem?_append_left hi]

theorem le_length_of_isPrefixOf {terminator : Text} {stop : Nat} (hstop : stop ≤ source.length)
    (h : terminator.isPrefixOf (source.drop (source.blanksEnd stop))) :
    source.blanksEnd stop + terminator.length ≤ source.length := by
  have hle := (List.isPrefixOf_iff_prefix.mp h).length_le
  have := blanksEnd_le_length hstop
  rw [List.length_drop] at hle
  omega

/-- The cut of a whole line that ends with `\r\n` `Covers` its statement. -/
theorem covers_of_crlf {start stop : Nat} (hstop : stop ≤ source.length)
    (hblank : source.isBlankBetween (source.lineStart start) start)
    (h : (text "\r\n").isPrefixOf (source.drop (source.blanksEnd stop))) :
    Removal.Covers source start stop
      ⟨source.lineStart start, source.blanksEnd stop + 2, true⟩ := by
  have hreturn := getElem?_of_isPrefixOf (i := 0) (by decide) h
  have hfeed := getElem?_of_isPrefixOf (i := 1) (by decide) h
  refine covers_of_line (by decide) (le_length_of_isPrefixOf hstop h) hblank ?_ ?_ hfeed ?_
  · -- Neither of the two characters is visible.
    intro i hi
    obtain rfl | rfl : i = 0 ∨ i = 1 := by omega
    · rw [isVisibleAt, hreturn]
      decide
    · rw [isVisibleAt, hfeed]
      decide
  · intro i hi
    obtain rfl : i = 0 := by omega
    rw [hreturn]
    decide
  · obtain ⟨rest, hrest⟩ := List.isPrefixOf_iff_prefix.mp h
    rw [endsLineAt_eq, ← hrest]
    rfl

/-- The cut of a whole line that ends with `\n` `Covers` its statement. -/
theorem covers_of_lineFeed {start stop : Nat} (hstop : stop ≤ source.length)
    (hblank : source.isBlankBetween (source.lineStart start) start)
    (h : (text "\n").isPrefixOf (source.drop (source.blanksEnd stop))) :
    Removal.Covers source start stop
      ⟨source.lineStart start, source.blanksEnd stop + 1, true⟩ := by
  have hfeed := getElem?_of_isPrefixOf (i := 0) (by decide) h
  refine covers_of_line (by decide) (le_length_of_isPrefixOf hstop h) hblank ?_ ?_ hfeed ?_
  · intro i hi
    obtain rfl : i = 0 := by omega
    rw [isVisibleAt, hfeed]
    decide
  · -- Before the one character of the terminator there is none.
    intro i hi
    omega
  · obtain ⟨rest, hrest⟩ := List.isPrefixOf_iff_prefix.mp h
    rw [endsLineAt_eq, ← hrest]
    rfl

/-- The cut of the last statement of a line on which it is not the first thing `Covers` it. -/
theorem covers_of_endsLineAt {start stop : Nat} (hlt : start < stop) (hstop : stop ≤ source.length)
    (hbefore : ¬ source.isBlankBetween (source.lineStart start) start)
    (hline : source.endsLineAt stop) :
    Removal.Covers source start stop
      ⟨source.blanksStart (source.lineStart start) start, stop, false⟩ where
  start_le := source.blanksStart_le _ _
  le_stop := Nat.le_refl _
  stop_le := hstop
  before := isBlankBetween_blanksStart (source.lineStart_le start) (by omega)
  after i hi hlt := absurd hlt (by simp only; omega)
  lineFeed i hi hlt := absurd hlt (by simp only; omega)
  ending := .inl (isBlankBetween_self _ _)
  reason _ := .inr hline
  back _ _ hblank := by
    apply blanksStart_lt _ (by omega) hblank
    have hfirst := source.lineStart_le start
    by_contra hge
    -- At the start of a line there is nothing before the statement.
    have heq : source.lineStart start = start := by omega
    rw [heq] at hbefore
    exact hbefore (isBlankBetween_self _ _)
  forth h := absurd hline h

/-- For every statement that lies in `source`, `Text.removal` finds a cut that `Covers` it. -/
theorem removal_covers {start stop : Nat} (hlt : start < stop) (hstop : stop ≤ source.length) :
    ∃ cut, source.removal start stop = .ok cut ∧ cut.Covers source start stop := by
  have hend := blanksEnd_le_length hstop
  have hfirst := source.lineStart_le start
  -- A cut that leaves what stands before the statement has no need of a reason.
  have hnone : ¬ start < start := Nat.lt_irrefl start
  rw [removal_eq, if_neg (by omega)]
  by_cases hbefore : source.isBlankBetween (source.lineStart start) start
  · rw [if_pos hbefore]
    split
    case isTrue hempty =>
      exact ⟨_, rfl, covers_of_blanks true hfirst hstop hbefore (fun _ => .inl hbefore)
        fun _ h => absurd hbefore h⟩
    case isFalse hempty =>
    split
    case isTrue hcrlf => exact ⟨_, rfl, covers_of_crlf hstop hbefore hcrlf⟩
    case isFalse hcrlf =>
    split
    case isTrue hfeed => exact ⟨_, rfl, covers_of_lineFeed hstop hbefore hfeed⟩
    case isFalse hfeed =>
      exact ⟨_, rfl, covers_of_blanks false (Nat.le_refl _) hstop (isBlankBetween_self _ _)
        (fun h => absurd h hnone) fun _ h => absurd hbefore h⟩
  · rw [if_neg hbefore]
    by_cases hline : source.endsLineAt stop
    · rw [if_pos hline, if_neg (by omega)]
      exact ⟨_, rfl, covers_of_endsLineAt hlt hstop hbefore hline⟩
    · rw [if_neg hline]
      exact ⟨_, rfl, covers_of_blanks false (Nat.le_refl _) hstop (isBlankBetween_self _ _)
        (fun h => absurd h hnone) fun h => absurd h hline⟩

/-- For every span that `source.encloses`, `Text.removal` finds a cut that `Covers` it. -/
theorem removal_of_encloses {start stop : Nat} (h : source.encloses start stop) :
    ∃ cut, source.removal start stop = .ok cut ∧ cut.Covers source start stop := by
  obtain ⟨hlt, -, hcloses⟩ := encloses_iff.mp h
  exact removal_covers hlt (le_length_of_closesAt hcloses)

/-- The cuts for two statements, one that ends at `stop` and one from `start'` to `stop'`, take the
same blanks: only blanks stand between the two, at least one, and nothing more behind the second on
its line. -/
def sharesBlanks (source : Text) (stop start' stop' : Nat) : Bool :=
  stop < start' && source.isBlankBetween stop start' && source.endsLineAt stop'

end Text

namespace Removal.Covers

variable {source : Text} {start stop : Nat} {cut : Removal}

/-- `cut` stops at or before anything visible behind its statement. -/
theorem stop_le_of_isVisibleAt (h : cut.Covers source start stop) {o : Nat} (ho : stop ≤ o)
    (hvisible : source.isVisibleAt o) : cut.stop ≤ o := by
  by_contra hlt
  exact h.after o ho (by omega) hvisible

/-- If only blanks come before a visible `o` on its line, `cut` stops at or before the start of that
line. -/
theorem stop_le_lineStart (h : cut.Covers source start stop) (hcloses : source.closesAt stop)
    {o : Nat} (ho : stop ≤ o) (hvisible : source.isVisibleAt o)
    (hblank : source.isBlankBetween (source.lineStart o) o) : cut.stop ≤ source.lineStart o := by
  have hend := h.stop_le_of_isVisibleAt ho hvisible
  have hpos := Text.pos_of_closesAt hcloses
  have hbefore := Text.le_of_closesAt hblank hvisible hcloses ho
  have hline := Text.lineStart_ne_of_closesAt hcloses o
  rcases source.lineStart_spec o with ⟨hzero, -⟩ | ⟨i, hi, hstart, hfeed, -⟩
  · omega
  · have hc : source[i]? = some (CodePoint.ofChar '\n') := by
      cases hc : source[i]? with
      | none => simp [hc] at hfeed
      | some c =>
        rw [hc, Option.any_some, CodePoint.isLineFeed, decide_eq_true_eq] at hfeed
        rw [hfeed]
    by_contra hlt
    -- The line feed before the line would not be the last that is cut.
    exact h.lineFeed i (by omega) (by omega) hc

/-- `cut` stops at or before the start of `cut'`, for a later statement, just if the two share no
blanks. -/
theorem stop_le_start_iff {start' stop' : Nat} {cut' : Removal}
    (h : cut.Covers source start stop) (h' : cut'.Covers source start' stop')
    (hcloses : source.closesAt stop) (hfirst : source.isVisibleAt start') (hle : stop ≤ start') :
    cut.stop ≤ cut'.start ↔ ¬ source.sharesBlanks stop start' stop' := by
  have hend := h.stop_le_of_isVisibleAt hle hfirst
  have hstart := Text.le_of_closesAt h'.before hfirst hcloses hle
  simp only [Text.sharesBlanks, Bool.and_eq_true, decide_eq_true_eq]
  -- The line of the second statement holds the end of the first if there are only blanks between.
  have hline : source.isBlankBetween stop start' →
      ¬ source.isBlankBetween (source.lineStart start') start' := by
    intro hblank hline
    rw [Text.lineStart_of_isBlankBetween hle hblank] at hline
    have := Text.lineStart_lt_of_closesAt hcloses
    have := Text.le_of_closesAt hline hfirst hcloses hle
    omega
  constructor
  · rintro happart ⟨⟨hlt, hblank⟩, hends⟩
    -- The blanks before the second cut go along with it, and with the first one too.
    have hback : cut'.start < start' := by
      refine h'.back hends (hline hblank) (Text.isBlankBetween_iff.mpr fun i hi hi' => ?_)
      exact Text.isBlankBetween_iff.mp hblank i (by omega) hi'
    obtain ⟨hblanks, hgoes⟩ := Text.not_endsLineAt hle hblank hfirst
    have := h.forth hgoes
    omega
  · intro hshares
    by_contra hoverlap
    apply hshares
    -- The last character of the first cut is a blank before the second statement.
    have hlastBlank : ∀ c, source[cut.stop - 1]? = some c → c.isBlank :=
      Text.isBlankBetween_iff.mp h'.before (cut.stop - 1) (by omega) (by omega)
    have hafter : source.isBlankBetween stop cut.stop := by
      rcases h.ending with hblank | ⟨-, hfeed⟩
      · exact hblank
      · exact absurd (hlastBlank _ hfeed) (by decide)
    have hblank : source.isBlankBetween stop start' := by
      apply Text.isBlankBetween_iff.mpr
      intro i hi hi'
      by_cases hcut : i < cut.stop
      · exact Text.isBlankBetween_iff.mp hafter i hi hcut
      · exact Text.isBlankBetween_iff.mp h'.before i (by omega) hi'
    refine ⟨⟨by omega, hblank⟩, ?_⟩
    rcases h'.reason (by omega) with hstarts | hends
    · exact absurd hstarts (hline hblank)
    · exact hends

end Removal.Covers
end FlagFold
