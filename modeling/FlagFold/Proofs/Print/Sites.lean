/-
  FlagFold.Proofs.Print.Sites

  Edits and the stretches of the source for which they are made.  The sites of a
  tree come one after the other, and from that its edits are apart, except that the
  cuts for two statements may take the same blanks.
-/

import FlagFold.Proofs.Print.Removal
import FlagFold.Proofs.Print.Splice

namespace FlagFold

/-! ## One site -/

/-- How an edit lies on its site. -/
inductive SiteKind where
  /-- It covers just the site. -/
  | exact
  /-- It stands at the start of the line on which the site is the first thing. -/
  | line
  /-- It stands somewhere in the site behind its first character. -/
  | within
  /-- It cuts the site out. -/
  | cut
  deriving DecidableEq

/-- An `edit` with the stretch of the source for which it is made. -/
structure Site where
  edit : Edit
  kind : SiteKind
  start : Nat
  stop : Nat

namespace Site

/-- `s.edit` lies on the site as `s.kind` says. -/
def Fits (source : Text) (s : Site) : Prop :=
  match s.kind with
  | .exact => s.edit.start = s.start ∧ s.edit.stop = s.stop
  | .line =>
    s.stop = s.start ∧ source.isBlankBetween (source.lineStart s.start) s.start ∧
      s.edit.start = source.lineStart s.start ∧ s.edit.stop = source.lineStart s.start
  | .within => s.start < s.edit.start ∧ s.edit.start < s.stop ∧ s.edit.stop = s.edit.start
  | .cut =>
    s.start < s.stop ∧
      ∃ cut : Removal, cut.Covers source s.start s.stop ∧
        s.edit.start = cut.start ∧ s.edit.stop = cut.stop

/-- `s` starts with something visible and stops where something can end, and its edit `Fits`. -/
structure Sound (source : Text) (s : Site) : Prop where
  span : s.start ≤ s.stop
  first : source.isVisibleAt s.start
  last : s.start < s.stop → source.closesAt s.stop
  fits : s.Fits source

/-- `s` stops before `t` starts; where both start at one offset, the kind of `t` is `exact`. -/
def Before (s t : Site) : Prop :=
  s.stop ≤ t.start ∧ (s.start < t.start ∨ t.kind = .exact)

/-- One of `s` and `t` comes `Before` the other. -/
def Ordered (s t : Site) : Prop := Before s t ∨ Before t s

theorem Ordered.symm {s t : Site} (h : Ordered s t) : Ordered t s := Or.symm h

variable {source : Text} {s t : Site}

/-- The edit of a sound site starts before it stops, and stops within `source`. -/
theorem Sound.edit_span (h : s.Sound source) :
    s.edit.start ≤ s.edit.stop ∧ s.edit.stop ≤ source.length := by
  have hfirst := Text.lt_length_of_isVisibleAt h.first
  have hspan := h.span
  -- The site ends in the source; an empty site stands before a character that does.
  have hstop : s.stop ≤ source.length := by
    rcases Nat.lt_or_ge s.start s.stop with hlt | hge
    · exact Text.le_length_of_closesAt (h.last hlt)
    · omega
  have hfits := h.fits
  cases hkind : s.kind <;> simp only [Fits, hkind] at hfits
  case exact | within => omega
  case line =>
    have := source.lineStart_le s.start
    omega
  case cut =>
    obtain ⟨hlt, cut, hcovers, hstart, hstop⟩ := hfits
    have := hcovers.start_le
    have := hcovers.le_stop
    have := hcovers.stop_le
    omega

/-- What ends at or before the start of a sound site `t` ends at or before `t.edit`. -/
theorem Sound.le_edit_start (h : t.Sound source) {o : Nat} (hcloses : source.closesAt o)
    (ho : o ≤ t.start) : o ≤ t.edit.start := by
  have hfits := h.fits
  cases hkind : t.kind <;> simp only [Fits, hkind] at hfits
  case exact | within => omega
  case line =>
    rw [hfits.2.2.1]
    exact Text.le_of_closesAt hfits.2.1 h.first hcloses ho
  case cut =>
    obtain ⟨-, cut, hcovers, hstart, -⟩ := hfits
    rw [hstart]
    exact Text.le_of_closesAt hcovers.before h.first hcloses ho

/-- If `s` comes `Before` `t` and is no cut, `s.edit` stops at or before the start of `t.edit`. -/
theorem edit_stop_le_of_before (hs : s.Sound source) (ht : t.Sound source) (h : Before s t)
    (hcut : s.kind ≠ .cut) : s.edit.stop ≤ t.edit.start := by
  have hspan := hs.span
  have hstop : s.edit.stop ≤ s.stop := by
    have hfits := hs.fits
    have := source.lineStart_le s.start
    cases hkind : s.kind <;> simp only [Fits, hkind] at hfits
    case exact | line | within => omega
    case cut => exact absurd hkind hcut
  obtain ⟨hle, hlt⟩ := h
  -- What ends with the first site, or else with its first character, ends before the second edit.
  rcases Nat.lt_or_ge s.start s.stop with hopen | hclosed
  · have := ht.le_edit_start (hs.last hopen) hle
    omega
  · rcases hlt with hlt | hexact
    · have := ht.le_edit_start (Text.closesAt_succ hs.first) hlt
      omega
    · have hfits := ht.fits
      rw [Fits, hexact] at hfits
      simp only at hfits
      omega

/-- A `cut` stops at or before the start of the edit of a later site `t` that is no cut. -/
theorem cut_stop_le_of_before {start stop : Nat} {cut : Removal}
    (h : cut.Covers source start stop) (hcloses : source.closesAt stop) (ht : t.Sound source)
    (hle : stop ≤ t.start) (hcut : t.kind ≠ .cut) : cut.stop ≤ t.edit.start := by
  -- It ends before the visible character with which the other site starts.
  have hend := h.stop_le_of_isVisibleAt hle ht.first
  have hfits := ht.fits
  cases hkind : t.kind <;> simp only [Fits, hkind] at hfits
  case exact | within => omega
  case line => exact hfits.2.2.1 ▸ h.stop_le_lineStart hcloses hle ht.first hfits.2.1
  case cut => exact absurd hkind hcut

/-- If `s` comes `Before` `t`, their edits are `Apart` unless both are cuts that share blanks. -/
theorem apart_iff_of_before (hs : s.Sound source) (ht : t.Sound source) (h : Before s t) :
    s.edit.Apart t.edit ↔
      ¬ (s.kind = .cut ∧ t.kind = .cut ∧ source.sharesBlanks s.stop t.start t.stop) := by
  by_cases hcut : s.kind = .cut
  · have hfits := hs.fits
    rw [Fits, hcut] at hfits
    obtain ⟨hlt, cut, hcovers, hstart, hstop⟩ := hfits
    have hcloses := hs.last hlt
    by_cases hcut' : t.kind = .cut
    · have htfits := ht.fits
      rw [Fits, hcut'] at htfits
      obtain ⟨hlt', cut', hcovers', hstart', hstop'⟩ := htfits
      have := hcovers.start_le
      have := hcovers'.le_stop
      rw [hcut, hcut']
      simp only [true_and]
      rw [← hcovers.stop_le_start_iff hcovers' hcloses ht.first h.1, Edit.Apart]
      have := h.1
      omega
    · have hend := cut_stop_le_of_before hcovers hcloses ht h.1 hcut'
      exact iff_of_true (.inl (by omega)) fun hcuts => hcut' hcuts.2.1
  · exact iff_of_true (.inl (edit_stop_le_of_before hs ht h hcut)) fun hcuts => hcut hcuts.1

end Site
end FlagFold
