/-
  FlagFold.Proofs.Print.Order

  The order in which edits are carried out.  Sorting keeps edits with one span in
  the order in which they are listed, and nothing else of the list matters: lists
  that have the same edits with each span, in the same order, are sorted to the
  same list (`Edit.sort_congr`).  Where no two edits overlap, only insertions can
  share a span, so lists that agree on these are carried out alike.
-/

import FlagFold.Proofs.Print.Copies

namespace FlagFold

namespace Edit

theorem le_iff_span {a b : Edit} :
    a.le b ↔ a.span.1 < b.span.1 ∨ a.span.1 = b.span.1 ∧ a.span.2 ≤ b.span.2 := le_iff

theorem le_of_span_eq {a b : Edit} (h : a.span = b.span) : a.le b := by
  rw [le_iff_span, h]
  omega

theorem span_eq_of_le {a b : Edit} (hab : a.le b) (hba : b.le a) : a.span = b.span := by
  rw [le_iff_span] at hab hba
  apply Prod.ext <;> omega

/-! ## Edits with one span -/

/-- `sort` keeps the edits with one span `s` in the order in which they are listed. -/
theorem filter_span_sort (edits : List Edit) (s : Nat × Nat) :
    (sort edits).filter (·.span = s) = edits.filter (·.span = s) := by
  have hpairs : (edits.filter (·.span = s)).Pairwise (·.le ·) := by
    refine List.pairwise_of_forall_mem_list fun a ha b hb => le_of_span_eq ?_
    rw [of_decide_eq_true (List.mem_filter.mp ha).2, of_decide_eq_true (List.mem_filter.mp hb).2]
  have hsorted : (edits.filter (·.span = s)).Sublist (sort edits) :=
    List.sublist_mergeSort le_trans' le_total' hpairs List.filter_sublist
  have hsub := hsorted.filter (·.span = s)
  rw [List.filter_filter] at hsub
  simp only [Bool.and_self] at hsub
  exact (hsub.eq_of_length ((sort_perm edits).filter _).length_eq.symm).symm

/-- A list of edits in the order `Edit.le` is determined by its edits with each span. -/
theorem eq_of_filter_span {edits edits' : List Edit} (h : edits.Pairwise (·.le ·))
    (h' : edits'.Pairwise (·.le ·))
    (hsame : ∀ s, edits.filter (·.span = s) = edits'.filter (·.span = s)) : edits = edits' := by
  have hmem : ∀ e, e ∈ edits ↔ e ∈ edits' := by
    intro e
    have hone := congrArg (e ∈ ·) (hsame e.span)
    simpa [List.mem_filter] using hone
  induction edits generalizing edits' with
  | nil =>
    exact (List.eq_nil_iff_forall_not_mem.mpr fun e he => by simpa using (hmem e).mpr he).symm
  | cons e rest ih =>
    cases edits' with
    | nil => exact absurd ((hmem e).mp List.mem_cons_self) List.not_mem_nil
    | cons e' rest' =>
      -- Each of the two first edits is among the others, so neither is behind the other.
      have hspan : e.span = e'.span := by
        rcases List.mem_cons.mp ((hmem e).mp List.mem_cons_self) with rfl | he
        · rfl
        rcases List.mem_cons.mp ((hmem e').mpr List.mem_cons_self) with rfl | he'
        · rfl
        · exact span_eq_of_le ((List.pairwise_cons.mp h).1 e' he')
            ((List.pairwise_cons.mp h').1 e he)
      obtain rfl : e = e' := by
        have hfirst := hsame e.span
        rw [List.filter_cons_of_pos (by simp), List.filter_cons_of_pos (by simp [hspan])] at hfirst
        exact (List.cons.inj hfirst).1
      have hrest : ∀ s, rest.filter (·.span = s) = rest'.filter (·.span = s) := by
        intro s
        have hboth := hsame s
        rw [List.filter_cons, List.filter_cons] at hboth
        split at hboth
        · exact (List.cons.inj hboth).2
        · exact hboth
      refine congrArg (e :: ·) (ih (List.pairwise_cons.mp h).2 (List.pairwise_cons.mp h').2 hrest
        fun d => ?_)
      have hone := congrArg (d ∈ ·) (hrest d.span)
      simpa [List.mem_filter] using hone

/-- Lists that have the same edits with each span, in the same order, are sorted to the same
list. -/
theorem sort_congr {edits edits' : List Edit}
    (hsame : ∀ s, edits.filter (·.span = s) = edits'.filter (·.span = s)) :
    sort edits = sort edits' :=
  eq_of_filter_span (pairwise_sort edits) (pairwise_sort edits') fun s => by
    rw [filter_span_sort, filter_span_sort, hsame]

/-- An edit `e` at the end of a list comes behind all those that are `le e`, and before the
others. -/
theorem sort_concat (edits : List Edit) (e : Edit) :
    sort (edits ++ [e]) =
      sort (edits.filter (·.le e)) ++ e :: sort (edits.filter (!·.le e)) := by
  have hearlier : ∀ a ∈ sort (edits.filter (·.le e)), a.le e := fun a ha =>
    (List.mem_filter.mp ((sort_perm _).mem_iff.mp ha)).2
  have hlater : ∀ a ∈ sort (edits.filter (!·.le e)), e.le a ∧ ¬ a.le e := by
    intro a ha
    have hnot : ¬ a.le e := by simpa using (List.mem_filter.mp ((sort_perm _).mem_iff.mp ha)).2
    exact ⟨(Bool.or_eq_true_iff.mp (le_total' a e)).resolve_left hnot, hnot⟩
  refine eq_of_filter_span (pairwise_sort _) ?_ fun s => ?_
  · rw [List.pairwise_append, List.pairwise_cons]
    refine ⟨pairwise_sort _, ⟨fun b hb => (hlater b hb).1, pairwise_sort _⟩, fun a ha b hb => ?_⟩
    rcases List.mem_cons.mp hb with rfl | hb
    · exact hearlier a ha
    · exact le_trans' a e b (hearlier a ha) (hlater b hb).1
  · -- All edits with one span come before `e`, or all behind it.
    let d : Edit := ⟨s.1, s.2, [], false⟩
    have hle : ∀ a : Edit, a.span = s → a.le e = d.le e := by
      rintro a rfl
      rfl
    have hsplit : ∀ p : Edit → Bool, (∀ a, a.span = s → p a = p d) →
        (sort (edits.filter p)).filter (·.span = s) =
          if p d then edits.filter (·.span = s) else [] := by
      intro p hp
      rw [filter_span_sort, List.filter_filter]
      cases hd : p d with
      | true => exact List.filter_congr fun a _ => by grind
      | false => exact List.filter_eq_nil_iff.mpr fun a _ => by grind
    have hfront := hsplit (·.le e) hle
    have hback := hsplit (!·.le e) fun a ha => congrArg (!·) (hle a ha)
    rw [filter_span_sort, List.filter_append, List.filter_append, hfront]
    simp only [List.filter_cons, List.filter_nil, hback]
    cases hd : d.le e with
    | true => simp
    | false =>
      have hne : e.span ≠ s := by
        intro hspan
        rw [← hle e hspan, le_of_span_eq rfl] at hd
        cases hd
      simp [hne]

/-- The spans of the sorted list are the same for every permutation of `edits`. -/
theorem map_span_sort_of_perm {edits edits' : List Edit} (hperm : edits'.Perm edits) :
    (sort edits').map span = (sort edits).map span := by
  have hspans : ((sort edits').map span).Perm ((sort edits).map span) :=
    ((sort_perm edits').trans (hperm.trans (sort_perm edits).symm)).map span
  have hordered : ∀ es : List Edit, ((sort es).map span).Pairwise fun s t =>
      s.1 < t.1 ∨ s.1 = t.1 ∧ s.2 ≤ t.2 := fun es =>
    List.pairwise_map.mpr ((pairwise_sort es).imp le_iff_span.mp)
  refine hspans.eq_of_pairwise (fun s t _ _ hst hts => ?_) (hordered edits') (hordered edits)
  apply Prod.ext <;> omega

/-! ## Edits that are apart -/

/-- If the edits are pairwise `Apart`, but no two that satisfy `p` are, there is at most one of
these; so a permutation keeps it. -/
theorem filter_eq_of_apart {edits edits' : List Edit} {p : Edit → Bool} (hperm : edits'.Perm edits)
    (hapart : edits.Pairwise Apart) (hp : ∀ a b, p a → p b → ¬ Apart a b) :
    edits'.filter p = edits.filter p := by
  have hkind := hperm.filter p
  have hnone : (edits.filter p).Pairwise fun _ _ => False :=
    (hapart.filter p).imp_of_mem fun {a b} ha hb hab =>
      hp a b (List.mem_filter.mp ha).2 (List.mem_filter.mp hb).2 hab
  cases hlist : edits.filter p with
  | nil => rw [hlist] at hkind; exact hkind.eq_nil
  | cons a rest =>
    rw [hlist] at hkind hnone
    cases rest with
    | nil => exact List.perm_singleton.mp hkind
    | cons b rest => exact absurd ((List.pairwise_cons.mp hnone).1 b List.mem_cons_self) id

/-- Two edits that both take out the character at offset `o` are not `Apart`. -/
theorem not_apart {a b : Edit} {o : Nat} (ha : a.start ≤ o ∧ o < a.stop)
    (hb : b.start ≤ o ∧ o < b.stop) : ¬ Apart a b := by
  unfold Apart
  omega

/-- A permutation of edits that are pairwise `Apart` is sorted to the same list, as long as
insertions at one offset keep their order. -/
theorem sort_eq_of_apart {edits edits' : List Edit} (hperm : edits'.Perm edits)
    (hinsertions : ∀ o, edits'.filter (·.span = (o, o)) = edits.filter (·.span = (o, o)))
    (hspan : ∀ e ∈ edits, e.start ≤ e.stop) (hapart : edits.Pairwise Apart) :
    sort edits' = sort edits := by
  refine sort_congr fun s => ?_
  rcases Nat.lt_trichotomy s.1 s.2 with hlt | heq | hgt
  · refine filter_eq_of_apart hperm hapart fun a b ha hb => ?_
    obtain rfl := of_decide_eq_true ha
    have hb := Prod.ext_iff.mp (of_decide_eq_true hb)
    exact not_apart ⟨Nat.le_refl _, hlt⟩ (by simp only [span] at hb hlt ⊢; omega)
  · rw [show s = (s.1, s.1) from Prod.ext rfl heq.symm]
    exact hinsertions s.1
  · -- No edit has such a span.
    have hnone : ∀ e ∈ edits, ¬ (e.span = s) := by
      rintro e he rfl
      exact absurd (hspan e he) (Nat.not_le.mpr hgt)
    rw [List.filter_eq_nil_iff.mpr fun e he => by simpa using hnone e (hperm.mem_iff.mp he),
      List.filter_eq_nil_iff.mpr fun e he => by simpa using hnone e he]

end Edit

/-! ## Edits that overlap -/

/-- The first place at which a span starts before the one before it has ended: where it starts, and
where the other ends. -/
def firstOverlap? (cursor : Nat) : List (Nat × Nat) → Option (Nat × Nat)
  | [] => none
  | (start, stop) :: rest =>
    if start < cursor then some (start, cursor) else firstOverlap? stop rest

theorem firstOverlap?_eq_none_iff {cursor : Nat} {edits : List Edit} :
    firstOverlap? cursor (edits.map Edit.span) = none ↔ Edit.Fits cursor edits := by
  induction edits generalizing cursor with
  | nil => simp [firstOverlap?, Edit.Fits]
  | cons edit rest ih =>
    rw [List.map_cons, Edit.span, firstOverlap?, Edit.Fits, ← ih]
    split <;> simp <;> omega

namespace Sheet

variable {sheet : Sheet}

/-- `spliceFrom` fails with the overlap that `firstOverlap?` finds. -/
theorem spliceFrom_of_overlap {stop cursor offset printed : Nat} {last : Text} {edits : List Edit}
    (h : firstOverlap? cursor (edits.map Edit.span) = some (offset, printed)) :
    sheet.spliceFrom stop last cursor edits = .error (.overlap offset printed) := by
  induction edits generalizing cursor last with
  | nil => cases h
  | cons edit rest ih =>
    rw [List.map_cons, Edit.span, firstOverlap?] at h
    split at h
    case isTrue hlt =>
      cases h
      rw [spliceFrom, if_pos hlt]
    case isFalse hge =>
      rw [spliceFrom_cons (Nat.not_lt.mp hge)]
      simp only [ih h]
      rfl

/-- `splice` gives the same output, or reports the same overlap, for every permutation of `edits` in
which insertions at one offset keep their order. -/
theorem splice_reordered {start stop : Nat} {edits edits' : List Edit} (hperm : edits'.Perm edits)
    (hinsertions : ∀ o, edits'.filter (·.span = (o, o)) = edits.filter (·.span = (o, o)))
    (hspan : ∀ e ∈ edits, start ≤ e.start ∧ e.start ≤ e.stop) :
    sheet.splice start stop edits' = sheet.splice start stop edits := by
  by_cases hapart : edits.Pairwise Edit.Apart
  · rw [splice, splice,
      Edit.sort_eq_of_apart hperm hinsertions (fun e he => (hspan e he).2) hapart]
  · -- The spans in order are the same in any case, and they decide which overlap is the first.
    have hspans := Edit.map_span_sort_of_perm hperm
    cases hfirst : firstOverlap? start ((Edit.sort edits).map Edit.span) with
    | none =>
      exact absurd ((Edit.fits_sort_iff hspan).mp (firstOverlap?_eq_none_iff.mp hfirst)) hapart
    | some place =>
      rw [splice, splice, spliceFrom_of_overlap hfirst, spliceFrom_of_overlap (hspans ▸ hfirst)]

end Sheet
end FlagFold
