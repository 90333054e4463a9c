/-
  FlagFold.Proofs.Print.Replacement

  What carrying out edits comes to, said offset by offset: at each stands what edits
  put there, and behind it the character of the source, unless an edit covers it
  (`Text.replaced`).  Edits are carried out just if no two of them overlap, this
  is then the output, and neither the order in which they are listed nor a list of
  anchors that is made on the way makes a difference.
-/

import FlagFold.Print.Render
import FlagFold.Proofs.Print.Anchors
import FlagFold.Proofs.Print.Order

namespace FlagFold

namespace Edit

/-- `e` takes out the character at offset `o`. -/
def covers (e : Edit) (o : Nat) : Bool := e.start ≤ o && o < e.stop

/-- `e` starts at `o` and takes something out. -/
def takesOutFrom (e : Edit) (o : Nat) : Bool := e.start = o && o < e.stop

/-- What `edits` put at `o`: the insertions there as they are listed, and then the text of the edit
that takes something out from `o` on. -/
def putAt (edits : List Edit) (o : Nat) : Text :=
  (edits.filter (·.span = (o, o))).flatMap (·.text) ++
    (edits.filter (·.takesOutFrom o)).flatMap (·.text)

theorem covers_iff {e : Edit} {o : Nat} : e.covers o ↔ e.start ≤ o ∧ o < e.stop := by
  simp [covers]

theorem covers_eq_false_iff {e : Edit} {o : Nat} :
    e.covers o = false ↔ o < e.start ∨ e.stop ≤ o := by
  rw [Bool.eq_false_iff, Ne, covers_iff]
  omega

/-- `putAt` is empty where none of `edits` starts. -/
theorem putAt_eq_nil {edits : List Edit} {o : Nat} (h : ∀ e ∈ edits, e.start ≠ o) :
    putAt edits o = [] := by
  rw [putAt, List.filter_eq_nil_iff.mpr, List.filter_eq_nil_iff.mpr]
  · rfl
  · intro e he
    simp [takesOutFrom, h e he]
  · intro e he
    simp [span, h e he]

theorem putAt_cons_of_ne {edit : Edit} {o : Nat} (h : edit.start ≠ o) (rest : List Edit) :
    putAt (edit :: rest) o = putAt rest o := by
  simp [putAt, span, takesOutFrom, h]

/-- An insertion that is listed first comes first in `putAt`. -/
theorem putAt_cons_of_insertion {edit : Edit} (h : edit.stop = edit.start) (rest : List Edit) :
    putAt (edit :: rest) edit.start = edit.text ++ putAt rest edit.start := by
  simp [putAt, span, takesOutFrom, h]

/-- Where `rest` puts nothing, `putAt` is the text of the edit that takes something out. -/
theorem putAt_cons_of_lt {edit : Edit} {rest : List Edit} (h : edit.start < edit.stop)
    (hrest : putAt rest edit.start = []) : putAt (edit :: rest) edit.start = edit.text := by
  rw [putAt, List.append_eq_nil_iff] at hrest
  rw [putAt, List.filter_cons_of_neg (by simp [span, h.ne']),
    List.filter_cons_of_pos (by simp [takesOutFrom, h]), List.flatMap_cons, hrest.1, hrest.2,
    List.nil_append, List.append_nil]

end Edit

namespace Text

/-- What stands in the place of the offset `o`: `putAt`, and the character of `source` there, if it
is before `stop` and no edit `covers` it. -/
def replacedAt (source : Text) (stop : Nat) (edits : List Edit) (o : Nat) : Text :=
  Edit.putAt edits o ++
    if o < stop && !edits.any (·.covers o) then source.slice o (o + 1) else []

/-- `source` from `start` to `stop` with the span of each edit replaced by its text and all else as
it is. -/
def replaced (source : Text) (start stop : Nat) (edits : List Edit) : Text :=
  (List.range' start (stop + 1 - start)).flatMap (source.replacedAt stop edits)

variable {source : Text} {stop : Nat}

/-- The offsets from `a` to `c` are those up to `b` and those from there on. -/
theorem flatMap_range'_split {f : Nat → Text} {a b c : Nat} (hab : a ≤ b) (hbc : b ≤ c) :
    (List.range' a (c - a)).flatMap f =
      (List.range' a (b - a)).flatMap f ++ (List.range' b (c - b)).flatMap f := by
  have hrange := List.range'_append_1 (s := a) (m := b - a) (n := c - b)
  rw [Nat.add_sub_cancel' hab, show b - a + (c - b) = c - a by omega] at hrange
  rw [← hrange, List.flatMap_append]

/-- A slice of `source`, one character after the other. -/
theorem flatMap_range'_slice (source : Text) {a b : Nat} (hab : a ≤ b) :
    (List.range' a (b - a)).flatMap (fun o => source.slice o (o + 1)) = source.slice a b := by
  induction b, hab using Nat.le_induction with
  | base => simp
  | succ b hab ih =>
    rw [flatMap_range'_split hab (Nat.le_succ b), ih, Nat.succ_eq_add_one, Nat.add_sub_cancel_left,
      ← slice_append_slice source hab (Nat.le_succ b)]
    simp

/-- Before all `edits` the source is as it was. -/
theorem flatMap_replacedAt_before {edits : List Edit} {a b : Nat} (hab : a ≤ b) (hb : b ≤ stop)
    (h : ∀ e ∈ edits, b ≤ e.start) :
    (List.range' a (b - a)).flatMap (source.replacedAt stop edits) = source.slice a b := by
  rw [← flatMap_range'_slice source hab]
  refine List.flatMap_congr fun o ho => ?_
  rw [List.mem_range'_1] at ho
  have hput : Edit.putAt edits o = [] := Edit.putAt_eq_nil fun e he => by
    have := h e he
    omega
  have hnone : edits.any (·.covers o) = false := by
    rw [List.any_eq_false]
    intro e he
    rw [Bool.not_eq_true, Edit.covers_eq_false_iff]
    have := h e he
    omega
  rw [replacedAt, hput, hnone, List.nil_append, if_pos]
  simp only [Bool.not_false, Bool.and_true, decide_eq_true_eq]
  omega

/-- Behind `edit` only `rest` counts in `replacedAt`. -/
theorem replacedAt_cons_of_behind {edit : Edit} {o : Nat} (hput : edit.start ≠ o)
    (hstop : edit.stop ≤ o) (rest : List Edit) :
    source.replacedAt stop (edit :: rest) o = source.replacedAt stop rest o := by
  rw [replacedAt, replacedAt, Edit.putAt_cons_of_ne hput, List.any_cons,
    Edit.covers_eq_false_iff.mpr (.inr hstop), Bool.false_or]

/-- Where `edit` takes something out, its text stands in place of that. -/
theorem flatMap_replacedAt_covered {edit : Edit} {rest : List Edit} (hlt : edit.start < edit.stop)
    (hrest : ∀ e ∈ rest, edit.stop ≤ e.start) :
    (List.range' edit.start (edit.stop - edit.start)).flatMap
      (source.replacedAt stop (edit :: rest)) = edit.text := by
  have hcovered : ∀ o, edit.start ≤ o → o < edit.stop →
      source.replacedAt stop (edit :: rest) o = Edit.putAt (edit :: rest) o := by
    intro o hstart hstop
    rw [replacedAt, List.any_cons, Edit.covers_iff.mpr ⟨hstart, hstop⟩]
    simp
  have hnone : ∀ o < edit.stop, Edit.putAt rest o = [] := fun o ho =>
    Edit.putAt_eq_nil fun e he => by
      have := hrest e he
      omega
  rw [show edit.stop - edit.start = edit.stop - (edit.start + 1) + 1 by omega, List.range'_succ,
    List.flatMap_cons, hcovered _ (Nat.le_refl _) hlt, Edit.putAt_cons_of_lt hlt (hnone _ hlt),
    List.flatMap_eq_nil_iff.mpr, List.append_nil]
  intro o ho
  rw [List.mem_range'_1] at ho
  rw [hcovered o (by omega) (by omega), Edit.putAt_cons_of_ne (by omega), hnone o (by omega)]

/-- `replaced` at the first of edits in order: what comes before it, its text, and what comes behind
it. -/
theorem replaced_cons {edit : Edit} {rest : List Edit} {cursor : Nat}
    (hcursor : cursor ≤ edit.start) (hspan : edit.start ≤ edit.stop) (hstop : edit.stop ≤ stop)
    (hrest : ∀ e ∈ rest, edit.stop ≤ e.start) :
    source.replaced cursor stop (edit :: rest) =
      source.slice cursor edit.start ++ edit.text ++ source.replaced edit.stop stop rest := by
  have hbefore : (List.range' cursor (edit.start - cursor)).flatMap
      (source.replacedAt stop (edit :: rest)) = source.slice cursor edit.start :=
    flatMap_replacedAt_before hcursor (Nat.le_trans hspan hstop) <| List.forall_mem_cons.mpr
      ⟨Nat.le_refl _, fun e he => Nat.le_trans hspan (hrest e he)⟩
  rw [replaced, flatMap_range'_split hcursor (by omega), hbefore, List.append_assoc, replaced]
  congr 1
  rcases Nat.lt_or_eq_of_le hspan with hlt | heq
  · rw [flatMap_range'_split hspan (by omega), flatMap_replacedAt_covered hlt hrest]
    congr 1
    refine List.flatMap_congr fun o ho => ?_
    rw [List.mem_range'_1] at ho
    exact replacedAt_cons_of_behind (by omega) ho.1 rest
  · -- An insertion is made in front of the character at its offset.
    rw [← heq, show stop + 1 - edit.start = stop - edit.start + 1 by omega, List.range'_succ,
      List.flatMap_cons, List.flatMap_cons, ← List.append_assoc]
    congr 1
    · rw [replacedAt, replacedAt, Edit.putAt_cons_of_insertion heq.symm, List.any_cons,
        Edit.covers_eq_false_iff.mpr (.inr heq.ge), Bool.false_or, List.append_assoc]
    · refine List.flatMap_congr fun o ho => ?_
      rw [List.mem_range'_1] at ho
      exact replacedAt_cons_of_behind (by omega) (by omega) rest

/-- If `edits` fit from `cursor` on, `replaceFrom` is `replaced`. -/
theorem replaceFrom_eq_replaced {cursor : Nat} {edits : List Edit} (hcursor : cursor ≤ stop)
    (hfits : Edit.Fits cursor edits) (hspan : ∀ e ∈ edits, e.start ≤ e.stop ∧ e.stop ≤ stop) :
    source.replaceFrom stop cursor edits = source.replaced cursor stop edits := by
  induction edits generalizing cursor with
  | nil =>
    rw [replaceFrom, replaced, flatMap_range'_split hcursor (Nat.le_succ stop),
      flatMap_replacedAt_before hcursor (Nat.le_refl stop) (by simp)]
    simp [replacedAt, Edit.putAt]
  | cons edit rest ih =>
    have hrest := ((Edit.fits_iff_pairwise fun e he => (hspan e he).1).mp hfits).2
    rw [List.forall_mem_cons] at hspan
    rw [List.pairwise_cons] at hrest
    rw [replaceFrom, ih hspan.1.2 hfits.2 hspan.2,
      replaced_cons hfits.1 hspan.1.1 hspan.1.2 hrest.1]

/-- `replaced` is the same for every permutation of edits that are pairwise `Apart`, as long as
insertions at one offset keep their order. -/
theorem replaced_of_perm {start : Nat} {edits edits' : List Edit} (hperm : edits'.Perm edits)
    (hinsertions : ∀ o, edits'.filter (·.span = (o, o)) = edits.filter (·.span = (o, o)))
    (hapart : edits.Pairwise Edit.Apart) :
    source.replaced start stop edits' = source.replaced start stop edits := by
  refine List.flatMap_congr fun o _ => ?_
  have hfrom : edits'.filter (·.takesOutFrom o) = edits.filter (·.takesOutFrom o) := by
    refine Edit.filter_eq_of_apart hperm hapart fun a b ha hb => ?_
    simp only [Edit.takesOutFrom, Bool.and_eq_true, decide_eq_true_eq] at ha hb
    exact Edit.not_apart (o := o) (by omega) (by omega)
  rw [replacedAt, replacedAt, Edit.putAt, Edit.putAt, hinsertions, hfrom, hperm.any_eq]

end Text

/-! ## Anchors that are noted on the way -/

/-- An output as far as it is written: its `last` chunk, its `code`, and its `anchors` if they are
noted. -/
structure Draft where
  last : Text := []
  code : Text := []
  anchors : List (Nat × Nat) := []

namespace Draft

/-- `draft` with `chunk` written behind it; with `track` its `ownAnchors` are noted. -/
def write (source : Text) (track : Bool) (draft : Draft) (chunk : Chunk) : Draft where
  last := chunk.output source
  code := draft.code ++ chunk.output source
  anchors :=
    if track then draft.anchors ++ Chunk.ownAnchors source draft.code.length chunk
    else draft.anchors

variable {source : Text} {track : Bool}

theorem last_foldl_write (draft : Draft) (chunks : List Chunk) :
    (chunks.foldl (write source track) draft).last =
      Chunk.lastOutput source draft.last chunks := by
  induction chunks generalizing draft with
  | nil => rfl
  | cons chunk rest ih =>
    rw [List.foldl_cons, ih, write, ← List.singleton_append, Chunk.lastOutput_append,
      Chunk.lastOutput_singleton]

theorem code_foldl_write (draft : Draft) (chunks : List Chunk) :
    (chunks.foldl (write source track) draft).code = draft.code ++ Chunk.outputs source chunks := by
  induction chunks generalizing draft with
  | nil => simp [Chunk.outputs]
  | cons chunk rest ih => rw [List.foldl_cons, ih, Chunk.outputs_cons, write, List.append_assoc]

theorem anchors_foldl_write (draft : Draft) (chunks : List Chunk) :
    (chunks.foldl (write source track) draft).anchors =
      if track then draft.anchors ++ Chunk.anchorsFrom source draft.code.length chunks
      else draft.anchors := by
  induction chunks generalizing draft with
  | nil => simp [Chunk.anchorsFrom]
  | cons chunk rest ih =>
    rw [List.foldl_cons, ih, Chunk.anchorsFrom_cons]
    cases track <;> simp [write]

end Draft

namespace Sheet

/-- Carries out sorted edits in one go: behind `draft` comes the source from `cursor` to `stop`. -/
def draftFrom (sheet : Sheet) (track : Bool) (stop : Nat) (draft : Draft) (cursor : Nat) :
    List Edit → Except PrintError Draft
  | [] => .ok ((Chunk.copy cursor stop).foldl (Draft.write sheet.source track) draft)
  | edit :: rest =>
    if edit.start < cursor then .error (.overlap edit.start cursor)
    else
      let draft := (Chunk.copy cursor edit.start).foldl (Draft.write sheet.source track) draft
      let t := sheet.insertion draft.last edit
      let draft :=
        if t.isEmpty then draft
        else draft.write sheet.source track (.inserted edit.start t)
      sheet.draftFrom track stop draft edit.stop rest

/-- Carries out `edits` in one go, in the order of `Edit.sort`; with `track` anchors are noted. -/
def draft (sheet : Sheet) (track : Bool) (start stop : Nat) (edits : List Edit) :
    Except PrintError Draft :=
  sheet.draftFrom track stop {} start (Edit.sort edits)

variable {sheet : Sheet}

/-- `draftFrom` writes the chunks that `spliceFrom` makes, one by one. -/
theorem draftFrom_eq (sheet : Sheet) (track : Bool) (stop : Nat) (draft : Draft) (cursor : Nat)
    (edits : List Edit) :
    sheet.draftFrom track stop draft cursor edits =
      (sheet.spliceFrom stop draft.last cursor edits).map
        fun chunks => chunks.foldl (Draft.write sheet.source track) draft := by
  induction edits generalizing draft cursor with
  | nil => rfl
  | cons edit rest ih =>
    rw [draftFrom]
    split
    case isTrue hlt => rw [spliceFrom, if_pos hlt]; rfl
    case isFalse hge =>
      have hinserts : ∀ draft : Draft,
          (if (sheet.insertion draft.last edit).isEmpty then draft
            else draft.write sheet.source track
              (.inserted edit.start (sheet.insertion draft.last edit))) =
          (sheet.inserts draft.last edit).foldl (Draft.write sheet.source track) draft := by
        intro draft
        simp only [inserts]
        split <;> rfl
      simp only [hinserts]
      rw [ih, spliceFrom_cons (Nat.not_lt.mp hge)]
      simp only [Draft.last_foldl_write, Chunk.lastOutput_append]
      cases sheet.spliceFrom stop _ edit.stop rest with
      | error => rfl
      | ok later =>
        refine congrArg Except.ok ?_
        simp only [List.foldl_append]

/-- The code of a `draft` does not depend on `track`, and its anchors are those of the chunks of
`splice`. -/
theorem draft_eq (sheet : Sheet) (track : Bool) (start stop : Nat) (edits : List Edit) :
    (sheet.draft track start stop edits).map (fun draft => (draft.code, draft.anchors)) =
      (sheet.splice start stop edits).map fun chunks =>
        (sheet.write chunks, if track then Chunk.anchorsFrom sheet.source 0 chunks else []) := by
  rw [draft, splice, draftFrom_eq]
  cases sheet.spliceFrom stop ({} : Draft).last start (Edit.sort edits) with
  | error => rfl
  | ok chunks =>
    refine congrArg Except.ok ?_
    dsimp only
    rw [Draft.code_foldl_write, Draft.anchors_foldl_write, List.nil_append, List.nil_append, write]
    rfl

/-! ## What edits come to -/

/-- Of two edits of `sorted`, the later one begins before the earlier one has ended. -/
def Overlap (sorted : List Edit) : Prop :=
  ∃ a b, [a, b].Sublist sorted ∧ b.start < a.stop

theorem overlap_sort_iff {start : Nat} {edits : List Edit}
    (hedits : ∀ e ∈ edits, start ≤ e.start ∧ e.start ≤ e.stop) :
    Overlap (Edit.sort edits) ↔ ¬ edits.Pairwise Edit.Apart := by
  have hsorted : ∀ e ∈ Edit.sort edits, start ≤ e.start ∧ e.start ≤ e.stop :=
    fun e he => hedits e ((Edit.sort_perm edits).mem_iff.mp he)
  rw [← Edit.fits_sort_iff hedits, Edit.fits_iff_pairwise fun e he => (hsorted e he).2,
    and_iff_right fun e he => (hsorted e he).1, List.pairwise_iff_forall_sublist]
  unfold Overlap
  push Not
  rfl

/-- For `edits` of a stretch of the source, `splice` fails just if two of them overlap; otherwise
each span has its text in its place, and all else is copied. A permutation `edits'` that keeps
insertions at one offset in their order makes no difference, and neither does `track`. -/
theorem splice_replaces (sheet : Sheet) {start stop : Nat} {edits : List Edit}
    (hrange : start ≤ stop)
    (hedits : ∀ e ∈ edits, start ≤ e.start ∧ e.start ≤ e.stop ∧ e.stop ≤ stop)
    (hown : ∀ e ∈ edits, e.ownLine = false) :
    ((∃ offset printed, sheet.splice start stop edits = .error (.overlap offset printed)) ↔
      Overlap (Edit.sort edits)) ∧
    (Overlap (Edit.sort edits) ↔ ¬ edits.Pairwise Edit.Apart) ∧
    (¬ Overlap (Edit.sort edits) → ∃ chunks, sheet.splice start stop edits = .ok chunks ∧
      sheet.write chunks = sheet.source.replaced start stop edits) ∧
    (∀ edits' : List Edit, edits'.Perm edits →
      (∀ o, edits'.filter (·.span = (o, o)) = edits.filter (·.span = (o, o))) →
      sheet.splice start stop edits' = sheet.splice start stop edits) ∧
    ∀ track, (sheet.draft track start stop edits).map (fun draft => (draft.code, draft.anchors)) =
      (sheet.splice start stop edits).map fun chunks =>
        (sheet.write chunks, if track then Chunk.anchorsFrom sheet.source 0 chunks else []) := by
  have hspan : ∀ e ∈ edits, start ≤ e.start ∧ e.start ≤ e.stop :=
    fun e he => ⟨(hedits e he).1, (hedits e he).2.1⟩
  have hperm := Edit.sort_perm edits
  have hoverlap := overlap_sort_iff hspan
  have hsplice : ¬ Overlap (Edit.sort edits) → ∃ chunks,
      sheet.splice start stop edits = .ok chunks ∧
        sheet.write chunks = sheet.source.replaced start stop edits := by
    intro hnone
    have hapart : edits.Pairwise Edit.Apart := by
      rwa [hoverlap, not_not] at hnone
    have hfits := (Edit.fits_sort_iff hspan).mpr hapart
    obtain ⟨chunks, hchunks, houtput⟩ := sheet.spliceFrom_of_fits stop [] hfits
      fun e he => hown e (hperm.mem_iff.mp he)
    refine ⟨chunks, hchunks, ?_⟩
    calc sheet.write chunks
        = sheet.source.replaceFrom stop start (Edit.sort edits) := houtput
      _ = sheet.source.replaced start stop (Edit.sort edits) :=
          Text.replaceFrom_eq_replaced hrange hfits fun e he =>
            (hedits e (hperm.mem_iff.mp he)).2
      _ = sheet.source.replaced start stop edits :=
          Text.replaced_of_perm hperm (fun o => Edit.filter_span_sort edits (o, o)) hapart
  refine ⟨⟨?_, ?_⟩, hoverlap, hsplice, fun edits' hperm' hinsertions =>
    splice_reordered hperm' hinsertions hspan, fun track => sheet.draft_eq track start stop edits⟩
  · rintro ⟨offset, printed, herror⟩
    by_contra hnone
    obtain ⟨chunks, hchunks, -⟩ := hsplice hnone
    rw [hchunks] at herror
    cases herror
  · intro hsome
    rw [hoverlap, ← Edit.fits_sort_iff hspan] at hsome
    rcases sheet.spliceFrom_cases stop [] start (Edit.sort edits) with ⟨hfits, -⟩ | ⟨-, herror⟩
    · exact absurd hfits hsome
    · exact herror

/-- Four edits of `abcdef`, two of them insertions at one offset, in two orders; and two that
overlap. -/
theorem splice_replaces_twoInsertions :
    let sheet : Sheet := ⟨text "abcdef", text "\n"⟩
    let x : Edit := ⟨3, 3, text "x", false⟩
    let y : Edit := ⟨0, 3, text "y", false⟩
    let z : Edit := ⟨3, 3, text "z", false⟩
    let cut : Edit := ⟨5, 6, [], false⟩
    let across : Edit := ⟨2, 4, text "o", false⟩
    (∃ chunks, sheet.splice 0 6 [x, y, cut, z] = .ok chunks ∧ sheet.write chunks = text "yxzde") ∧
      sheet.splice 0 6 [cut, x, z, y] = sheet.splice 0 6 [x, y, cut, z] ∧
      (sheet.draft true 0 6 [x, y, cut, z]).map (·.code) = .ok (text "yxzde") ∧
      ∃ offset printed, sheet.splice 0 6 [across, y] = .error (.overlap offset printed) := by
  intro sheet x y z cut across
  have hapart : [x, y, cut, z].Pairwise Edit.Apart := by
    simp [Edit.Apart, x, y, cut, z]
  obtain ⟨-, hoverlap, hsplice, horder, hdraft⟩ := @splice_replaces sheet 0 6 [x, y, cut, z]
    (by decide) (by decide) (by decide)
  obtain ⟨chunks, hchunks, hcode⟩ := hsplice (by rwa [hoverlap, not_not])
  have hcode : sheet.write chunks = text "yxzde" := hcode.trans (by decide)
  have hsame : sheet.splice 0 6 [cut, x, z, y] = sheet.splice 0 6 [x, y, cut, z] := by
    refine horder _ (by decide) fun o => ?_
    rcases eq_or_ne o 3 with rfl | ho
    · rfl
    · rw [List.filter_eq_nil_iff.mpr, List.filter_eq_nil_iff.mpr]
      all_goals
        simp [Edit.span, x, y, cut, z, ho.symm]
        omega
  have hnoted := hdraft true
  rw [hchunks] at hnoted
  refine ⟨⟨chunks, hchunks, hcode⟩, hsame, ?_, ?_⟩
  · cases hdrawn : sheet.draft true 0 6 [x, y, cut, z] with
    | error => rw [hdrawn] at hnoted; cases hnoted
    | ok drawn =>
      rw [hdrawn] at hnoted
      exact congrArg Except.ok ((Prod.ext_iff.mp (Except.ok.inj hnoted)).1.trans hcode)
  · obtain ⟨herror, hover, -⟩ := @splice_replaces sheet 0 6 [across, y] (by decide) (by decide)
      (by decide)
    refine herror.mpr (hover.mpr ?_)
    simp [Edit.Apart, across, y]

end Sheet
end FlagFold
