/-
  FlagFold.Proofs.World.Paths

  Paths as texts and as steps.  A path made of steps has these steps again, so a
  path below a directory leads to where the directory is, and from there down along
  the steps (`Files.locate_below`).
-/

import FlagFold.Command.Sources
import FlagFold.Proofs.Text.Pieces
import FlagFold.Proofs.World.Files

namespace FlagFold

namespace Text

/-- No piece of `t.splitOn sep` holds `sep`. -/
theorem not_mem_of_mem_splitOn {sep : CodePoint} {t piece : Text} (h : piece ∈ t.splitOn sep) :
    sep ∉ piece := by
  induction t generalizing piece with
  | nil =>
    rw [splitOn, List.mem_singleton] at h
    simp [h]
  | cons c rest ih =>
    rw [splitOn] at h
    by_cases hc : c = sep
    · rw [if_pos hc, List.mem_cons] at h
      rcases h with rfl | h
      · exact List.not_mem_nil
      · exact ih h
    · rw [if_neg hc] at h
      cases hrest : splitOn sep rest with
      | nil => exact absurd hrest (splitOn_ne_nil sep rest)
      | cons first pieces =>
        rw [hrest] at h ih
        rcases List.mem_cons.mp h with rfl | h
        · rw [List.mem_cons, not_or]
          exact ⟨Ne.symm hc, ih List.mem_cons_self⟩
        · exact ih (List.mem_cons_of_mem _ h)

theorem join_cons (sep t : Text) {ts : List Text} (h : ts ≠ []) :
    join sep (t :: ts) = t ++ sep ++ join sep ts := by
  cases ts with
  | nil => exact absurd rfl h
  | cons => rfl

/-- An `ending` behind joined texts stands behind the last of them, `t`. -/
theorem join_concat_append (sep : Text) (ts : List Text) (t ending : Text) :
    join sep (ts ++ [t]) ++ ending = join sep (ts ++ [t ++ ending]) := by
  induction ts with
  | nil => rfl
  | cons first rest ih =>
    rw [List.cons_append, List.cons_append, join_cons sep first (by simp),
      join_cons sep first (by simp), List.append_assoc, ih]

end Text

namespace PathText

/-! ## Steps -/

/-- A step that a path can have, as `steps` gives it. -/
def IsStep (s : Text) : Prop := s ≠ [] ∧ s ≠ text "." ∧ CodePoint.ofChar '/' ∉ s

instance (s : Text) : Decidable (IsStep s) := inferInstanceAs (Decidable (_ ∧ _ ∧ _))

/-- A name in a directory: a step that leads down. -/
def IsName (s : Text) : Prop := IsStep s ∧ s ≠ text ".."

instance (s : Text) : Decidable (IsName s) := inferInstanceAs (Decidable (_ ∧ _))

variable {l : List Text}

theorem isStep_of_mem_steps {path s : Text} (h : s ∈ steps path) : IsStep s := by
  obtain ⟨hpiece, hshown⟩ := List.mem_filter.mp h
  simp only [Bool.and_eq_true, Bool.not_eq_true', List.isEmpty_eq_false_iff, decide_eq_true_eq]
    at hshown
  exact ⟨hshown.1, hshown.2, Text.not_mem_of_mem_splitOn hpiece⟩

/-- The path that `ofSteps` makes of the steps `l` has these steps. -/
theorem steps_ofSteps (h : ∀ s ∈ l, IsStep s) (absolute : Bool) :
    steps (ofSteps absolute l) = l := by
  have hkept : ∀ ts : List Text, (∀ s ∈ ts, IsStep s) →
      ts.filter (fun s => !s.isEmpty && s ≠ text ".") = ts := by
    intro ts hts
    refine List.filter_eq_self.mpr fun s hs => ?_
    simp [(hts s hs).1, (hts s hs).2.1]
  -- To join no names and to split the text again gives one empty name, which is no step.
  have hinner : (Text.join (text "/") l).splitOn '/' = if l = [] then [[]] else l := by
    split
    case isTrue hnil => rw [hnil]; rfl
    case isFalse hsome => exact Text.splitOn_join hsome fun s hs => (h s hs).2.2
  have hsteps : ((Text.join (text "/") l).splitOn '/').filter
      (fun s => !s.isEmpty && s ≠ text ".") = l := by
    rw [hinner]
    split
    case isTrue hnil => rw [hnil]; rfl
    case isFalse => exact hkept l h
  cases absolute with
  | true =>
    have hslash : (text "/" ++ Text.join (text "/") l).splitOn '/' =
        [] :: (Text.join (text "/") l).splitOn '/' := rfl
    rw [steps, ofSteps, if_pos rfl, hslash, List.filter_cons_of_neg (by simp), hsteps]
  | false =>
    rw [steps, ofSteps, if_neg Bool.false_ne_true]
    cases l with
    | nil => rfl
    | cons s rest => exact hsteps

/-- The path that `ofSteps` makes begins at the root if it is made `absolute`. -/
theorem isAbsolute_ofSteps (h : ∀ s ∈ l, IsStep s) (absolute : Bool) :
    isAbsolute (ofSteps absolute l) = absolute := by
  cases absolute with
  | true => rfl
  | false =>
    cases l with
    | nil => rfl
    | cons s rest =>
      obtain ⟨hs, -, hslash⟩ := h s List.mem_cons_self
      obtain ⟨c, more, rfl⟩ := List.exists_cons_of_ne_nil hs
      have hhead : (ofSteps false ((c :: more) :: rest)).head? = some c := by
        cases rest <;> rfl
      rw [List.mem_cons, not_or] at hslash
      rw [isAbsolute, hhead, decide_eq_false_iff_not, Option.some.injEq]
      exact Ne.symm hslash.1

theorem ofSteps_ne_nil (absolute : Bool) {steps : List Text} (h : ∀ s ∈ steps, s ≠ []) :
    ofSteps absolute steps ≠ [] := by
  unfold ofSteps
  cases absolute with
  | true => simp [text]
  | false =>
    cases steps with
    | nil => simp [text]
    | cons s rest =>
      have hs : s ≠ [] := h s (by simp)
      cases rest <;> simp [Text.join, hs]

theorem ne_nil_of_mem_steps {path s : Text} (h : s ∈ steps path) : s ≠ [] := by
  rintro rfl
  simp [steps] at h

theorem normalize_ne_nil (path : Text) : normalize path ≠ [] :=
  ofSteps_ne_nil _ fun _ => ne_nil_of_mem_steps

theorem below_ne_nil (base path : Text) : below base path ≠ [] := by
  unfold below
  split
  · exact normalize_ne_nil path
  · apply ofSteps_ne_nil
    intro s hs
    rcases List.mem_append.mp hs with hs | hs <;> exact ne_nil_of_mem_steps hs

theorem steps_normalize (path : Text) : steps (normalize path) = steps path :=
  steps_ofSteps (fun _ => isStep_of_mem_steps) _

theorem isAbsolute_normalize (path : Text) : isAbsolute (normalize path) = isAbsolute path :=
  isAbsolute_ofSteps (fun _ => isStep_of_mem_steps) _

/-- The path that `below` makes of the steps `l` has those of `base` in front. -/
theorem below_ofSteps (base : Text) (h : ∀ s ∈ l, IsStep s) :
    below base (ofSteps false l) = ofSteps (isAbsolute base) (steps base ++ l) := by
  rw [below, isAbsolute_ofSteps h, if_neg Bool.false_ne_true, steps_ofSteps h]

theorem steps_below (base : Text) (h : ∀ s ∈ l, IsStep s) :
    steps (below base (ofSteps false l)) = steps base ++ l := by
  rw [below_ofSteps base h]
  refine steps_ofSteps (fun s hs => ?_) _
  exact (List.mem_append.mp hs).elim isStep_of_mem_steps (h s)

theorem isAbsolute_below (base : Text) (h : ∀ s ∈ l, IsStep s) :
    isAbsolute (below base (ofSteps false l)) = isAbsolute base := by
  rw [below_ofSteps base h]
  refine isAbsolute_ofSteps (fun s hs => ?_) _
  exact (List.mem_append.mp hs).elim isStep_of_mem_steps (h s)

/-! ## The map beside a file -/

/-- The steps to the map beside the file to which the steps `r` lead. -/
def mapSteps (r : List Text) : List Text := r.dropLast ++ [r.getLastD [] ++ text ".map"]

theorem mapSteps_concat (front : List Text) (name : Text) :
    mapSteps (front ++ [name]) = front ++ [name ++ text ".map"] := by
  simp [mapSteps]

theorem isName_map {name : Text} (h : IsName name) : IsName (name ++ text ".map") := by
  obtain ⟨⟨hsome, -, hslash⟩, -⟩ := h
  have hlength : 5 ≤ (name ++ text ".map").length := by
    have hname : 0 < name.length := List.length_pos_iff.mpr hsome
    have hmap : (text ".map").length = 4 := rfl
    rw [List.length_append]
    omega
  refine ⟨⟨?_, ?_, ?_⟩, ?_⟩
  · exact List.ne_nil_of_length_pos (by omega)
  · intro hdot
    rw [hdot] at hlength
    exact absurd hlength (by decide)
  · rw [List.mem_append, not_or]
    exact ⟨hslash, by decide⟩
  · intro hdots
    rw [hdots] at hlength
    exact absurd hlength (by decide)

theorem isName_of_mem_mapSteps {r : List Text} (hr : r ≠ []) (h : ∀ s ∈ r, IsName s) :
    ∀ s ∈ mapSteps r, IsName s := by
  obtain ⟨front, name, rfl⟩ : ∃ front name, r = front ++ [name] :=
    ⟨_, _, (List.dropLast_concat_getLast hr).symm⟩
  rw [List.forall_mem_append, List.forall_mem_singleton] at h
  rw [mapSteps_concat, List.forall_mem_append, List.forall_mem_singleton]
  exact ⟨h.1, isName_map h.2⟩

/-- The path to the map beside a file below `base` is the path to the file with `.map` behind it. -/
theorem below_append_map (base : Text) {r : List Text} (hr : r ≠ []) (h : ∀ s ∈ r, IsName s) :
    below base (ofSteps false r) ++ text ".map" = below base (ofSteps false (mapSteps r)) := by
  rw [below_ofSteps base fun s hs => (h s hs).1,
    below_ofSteps base fun s hs => (isName_of_mem_mapSteps hr h s hs).1]
  obtain ⟨front, name, rfl⟩ : ∃ front name, r = front ++ [name] :=
    ⟨_, _, (List.dropLast_concat_getLast hr).symm⟩
  rw [mapSteps_concat, ← List.append_assoc, ← List.append_assoc]
  generalize steps base ++ front = front
  have hjoin := Text.join_concat_append (text "/") front name (text ".map")
  unfold ofSteps
  cases isAbsolute base with
  | true => rw [if_pos rfl, if_pos rfl, List.append_assoc, hjoin]
  | false => simp [hjoin]

end PathText

/-! ## Where paths lead -/

namespace Files

open PathText

variable {files : Files} {r here : List Text}

theorem stepsOf_normalize (path : Text) : stepsOf (normalize path) = stepsOf path := by
  rw [stepsOf, stepsOf, isAbsolute_normalize, steps_normalize]

theorem locate_normalize {path : Text} (h : path ≠ []) :
    files.locate (normalize path) = files.locate path := by
  rw [locate, locate, stepsOf_normalize, if_neg (by simpa using normalize_ne_nil path),
    if_neg (by simpa using h)]

theorem stepsOf_below (base : Text) (h : ∀ s ∈ r, IsName s) :
    stepsOf (below base (ofSteps false r)) = stepsOf base ++ r := by
  have hstep : ∀ s ∈ r, IsStep s := fun s hs => (h s hs).1
  rw [stepsOf, stepsOf, isAbsolute_below base hstep, steps_below base hstep]
  split <;> rfl

/-- Names lead on as `Files.next` does, from wherever they are followed. -/
theorem foldl_follow_of_isName (h : ∀ s ∈ r, IsName s) (here : List Text) :
    r.foldl (follow files) (some here) = some (r.foldl files.next here) := by
  induction r generalizing here with
  | nil => rfl
  | cons s rest ih =>
    rw [List.forall_mem_cons] at h
    have hdown : follow files (some here) s = some (files.next here s) := by
      simp [follow, leadsDown, h.1.2]
    rw [List.foldl_cons, hdown, ih h.2, List.foldl_cons]

/-- A path below `base` leads on from where `base` leads. -/
theorem resolve_below (files : Files) (base : Text) (h : ∀ s ∈ r, IsName s) :
    files.resolve (below base (ofSteps false r)) = r.foldl files.next (files.resolve base) := by
  rw [resolve, resolve, stepsOf_below base h, List.foldl_append]

theorem locate_below (files : Files) {base : Text} (hbase : base ≠ []) (h : ∀ s ∈ r, IsName s) :
    files.locate (below base (ofSteps false r)) =
      (files.locate base).map (r.foldl files.next ·) := by
  rw [locate, locate, stepsOf_below base h, if_neg (by simpa using below_ne_nil _ _),
    if_neg (by simpa using hbase), List.foldl_append]
  cases (stepsOf base).foldl (follow files) (some []) with
  | none => exact foldl_follow_none files r
  | some here => exact foldl_follow_of_isName h here

/-! ## Directories without links -/

/-- No link is at the place `here` or below it. -/
def Unlinked (files : Files) (here : List Text) : Prop :=
  ∀ link ∈ files.links, ¬ here <+: link.steps

instance (files : Files) (here : List Text) : Decidable (files.Unlinked here) :=
  inferInstanceAs (Decidable (∀ link ∈ files.links, ¬ here <+: link.steps))

theorem ends_of_unlinked (h : files.Unlinked here) (r : List Text) :
    files.ends (here ++ r) = here ++ r := by
  have hnone : files.links.find? (·.steps = here ++ r) = none := by
    rw [List.find?_eq_none]
    intro link hlink hsteps
    exact h link hlink (of_decide_eq_true hsteps ▸ List.prefix_append here r)
  rw [ends, hnone]

/-- Where there are no links at or below `here`, the names `r` lead to the place that they name. -/
theorem foldl_next_of_unlinked (h : files.Unlinked here) (hr : ∀ s ∈ r, IsName s) :
    r.foldl files.next here = here ++ r := by
  induction r generalizing here with
  | nil => simp
  | cons s rest ih =>
    rw [List.forall_mem_cons] at hr
    have hdown : files.next here s = here ++ [s] := by
      rw [next, if_pos (by simp [leadsDown, hr.1.2]), ends_of_unlinked h]
    have hbelow : files.Unlinked (here ++ [s]) := fun link hlink hprefix =>
      h link hlink ((List.prefix_append here [s]).trans hprefix)
    rw [List.foldl_cons, hdown, ih hbelow hr.2, List.append_assoc, List.singleton_append]

end Files
end FlagFold
