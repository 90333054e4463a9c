/-
  FlagFold.Proofs.World.Filled

  A file tree in which directories are made and files are put, one after the other.
  Whatever is not put there anew stays as it was, and a path leads where it led; so
  what has been read of the other places may be read of them still.
-/

import FlagFold.Proofs.World.Files

namespace FlagFold

namespace Files

/-- `files` with directories made, and with files put at places of which `P` holds, none of them a
directory, one after the other. -/
inductive Filled (P : List Text → Prop) (files : Files) : Files → Prop
  | same : Filled P files files
  | make {mid : Files} (h : Filled P files mid) (place : List Text) :
      Filled P files (mid.addDirectory place)
  | put {mid : Files} {place : List Text} {bytes : List UInt8} (h : Filled P files mid)
      (hplace : P place) (hfree : mid.hasDirectory place = false) :
      Filled P files (mid.put place bytes)

namespace Filled

variable {P Q : List Text → Prop} {files mid files' : Files} {path : Text} {place : List Text}

theorem trans (h : Filled P files mid) (h' : Filled P mid files') : Filled P files files' := by
  induction h' with
  | same => exact h
  | make _ place ih => exact .make ih place
  | put _ hplace hfree ih => exact .put ih hplace hfree

theorem imp (h : Filled P files files') (hPQ : ∀ place, P place → Q place) :
    Filled Q files files' := by
  induction h with
  | same => exact .same
  | make _ place ih => exact .make ih place
  | put _ hplace hfree ih => exact .put ih (hPQ _ hplace) hfree

theorem grows (h : Filled P files files') : Grows files files' := by
  induction h with
  | same => exact .refl files
  | make _ place ih => exact ih.trans (grows_addDirectory _ place)
  | put _ _ _ ih => exact ih.trans (grows_put _ _ _)

/-- At a `place` of which `P` does not hold there is what was there. -/
theorem bytesAt?_eq (h : Filled P files files') (hplace : ¬ P place) :
    files'.bytesAt? place = files.bytesAt? place := by
  induction h with
  | same => rfl
  | make _ _ ih => exact ih
  | put _ hput _ ih =>
    rw [bytesAt?_put_of_ne, ih]
    rintro rfl
    exact hplace hput

/-- At a `place` that is a directory no file is put. -/
theorem bytesAt?_of_hasDirectory (h : Filled P files files') (hplace : files.hasDirectory place) :
    files'.bytesAt? place = files.bytesAt? place := by
  induction h with
  | same => rfl
  | make _ _ ih => exact ih
  | put hmid _ hfree ih =>
    rw [bytesAt?_put_of_ne, ih]
    rintro rfl
    rw [hmid.grows.directory _ hplace] at hfree
    cases hfree

/-- What is read of the file at `path` is read of it still, if nothing is put where `path` leads. -/
theorem read_eq_ok (h : Filled P files files') {bytes : List UInt8}
    (hplace : ¬ P (files.resolve path)) (hread : files.read path = .ok bytes) :
    files'.read path = .ok bytes := by
  obtain ⟨place, hpath, hbytes⟩ := read_eq_ok_iff.mp hread
  rw [resolve_of_locate hpath] at hplace
  rw [← h.bytesAt?_eq hplace] at hbytes
  exact read_eq_ok_iff.mpr ⟨place, h.grows.locate hpath, hbytes⟩

theorem holds (h : Filled P files files') {t : Text} (hplace : ¬ P (files.resolve path))
    (ht : files.Holds path t) : files'.Holds path t := by
  obtain ⟨bytes, hbytes, hread⟩ := ht
  exact ⟨bytes, hbytes, h.read_eq_ok hplace hread⟩

end Filled

/-- `Files.isFile` tells whether the file at `path` can be read. -/
theorem isFile_iff {files : Files} {path : Text} :
    files.isFile path ↔ ∃ bytes, files.read path = .ok bytes := by
  simp only [isFile, Option.isSome_iff_exists, Option.bind_eq_some_iff, read_eq_ok_iff]

/-- `Files.makeAlong` puts no file anywhere. -/
theorem filled_makeAlong (P : List Text → Prop) {files files' : Files} {here done way : List Text}
    (h : files.makeAlong here done way = .ok files') : Filled P files files' := by
  induction way generalizing files here done with
  | nil =>
    cases h
    exact .same
  | cons step rest ih =>
    unfold makeAlong at h
    dsimp only at h
    split at h
    case isTrue => exact ih h
    case isFalse =>
      split at h
      case isTrue => split at h <;> cases h
      case isFalse => exact (Filled.make .same _).trans (ih h)

end Files

namespace Job

/-- `makeDirectory` puts no file anywhere, whether or not it fails. -/
theorem filled_makeDirectory (P : List Text → Prop) (path : Text) (settings : Settings)
    (w : World) :
    Files.Filled P w.files ((makeDirectory path).run settings w).2.files := by
  unfold makeDirectory
  simp only [run_bind, run_checkPath, run_get, run_lift]
  cases pathFault? path with
  | some failure => exact .same
  | none =>
    simp only
    cases hmake : w.files.makeDirectory path with
    | error fault => exact .same
    | ok files =>
      simp only [Except.mapError, run_allow]
      cases settings.host.refusal? .makeDirectory path with
      | some refusal => exact .same
      | none => exact Files.filled_makeAlong P hmake

/-- `writeText` puts nothing but where `path` leads, whether or not it fails. -/
theorem filled_writeText (path t : Text) (settings : Settings) (w : World) :
    Files.Filled (· = w.files.resolve path) w.files
      ((writeText path t).run settings w).2.files := by
  have hwritten := written_writeText path t settings w
  generalize (writeText path t).run settings w = ran at hwritten
  obtain ⟨result, left⟩ := ran
  cases hwritten with
  | unopened => exact .same
  | noBytes place hplace hfree =>
    exact .put .same (Files.resolve_of_locate hplace).symm hfree
  | begun place bytes count refusal hplace hfree =>
    exact .put .same (Files.resolve_of_locate hplace).symm hfree
  | full place bytes hplace hfree =>
    exact .put .same (Files.resolve_of_locate hplace).symm hfree

/-- The text that `writeJson` writes for `value`: all of it, or as much as there is stack for. -/
def jsonText (host : Host) (value : Json) : Text :=
  match host.breakOff? value with
  | none => value.compact
  | some count => value.compact.take count

/-- `writeJson` writes all of a `value` for which there is stack enough, and the beginning of any
other. -/
theorem run_writeJson (path : Text) (value : Json) (settings : Settings) (w : World) :
    (writeJson path value).run settings w =
      match settings.host.breakOff? value with
      | none => (writeText path value.compact).run settings w
      | some count =>
        match (writeText path (value.compact.take count)).run settings w with
        | (.ok _, left) => (.error .stackExhausted, left)
        | (.error failure, left) => (.error failure, left) := by
  unfold writeJson
  rw [run_read_bind]
  cases settings.host.breakOff? value with
  | none => rfl
  | some count =>
    simp only [run_bind]
    rcases (writeText path (value.compact.take count)).run settings w with ⟨_ | _, left⟩ <;> rfl

theorem run_writeText_of_run_writeJson {path : Text} {value : Json} {settings : Settings}
    {w left : World} (h : (writeJson path value).run settings w = (.ok (), left)) :
    (writeText path value.compact).run settings w = (.ok (), left) := by
  rw [run_writeJson] at h
  split at h
  case h_1 => exact h
  case h_2 => split at h <;> cases h

/-- Where `writeJson` fails for another reason than a lack of stack, it does so as `writeText` fails
for the same text. -/
theorem run_writeText_of_run_writeJson_eq_error {path : Text} {value : Json} {settings : Settings}
    {w left : World} {failure : Failure} (hstack : failure ≠ .stackExhausted)
    (h : (writeJson path value).run settings w = (.error failure, left)) :
    (writeText path (jsonText settings.host value)).run settings w = (.error failure, left) := by
  rw [run_writeJson] at h
  unfold jsonText
  cases hbreak : settings.host.breakOff? value with
  | none =>
    rw [hbreak] at h
    exact h
  | some count =>
    simp only [hbreak] at h ⊢
    split at h
    case h_1 =>
      cases h
      exact absurd rfl hstack
    case h_2 hrun =>
      cases h
      exact hrun

theorem filled_writeJson (path : Text) (value : Json) (settings : Settings) (w : World) :
    Files.Filled (· = w.files.resolve path) w.files
      ((writeJson path value).run settings w).2.files := by
  rw [run_writeJson]
  cases settings.host.breakOff? value with
  | none => exact filled_writeText path value.compact settings w
  | some count =>
    have hfilled := filled_writeText path (value.compact.take count) settings w
    simp only
    rcases hrun : (writeText path (value.compact.take count)).run settings w with ⟨_ | _, left⟩
    all_goals
      rw [hrun] at hfilled
      exact hfilled

end Job
end FlagFold
