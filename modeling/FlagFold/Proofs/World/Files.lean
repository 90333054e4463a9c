/-
  FlagFold.Proofs.World.Files

  What is written to a file can be read from it.  Where a path leads is told by the
  links (`Files.resolve`), which no write changes; and once a path leads there, it does
  so whatever files and directories are made later (`Files.Grows`).  How far writing a
  text to a file gets is said once (`Job.Written`).
-/

import FlagFold.Proofs.World.Job
import FlagFold.World.Files
import Mathlib.Tactic.SplitIfs

namespace FlagFold

namespace Files

variable {files files' last : Files} {path : Text} {steps place : List Text} {bytes : List UInt8}

/-! ## Files that are put somewhere -/

theorem bytesAt?_put_self (files : Files) (steps : List Text) (bytes : List UInt8) :
    (files.put steps bytes).bytesAt? steps = some bytes := by
  obtain ⟨entries, links, directories⟩ := files
  unfold put bytesAt?
  split
  case isTrue hany =>
    -- The first entry at these steps is the one that is changed.
    dsimp only at hany ⊢
    induction entries with
    | nil => simp at hany
    | cons f rest ih =>
      by_cases hf : f.steps = steps
      · simp [hf]
      · simp only [List.any_cons, hf, decide_false, Bool.false_or] at hany
        simpa [hf] using ih hany
  case isFalse hnone =>
    have hrest : entries.find? (·.steps = steps) = none := by
      simpa [List.find?_eq_none] using hnone
    simp [List.find?_append, hrest]

theorem bytesAt?_put_of_ne {other : List Text} (h : other ≠ steps) :
    (files.put steps bytes).bytesAt? other = files.bytesAt? other := by
  unfold put bytesAt?
  split
  case isTrue =>
    rw [List.find?_map]
    have hpredicate : (fun f : FileEntry => decide (f.steps = other)) ∘
        (fun f => if f.steps = steps then ⟨steps, bytes⟩ else f) =
          fun f => decide (f.steps = other) := by
      funext f
      simp only [Function.comp_apply]
      split <;> simp_all
    rw [hpredicate, Option.map_map]
    -- What is found is not the entry that is changed.
    cases hfound : files.entries.find? (·.steps = other) with
    | none => rfl
    | some f =>
      have hf : f.steps = other := by simpa using List.find?_some hfound
      simp [hf, h]
  case isFalse => simp [List.find?_append, h.symm]

/-- What `Files.put` puts at `steps` takes the place of what was put there before. -/
theorem put_put (files : Files) (steps : List Text) (bytes bytes' : List UInt8) :
    (files.put steps bytes).put steps bytes' = files.put steps bytes' := by
  by_cases hany : files.entries.any (·.steps = steps)
  · have hstill : (files.entries.map fun f =>
        if f.steps = steps then ⟨steps, bytes⟩ else f).any (·.steps = steps) := by
      obtain ⟨f, hf, hsteps⟩ := List.any_eq_true.mp hany
      refine List.any_eq_true.mpr ⟨_, List.mem_map_of_mem hf, ?_⟩
      rw [if_pos (of_decide_eq_true hsteps)]
      exact decide_eq_true rfl
    simp only [put, if_pos hany, if_pos hstill, List.map_map]
    congr 1
    refine List.map_congr_left fun f _ => ?_
    by_cases hf : f.steps = steps <;> simp [hf]
  · have hthere : (files.entries ++ [(⟨steps, bytes⟩ : FileEntry)]).any (·.steps = steps) := by
      simp
    have hothers : files.entries.map (fun f => if f.steps = steps then ⟨steps, bytes'⟩ else f) =
        files.entries := by
      refine (List.map_congr_left fun f hf => if_neg fun hsteps => hany ?_).trans (List.map_id' _)
      exact List.any_eq_true.mpr ⟨f, hf, decide_eq_true hsteps⟩
    simp only [put, if_neg hany, if_pos hthere, List.map_append, hothers]
    simp

/-! ## Directories that are made -/

theorem hasDirectory_iff : files.hasDirectory steps ↔
    steps = [] ∨ steps = [rootStep] ∨ (∃ made ∈ files.directories, steps <+: made) ∨
      ∃ place ∈ files.places, steps <+: place ∧ steps.length < place.length := by
  simp [hasDirectory, or_assoc]

/-- The links of `files'` are those of `files`, and each directory is still there: what holds once
files have been put and directories made. -/
structure Grows (files files' : Files) : Prop where
  links : files'.links = files.links
  directory : ∀ steps, files.hasDirectory steps → files'.hasDirectory steps

theorem Grows.refl (files : Files) : Grows files files := ⟨rfl, fun _ => id⟩

theorem Grows.trans (h : Grows files files') (h' : Grows files' last) : Grows files last :=
  ⟨h'.links.trans h.links, fun steps => h'.directory steps ∘ h.directory steps⟩

theorem mem_places_put (hplace : place ∈ files.places) :
    place ∈ (files.put steps bytes).places := by
  rcases List.mem_append.mp hplace with hentry | hlink
  · obtain ⟨f, hf, rfl⟩ := List.mem_map.mp hentry
    unfold put
    split
    case isTrue =>
      refine List.mem_append_left _ (List.mem_map.mpr ⟨_, List.mem_map_of_mem hf, ?_⟩)
      split
      case isTrue hsteps => exact hsteps.symm
      case isFalse => rfl
    case isFalse =>
      exact List.mem_append_left _ (List.mem_map_of_mem (List.mem_append_left _ hf))
  · unfold put
    split <;> exact List.mem_append_right _ hlink

theorem eq_or_mem_of_mem_places_put (hplace : place ∈ (files.put steps bytes).places) :
    place = steps ∨ place ∈ files.places := by
  unfold put at hplace
  split at hplace
  · rcases List.mem_append.mp hplace with hentry | hlink
    · obtain ⟨f, hf, rfl⟩ := List.mem_map.mp hentry
      obtain ⟨g, hg, rfl⟩ := List.mem_map.mp hf
      split
      case isTrue => exact .inl rfl
      case isFalse => exact .inr (List.mem_append_left _ (List.mem_map_of_mem hg))
    · exact .inr (List.mem_append_right _ hlink)
  · rcases List.mem_append.mp hplace with hentry | hlink
    · obtain ⟨f, hf, rfl⟩ := List.mem_map.mp hentry
      rcases List.mem_append.mp hf with hf | hf
      · exact .inr (List.mem_append_left _ (List.mem_map_of_mem hf))
      · exact .inl (congrArg _ (List.mem_singleton.mp hf))
    · exact .inr (List.mem_append_right _ hlink)

theorem links_put (files : Files) (steps : List Text) (bytes : List UInt8) :
    (files.put steps bytes).links = files.links := by
  unfold put
  split <;> rfl

theorem directories_put (files : Files) (steps : List Text) (bytes : List UInt8) :
    (files.put steps bytes).directories = files.directories := by
  unfold put
  split <;> rfl

theorem grows_put (files : Files) (steps : List Text) (bytes : List UInt8) :
    Grows files (files.put steps bytes) where
  links := links_put files steps bytes
  directory other h := by
    rw [hasDirectory_iff, directories_put]
    rcases hasDirectory_iff.mp h with hnil | hroot | hmade | ⟨place, hplace, hbelow⟩
    · exact .inl hnil
    · exact .inr (.inl hroot)
    · exact .inr (.inr (.inl hmade))
    · exact .inr (.inr (.inr ⟨place, mem_places_put hplace, hbelow⟩))

theorem grows_addDirectory (files : Files) (steps : List Text) :
    Grows files (files.addDirectory steps) where
  links := rfl
  directory other h := by
    rw [hasDirectory_iff]
    rcases hasDirectory_iff.mp h with hnil | hroot | ⟨made, hmade, hbelow⟩ | hplace
    · exact .inl hnil
    · exact .inr (.inl hroot)
    · exact .inr (.inr (.inl ⟨made, List.mem_append_left _ hmade, hbelow⟩))
    · exact .inr (.inr (.inr hplace))

/-- To put a file at `place` makes no directory of `place`. -/
theorem hasDirectory_put_self (h : files.hasDirectory place = false) (bytes : List UInt8) :
    (files.put place bytes).hasDirectory place = false := by
  rw [Bool.eq_false_iff, Ne, hasDirectory_iff, directories_put]
  rw [Bool.eq_false_iff, Ne, hasDirectory_iff] at h
  rintro (hnil | hroot | hmade | ⟨other, hother, hbelow⟩)
  · exact h (.inl hnil)
  · exact h (.inr (.inl hroot))
  · exact h (.inr (.inr (.inl hmade)))
  · rcases eq_or_mem_of_mem_places_put hother with rfl | hold
    · exact Nat.lt_irrefl _ hbelow.2
    · exact h (.inr (.inr (.inr ⟨other, hold, hbelow⟩)))

/-! ## Where a path leads -/

/-- `Files.next` is told by the links. -/
theorem next_congr (h : files'.links = files.links) : files'.next = files.next := by
  funext here step
  simp only [next, ends, h]

theorem resolve_congr (h : files'.links = files.links) (path : Text) :
    files'.resolve path = files.resolve path := by
  rw [resolve, resolve, next_congr h]

theorem foldl_follow_none (files : Files) (way : List Text) :
    way.foldl (follow files) none = none := by
  induction way with
  | nil => rfl
  | cons step rest ih => exact ih

theorem follow_eq_some {here there : List Text} {step : Text} :
    follow files (some here) step = some there ↔
      (leadsDown here step || files.hasDirectory here) ∧ files.next here step = there := by
  unfold follow
  simp only
  split
  case isTrue h => simp [h]
  case isFalse h => simp [h]

/-- A `way` that can be followed to its end leads where `Files.next` leads along it. -/
theorem foldl_next_of_follow {way here : List Text}
    (h : way.foldl (follow files) (some here) = some place) :
    way.foldl files.next here = place := by
  induction way generalizing here with
  | nil => exact Option.some.inj h
  | cons step rest ih =>
    rw [List.foldl_cons] at h ⊢
    cases hnext : follow files (some here) step with
    | none =>
      rw [hnext, foldl_follow_none] at h
      cases h
    | some there =>
      rw [hnext] at h
      rw [(follow_eq_some.mp hnext).2]
      exact ih h

theorem resolve_of_locate (h : files.locate path = some place) : files.resolve path = place := by
  unfold locate at h
  split at h
  case isTrue => cases h
  case isFalse => exact foldl_next_of_follow h

/-- A `path` that leads to `place` leads there still when `files` have grown. -/
theorem Grows.locate (hgrows : Grows files files') (h : files.locate path = some place) :
    files'.locate path = some place := by
  unfold Files.locate at h ⊢
  split_ifs at h ⊢
  suffices ∀ (way here : List Text), way.foldl (follow files) (some here) = some place →
      way.foldl (follow files') (some here) = some place from this _ _ h
  intro way
  induction way with
  | nil => exact fun here h => h
  | cons step rest ih =>
    intro here h
    rw [List.foldl_cons] at h ⊢
    cases hnext : follow files (some here) step with
    | none =>
      rw [hnext, foldl_follow_none] at h
      cases h
    | some there =>
      rw [hnext] at h
      obtain ⟨hgo, hthere⟩ := follow_eq_some.mp hnext
      have hnext' : follow files' (some here) step = some there := by
        rw [follow_eq_some, next_congr hgrows.links]
        refine ⟨?_, hthere⟩
        rw [Bool.or_eq_true] at hgo ⊢
        exact hgo.imp_right (hgrows.directory here)
      rw [hnext']
      exact ih there h

/-! ## What is written -/

theorem read_eq_ok_iff {bytes : List UInt8} :
    files.read path = .ok bytes ↔
      ∃ place, files.locate path = some place ∧ files.bytesAt? place = some bytes := by
  unfold read
  cases hplace : files.locate path with
  | none => simp
  | some place =>
    cases hbytes : files.bytesAt? place with
    | none =>
      simp only [Option.some.injEq, exists_eq_left', hbytes, reduceCtorEq, iff_false]
      split_ifs <;> exact nofun
    | some found => simp [hbytes]

theorem toOption_read (files : Files) (path : Text) :
    (files.read path).toOption = (files.locate path).bind files.bytesAt? := by
  have hread := @read_eq_ok_iff files path
  cases hfound : (files.locate path).bind files.bytesAt? with
  | some bytes =>
    rw [hread.mpr (Option.bind_eq_some_iff.mp hfound)]
    rfl
  | none =>
    cases hrun : files.read path with
    | error => rfl
    | ok bytes =>
      rw [Option.bind_eq_some_iff.mpr (hread.mp hrun)] at hfound
      cases hfound

/-- `Files.write` puts a file at the place where `path` leads, in a directory and where no directory
is. -/
theorem write_eq_ok_iff :
    files.write path bytes = .ok files' ↔
      ∃ place, files.locate path = some place ∧ files.hasDirectory place = false ∧
        files.hasDirectory place.dropLast ∧ files' = files.put place bytes := by
  unfold write
  cases files.locate path with
  | none => simp
  | some place =>
    cases hfree : files.hasDirectory place with
    | true => simp [hfree]
    | false =>
      cases hparent : files.hasDirectory place.dropLast with
      | true => simp [hfree, hparent, eq_comm (a := files')]
      | false => simp [hfree, hparent]

/-- A file that has been written at `path` can be written there again, with other bytes. -/
theorem write_of_write (h : files.write path bytes = .ok files') (bytes' : List UInt8) :
    ∃ place, files.locate path = some place ∧ files.hasDirectory place = false ∧
      files' = files.put place bytes ∧ files'.write path bytes' = .ok (files.put place bytes') := by
  obtain ⟨place, hplace, hfree, hparent, rfl⟩ := write_eq_ok_iff.mp h
  have hgrows := grows_put files place bytes
  refine ⟨place, hplace, hfree, rfl, write_eq_ok_iff.mpr ⟨place, hgrows.locate hplace, ?_, ?_, ?_⟩⟩
  · exact hasDirectory_put_self hfree bytes
  · exact hgrows.directory _ hparent
  · exact (put_put files place bytes bytes').symm

/-- The bytes of the file at `path` are those of `t`. -/
def Holds (files : Files) (path t : Text) : Prop :=
  ∃ bytes, t.utf8? = some bytes ∧ files.read path = .ok bytes

theorem holds_iff_of_read {t : Text} (h : files.read path = .ok bytes) :
    files.Holds path t ↔ t.utf8? = some bytes := by
  simp [Holds, h]

end Files

namespace Job

variable {path t : Text} {settings : Settings} {w left : World}

/-- Why the file at `path` cannot be opened to be written. -/
def unopened? (host : Host) (files : Files) (path : Text) : Option Failure :=
  match pathFault? path with
  | some failure => some failure
  | none =>
    match host.refusal? .write path with
    | some refusal => some (.file (.refused refusal))
    | none =>
      match files.write path [] with
      | .error fault => some (.file fault)
      | .ok _ => none

/-- How far writing the text `t` to the file at `path` gets: the file is not opened, or it is left
with none or some of the bytes, or it holds all of them. -/
inductive Written (host : Host) (path t : Text) (w : World) : Except Failure Unit → World → Prop
  | unopened (failure : Failure) (h : unopened? host w.files path = some failure) :
      Written host path t w (.error failure) w
  | noBytes (place : List Text) (hplace : w.files.locate path = some place)
      (hfree : w.files.hasDirectory place = false) (ht : t.utf8? = none) :
      Written host path t w (.error .loneSurrogate) { w with files := w.files.put place [] }
  | begun (place : List Text) (bytes : List UInt8) (count : Nat) (refusal : Refusal)
      (hplace : w.files.locate path = some place) (hfree : w.files.hasDirectory place = false)
      (ht : t.utf8? = some bytes) (hshort : host.shortfall? path bytes = some (count, refusal)) :
      Written host path t w (.error (.file (.refused refusal)))
        { w with files := w.files.put place (bytes.take count) }
  | full (place : List Text) (bytes : List UInt8) (hplace : w.files.locate path = some place)
      (hfree : w.files.hasDirectory place = false) (ht : t.utf8? = some bytes) :
      Written host path t w (.ok ()) { w with files := w.files.put place bytes }

theorem run_putBytes (path : Text) (bytes : List UInt8) (settings : Settings) (w : World) :
    (putBytes path bytes).run settings w =
      match w.files.write path bytes with
      | .error fault => (.error (.file fault), w)
      | .ok files => (.ok (), { w with files }) := by
  unfold putBytes
  simp only [run_bind, run_get, run_lift]
  cases w.files.write path bytes <;> rfl

/-- `Job.writeText` is one of the cases of `Written`: it makes the file empty first, and fills it
then. -/
theorem written_writeText (path t : Text) (settings : Settings) (w : World) :
    Written settings.host path t w ((writeText path t).run settings w).1
      ((writeText path t).run settings w).2 := by
  have hunopened : ∀ failure, unopened? settings.host w.files path = some failure →
      Written settings.host path t w (.error failure) w := .unopened
  unfold writeText
  unfold unopened? at hunopened
  simp only [run_bind, run_checkPath, run_allow, run_putBytes]
  cases hfault : pathFault? path with
  | some failure => exact hunopened failure (by rw [hfault])
  | none =>
    simp only [hfault] at hunopened ⊢
    cases hrefusal : settings.host.refusal? .write path with
    | some refusal => exact hunopened _ (by rw [hrefusal])
    | none =>
      simp only [hrefusal] at hunopened ⊢
      cases hmake : w.files.write path [] with
      | error fault => exact hunopened _ (by rw [hmake])
      | ok made =>
        simp only
        -- The file is open, and holds nothing, before it shows that the text has no encoding.
        cases ht : t.utf8? with
        | none =>
          obtain ⟨place, hplace, hfree, rfl, -⟩ := Files.write_of_write hmake []
          exact .noBytes place hplace hfree ht
        | some bytes =>
          simp only [run_read_bind]
          cases hshort : settings.host.shortfall? path bytes with
          | none =>
            obtain ⟨place, hplace, hfree, -, hfill⟩ := Files.write_of_write hmake bytes
            simp only [run_putBytes, hfill]
            exact .full place bytes hplace hfree ht
          -- The bytes that are taken fill the file like any others.
          | some cut =>
            obtain ⟨count, refusal⟩ := cut
            obtain ⟨place, hplace, hfree, -, hfill⟩ :=
              Files.write_of_write hmake (bytes.take count)
            simp only [run_bind, run_putBytes, hfill]
            exact .begun place bytes count refusal hplace hfree ht hshort

theorem exists_of_run_writeText (h : (writeText path t).run settings w = (.ok (), left)) :
    ∃ place bytes, w.files.locate path = some place ∧ t.utf8? = some bytes ∧
      left.files = w.files.put place bytes := by
  have hwritten := written_writeText path t settings w
  rw [h] at hwritten
  cases hwritten with
  | full place bytes hplace hfree ht => exact ⟨place, bytes, hplace, ht, rfl⟩

theorem holds_writeText (h : (writeText path t).run settings w = (.ok (), left)) :
    left.files.Holds path t := by
  obtain ⟨place, bytes, hplace, hbytes, hleft⟩ := exists_of_run_writeText h
  refine ⟨bytes, hbytes, Files.read_eq_ok_iff.mpr ⟨place, ?_, ?_⟩⟩
  · rw [hleft]
    exact (Files.grows_put _ _ _).locate hplace
  · rw [hleft]
    exact Files.bytesAt?_put_self _ place bytes

end Job
end FlagFold
