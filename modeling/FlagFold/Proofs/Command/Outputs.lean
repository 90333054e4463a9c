/-
  FlagFold.Proofs.Command.Outputs

  What a run over a directory leaves in the output directory.  Files are read and
  written one after the other over one file tree, so the output for one may come to
  stand where another is still to be read, or where the output for another stands.
  Where it does not (`Undisturbed`), the output for a file is made from what its source
  held before the run, and is left alone to the end.  Where no links lead elsewhere, it
  only matters whether an earlier output goes to the source.
-/

import FlagFold.Proofs.Command.Batch
import FlagFold.Proofs.Command.Gathered
import FlagFold.Proofs.Feature.Store

namespace FlagFold.Command

open PathText Sources

/-! ## What comes of the work on a file -/

theorem filled_attempt (task : FileTask) (path : Text) (settings : Settings) (w : World) :
    Files.Filled (task.Puts w.files) w.files ((attempt task path).run settings w).2.files := by
  have hkeeps := (dependsOn_produce task path (task.report path)).keeps settings w
  rw [run_attempt]
  cases hproduce : (produce task path (task.report path)).run settings w with
  | mk produced mid =>
    rw [hproduce] at hkeeps
    dsimp only at hkeeps
    rw [← hkeeps]
    cases produced with
    | error failure => exact .same
    | ok made =>
      obtain ⟨code, map, report⟩ := made
      have hdeliver := filled_deliver (fun hnone => map_eq_none_of_produce hnone
        (Job.mayYield_of_run hproduce)) code settings mid
      dsimp only
      cases hrun : (deliver task code map).run settings mid with
      | mk delivered left =>
        rw [hrun] at hdeliver
        cases delivered <;> exact hdeliver

section Handled

variable {settings : Settings} {task : FileTask} {path : Text} {w left : World}
  {report : FileReport}

/-- What `attempt` leaves of the files is what a `Handled` file leaves. -/
theorem Handled.files_eq (h : Handled settings task path w report left) :
    left.files = ((attempt task path).run settings w).2.files := by
  cases h with
  | done hproduce hdeliver =>
    rw [run_attempt, hproduce]
    dsimp only
    rw [hdeliver]
  | failed hattempt =>
    rw [hattempt]
    exact Job.keepsFiles_error _ settings _

theorem Handled.filled (h : Handled settings task path w report left) :
    Files.Filled (task.Puts w.files) w.files left.files := by
  rw [h.files_eq]
  exact filled_attempt task path settings w

/-- Work on a file without an error has made the code, which stands where it is to go. -/
theorem Handled.exists_of_fine (h : Handled settings task path w report left)
    (hfine : report.error = none) :
    ∃ code map,
      ((produce task path (task.report path)).run settings w).1 = .ok (code, map, report) ∧
      (task.withMap = false → map = none) ∧
      ∀ output, task.outputPath = some output → Stands left.files output code map := by
  cases h with
  | done hproduce hdeliver hpath hfine' hwritten =>
    exact ⟨_, _, by rw [hproduce],
      fun hnone => map_eq_none_of_produce hnone (Job.mayYield_of_run hproduce), hwritten⟩
  | failed hattempt hreason hpath herror =>
    rw [hfine] at herror
    cases herror

/-- If `produce` fails, the report has the message of its `failure`. -/
theorem Handled.error_eq (h : Handled settings task path w report left) {failure : Failure}
    (hproduce : ((produce task path (task.report path)).run settings w).1 = .error failure) :
    report.error = some failure.message := by
  cases h with
  | done hrun =>
    rw [hrun] at hproduce
    cases hproduce
  | failed hattempt hreason hpath herror =>
    rw [run_attempt] at hattempt
    generalize (produce task path (task.report path)).run settings w = ran at hproduce hattempt
    obtain ⟨result, mid⟩ := ran
    cases hproduce
    cases hattempt
    exact herror

end Handled

/-! ## What a run over the files of a directory writes -/

/-- The options `o` send the output for the files of the directory `d` to `dir`, another one or the
same. -/
structure Redirects (o : Options) (files : Files) (d : List Text) (dir : Text) : Prop where
  output : o.outputDir = some dir
  named : dir ≠ []
  input : files.IsInput (o.input.getD []) d

/-- `place` is where the output for one of `paths` goes, or the map beside it. -/
def Outputs (files : Files) (withMap : Bool) (input dir : Text) (paths : List Text)
    (place : List Text) : Prop :=
  ∃ path ∈ paths, files.IsPlaceOf withMap (mirrored input dir path) place

namespace Redirects

variable {o : Options} {files files' : Files} {d : List Text} {dir path : Text}
  {features : FeatureMap} {P : List Text → Prop}

theorem outputPath_eq (h : Redirects o files d dir) (features : FeatureMap) (path : Text) :
    (fileTask o features files path).outputPath = some (mirrored (o.input.getD []) dir path) := by
  have hnamed : dir.isEmpty = false := by simpa using h.named
  simp only [fileTask, h.output, hnamed, Bool.false_eq_true, if_false,
    Sources.outputPath_eq h.input]

/-- `o` still redirects the output from `d` to `dir` when files are put somewhere. -/
theorem filled (h : Redirects o files d dir) (hfilled : Files.Filled P files files') :
    Redirects o files' d dir where
  output := h.output
  named := h.named
  input := h.input.filled hfilled

/-- What is to be done with a file does not change as files are put somewhere. -/
theorem fileTask_eq (h : Redirects o files d dir) (h' : Redirects o files' d dir)
    (features : FeatureMap) (path : Text) :
    fileTask o features files' path = fileTask o features files path := by
  have houtput := (h'.outputPath_eq features path).trans (h.outputPath_eq features path).symm
  simpa [fileTask] using houtput

theorem filled_outputs (h : Redirects o files d dir)
    (hfilled : Files.Filled ((fileTask o features files path).Puts files) files files') :
    Files.Filled (Outputs files o.sourceMap (o.input.getD []) dir [path]) files files' := by
  refine hfilled.imp fun place ⟨output, houtput, hplace⟩ => ⟨path, List.mem_singleton_self path, ?_⟩
  rw [h.outputPath_eq] at houtput
  exact Option.some.inj houtput ▸ hplace

end Redirects

section Outputs

variable {files files' : Files} {withMap : Bool} {input dir path : Text} {place : List Text}
  {paths more : List Text}

theorem isPlaceOf_congr (h : files'.links = files.links) (withMap : Bool) (path : Text) :
    files'.IsPlaceOf withMap path = files.IsPlaceOf withMap path := by
  funext place
  rw [Files.IsPlaceOf, Files.IsPlaceOf, Files.resolve_congr h, Files.resolve_congr h]

theorem Outputs.mono (h : Outputs files withMap input dir paths place) (hsub : paths ⊆ more) :
    Outputs files withMap input dir more place := by
  obtain ⟨path, hpath, hplace⟩ := h
  exact ⟨path, hsub hpath, hplace⟩

/-- If output for `paths` is put first, and then output for `more`, all of it is where it would go
from the start. -/
theorem filled_outputs_append {last : Files}
    (h : Files.Filled (Outputs files withMap input dir paths) files files')
    (h' : Files.Filled (Outputs files' withMap input dir more) files' last) :
    Files.Filled (Outputs files withMap input dir (paths ++ more)) files last := by
  have hlater : Files.Filled (Outputs files withMap input dir more) files' last :=
    h'.imp fun place ⟨path, hpath, hplace⟩ =>
      ⟨path, hpath, isPlaceOf_congr h.grows.links withMap _ ▸ hplace⟩
  exact (h.imp fun _ hplace => hplace.mono (List.subset_append_left paths more)).trans
    (hlater.imp fun _ hplace => hplace.mono (List.subset_append_right paths more))

end Outputs

section Batch

variable {settings : Settings} {o : Options} {features : FeatureMap} {w left : World}
  {d : List Text} {dir path : Text} {paths : List Text} {reports : List FileReport}

/-- A `Batch` has put nothing but the `Outputs` of its paths. -/
theorem Batch.filled (h : Batch settings (fileTask o features) w paths reports left)
    (hredirects : Redirects o w.files d dir) :
    Files.Filled (Outputs w.files o.sourceMap (o.input.getD []) dir paths) w.files left.files := by
  induction h with
  | nil => exact .same
  | cons hfile hrest ih =>
    have hfirst := hredirects.filled_outputs hfile.filled
    exact filled_outputs_append hfirst (ih (hredirects.filled hfirst))

/-- A `Batch` over `before ++ path :: after` comes to `path` in some world `turn`, when those
`before` it are done with. -/
theorem Batch.exists_of_append {task : Files → Text → FileTask} {before after : List Text}
    (h : Batch settings task w (before ++ path :: after) reports left) :
    ∃ turn next done report rest, reports = done ++ report :: rest ∧
      Batch settings task w before done turn ∧
      Handled settings (task turn.files path) path turn report next ∧
      Batch settings task next after rest left := by
  induction before generalizing w reports with
  | nil =>
    cases h with
    | cons hfile hrest => exact ⟨_, _, [], _, _, rfl, .nil w, hfile, hrest⟩
  | cons first before ih =>
    cases h with
    | cons hfile hrest =>
      obtain ⟨turn, next, done, report, rest, rfl, hbefore, hturn, hafter⟩ := ih hrest
      exact ⟨turn, next, _ :: done, report, rest, rfl, .cons hfile hbefore, hturn, hafter⟩

end Batch

/-! ## Sources and output apart -/

/-- The output for one of the paths `before` goes where the source at `path` is. -/
def Overwritten (files : Files) (input dir : Text) (before : List Text) (path : Text) : Prop :=
  ∃ earlier ∈ before, files.resolve (mirrored input dir earlier) = files.resolve path

instance (files : Files) (input dir : Text) (before : List Text) (path : Text) :
    Decidable (Overwritten files input dir before path) :=
  inferInstanceAs (Decidable (∃ earlier ∈ before, _))

/-- What is written for other files leaves the work on the file at `path` alone: what is written
`before` goes neither to the file nor, with maps, to that beside it, and what is written `after`
goes neither to its output nor to the map beside that, which are two files. The file itself is
there. -/
structure Undisturbed (files : Files) (withMap : Bool) (input dir : Text)
    (before after : List Text) (path : Text) : Prop where
  readable : ∃ bytes, files.read path = .ok bytes
  source : ∀ place, files.IsPlaceOf withMap path place →
    ¬ Outputs files withMap input dir before place
  output : ∀ place, files.IsPlaceOf withMap (mirrored input dir path) place →
    ¬ Outputs files withMap input dir after place
  apart : withMap →
    files.resolve (mirrored input dir path) ≠ files.resolve (mirrored input dir path ++ text ".map")

section Apart

variable {files files' : Files} {withMap : Bool} {input dir path : Text} {d : List Text}
  {before after : List Text}

/-- A source that can be read, and the map beside it, are as they were if nothing has been put
there. -/
theorem sameSource_of_filled {P : List Text → Prop} (hinput : files.IsInput input d)
    (hpath : IsGathered input path) (hread : ∃ bytes, files.read path = .ok bytes)
    (hfilled : Files.Filled P files files')
    (hfree : ∀ place, files.IsPlaceOf withMap path place → ¬ P place) :
    SameSource withMap path files files' := by
  constructor
  · obtain ⟨bytes, hbytes⟩ := hread
    rw [hbytes, hfilled.read_eq_ok (hfree _ (.inl rfl)) hbytes]
  · intro hmap
    obtain ⟨place, hplace⟩ := hpath.exists_locate_map hinput
    have hlocate : files.locate (mapPath path) = some place := by
      rw [mapPath, Files.locate_normalize (by simp [text]), hplace]
    rw [Files.toOption_read, Files.toOption_read, hlocate, hfilled.grows.locate hlocate,
      Option.bind_some, Option.bind_some, hfilled.bytesAt?_eq]
    exact hfree place (.inr ⟨hmap, (Files.resolve_of_locate hplace).symm⟩)

/-- Where `d` and `dir` are `Unlinked`, a source is `Undisturbed` unless it is `Overwritten`. -/
theorem undisturbed_of_unlinked (hinput : files.IsInput input d) (hd : files.Unlinked d)
    (hdir : files.Unlinked (files.resolve dir)) (withMap : Bool)
    (hread : ∃ bytes, files.read path = .ok bytes)
    (hbefore : ∀ earlier ∈ before, IsGathered input earlier) (hpath : IsGathered input path)
    (hafter : ∀ later ∈ after, IsGathered input later) (hother : path ∉ after)
    (hapart : ¬ Overwritten files input dir before path) :
    Undisturbed files withMap input dir before after path where
  readable := hread
  source place hplace := by
    rintro ⟨earlier, hearlier, hput⟩
    have hgathered := hbefore earlier hearlier
    rw [← hpath.shown] at hplace
    have hspot := hplace.isSpot (hinput.resolve_eq.symm ▸ hd) hpath.source
    rw [hinput.resolve_eq] at hspot
    refine hapart ⟨earlier, hearlier, ?_⟩
    rw [mirrored, Files.resolve_below files dir hgathered.source.names,
      Files.foldl_next_of_unlinked hdir hgathered.source.names, hpath.resolve_eq hinput hd]
    exact (hput.isSpot hdir hgathered.source).append_eq hgathered.source hpath.source hspot
  output place hplace := by
    rintro ⟨later, hlater, hput⟩
    have hgathered := hafter later hlater
    have hinner := List.append_cancel_left
      ((hput.isSpot hdir hgathered.source).append_eq hgathered.source hpath.source
        (hplace.isSpot hdir hpath.source))
    rw [← hgathered.shown, hinner, hpath.shown] at hlater
    exact hother hlater
  apart _ := by
    rw [mirrored, below_append_map dir hpath.source.ne_nil hpath.source.names,
      Files.resolve_below files dir hpath.source.names,
      Files.resolve_below files dir hpath.source.names_map,
      Files.foldl_next_of_unlinked hdir hpath.source.names,
      Files.foldl_next_of_unlinked hdir hpath.source.names_map]
    exact hpath.source.append_ne_append_map _ _

end Apart

/-! ## The whole run -/

theorem keepsFiles_knownFeatures (o : Options) : (knownFeatures o).KeepsFiles := by
  unfold knownFeatures
  refine (FeatureStore.keepsFiles_request _ _).bind fun request => ?_
  refine (FeatureStore.keepsFiles_resolveOrWarn _ _).bind fun features => ?_
  dsimp only
  split
  · exact (Job.keepsFiles_info _).bind fun _ => Job.keepsFiles_pure _
  · exact Job.keepsFiles_pure _

theorem files_summedUp (o : Options) (settings : Settings) (reports : List FileReport) (w : World) :
    (summedUp o settings reports w).files = w.files := by
  unfold summedUp
  split <;> rfl

section Run

variable {o : Options} {settings : Settings} {w ready : World} {paths : List Text}
  {features : Table Json} {d : List Text} {dir : Text}

/-- The work on files begins with the files as they are. -/
theorem Accepts.files_eq (h : Accepts o settings w paths features ready) :
    ready.files = w.files := by
  obtain ⟨checked, hbase, hknown⟩ := h.known
  have hchecked := keepsFiles_checkFeaturesBase (!o.features.isEmpty) settings w
  have hready := keepsFiles_knownFeatures o settings checked
  rw [hbase] at hchecked
  rw [hknown] at hready
  exact hready.trans hchecked

/-- How a run comes out that is done with some files, as `reports` say, and leaves `rest`: it goes
on to the last file unless there is a failure that `endsRun`. -/
def ComesOut (reports : List FileReport) (rest : List Text) : Except Failure Nat → Prop
  | .ok status => rest = [] ∧ status = if reports.any (·.failed) then 1 else 0
  | .error failure => rest ≠ [] ∧ failure.endsRun

/-- A run is `done` with some of `paths`, all of them unless it ends with a failure, and of the
`rest` it puts nothing but `Outputs`. -/
theorem Accepts.exists_batch (h : Accepts o settings w paths features ready)
    (hredirects : Redirects o w.files d dir) :
    ∃ done rest reports left, paths = done ++ rest ∧
      ComesOut reports rest ((run o).run settings w).1 ∧
      Batch settings (fileTask o (.ofJson features)) ready done reports left ∧
      Files.Filled (Outputs left.files o.sourceMap (o.input.getD []) dir rest) left.files
        ((run o).run settings w).2.files := by
  have hsome : ∀ path ∈ paths, path ≠ [] :=
    fun path hpath => Sources.ne_nil_of_mem_collect (h.collects ▸ hpath)
  have hready : Redirects o ready.files d dir := h.files_eq.symm ▸ hredirects
  rw [h.run_eq, Job.run_bind]
  -- All files are handled, or the run ends in the middle of one, which is the first of `rest`.
  rcases transformAll_cases settings (fileTask o (.ofJson features)) hsome ready with
    ⟨reports, left, hbatch, hall⟩ | ⟨failure, left, hstops, hall⟩
  · refine ⟨paths, [], reports, left, (List.append_nil paths).symm, ?_, hbatch, ?_⟩
    · rw [hall]
      dsimp only
      rw [run_conclude]
      exact ⟨rfl, rfl⟩
    · rw [hall]
      dsimp only
      rw [run_conclude, files_summedUp]
      exact .same
  · obtain ⟨before, path, after, reports, mid, rfl, hbatch, hattempt, hends⟩ := hstops
    have hmid := hready.filled (hbatch.filled hready)
    have hstopped := hmid.filled_outputs
      (filled_attempt (fileTask o (.ofJson features) mid.files path) path settings mid)
    rw [hattempt] at hstopped
    refine ⟨before, path :: after, reports, mid, rfl, ?_, hbatch, ?_⟩
    · rw [hall]
      exact ⟨List.cons_ne_nil _ _, hends⟩
    · rw [hall]
      exact hstopped.imp fun _ hplace => hplace.mono (by simp)

/-- No source is `Overwritten` if the output goes to the input directory itself, or if no source is
below the output directory. -/
theorem not_overwritten (hinput : w.files.IsInput (o.input.getD []) d)
    (hd : w.files.Unlinked d) (hdir : w.files.Unlinked (w.files.resolve dir))
    (hpaths : ∀ path ∈ paths, IsGathered (o.input.getD []) path) (honce : paths.Nodup)
    (harranged : w.files.resolve dir = d ∨
      ∀ path ∈ paths, ¬ w.files.resolve dir <+: w.files.resolve path)
    {before after : List Text} {path : Text} (hsplit : paths = before ++ path :: after) :
    ¬ Overwritten w.files (o.input.getD []) dir before path := by
  subst hsplit
  rintro ⟨earlier, hearlier, hplace⟩
  have hmem : path ∈ before ++ path :: after := by simp
  have hfirst := hpaths earlier (List.mem_append_left _ hearlier)
  have hsecond := hpaths path hmem
  rw [mirrored, Files.resolve_below _ dir hfirst.source.names,
    Files.foldl_next_of_unlinked hdir hfirst.source.names] at hplace
  rcases harranged with hsame | hnone
  · rw [hsame, hsecond.resolve_eq hinput hd] at hplace
    have hinner := List.append_cancel_left hplace
    rw [← hfirst.shown, hinner, hsecond.shown] at hearlier
    exact (List.nodup_append.mp honce).2.2 path hearlier path List.mem_cons_self rfl
  · exact hnone path hmem ⟨_, hplace⟩

/-- The output for the file at `path` goes to `output`, and comes from what the file and the map
beside it held in the world `w`. Work without an error has left it in the file tree `final`; work
that fails on the source is reported. Nothing else in the world has a part in it. -/
structure MadeFrom (settings : Settings) (task : FileTask) (path output : Text) (w : World)
    (report : FileReport) (final : Files) : Prop where
  place : task.outputPath = some output
  written : report.error = none → ∃ code map,
    ((produce task path (task.report path)).run settings w).1 = .ok (code, map, report) ∧
    final.Holds output code ∧ ∀ m, map = some m → final.Holds (output ++ text ".map") m.compact
  failed : ∀ failure, ((produce task path (task.report path)).run settings w).1 = .error failure →
    report.error = some failure.message
  own : ∀ other : World, SameSource task.withMap path w.files other.files →
    ((produce task path (task.report path)).run settings other).1 =
      ((produce task path (task.report path)).run settings w).1

/-- A file that is `Handled` while its source is as in `w`, and whose output is left alone from then
on, is `MadeFrom` what it held in `w`. -/
theorem Handled.madeFrom {task : FileTask} {path output : Text} {turn next : World}
    {report : FileReport} {final : Files} {P : List Text → Prop}
    (h : Handled settings task path turn report next) (houtput : task.outputPath = some output)
    (hsource : SameSource task.withMap path w.files turn.files)
    (hlast : Files.Filled P next.files final)
    (hfree : ∀ place, next.files.IsPlaceOf task.withMap output place → ¬ P place)
    (hapart : task.withMap →
      next.files.resolve output ≠ next.files.resolve (output ++ text ".map")) :
    MadeFrom settings task path output w report final where
  place := houtput
  written hfine := by
    obtain ⟨code, map, hproduce, hnone, hwritten⟩ := h.exists_of_fine hfine
    rw [← (dependsOn_produce task path _).same settings hsource] at hproduce
    obtain ⟨hcode, hmap⟩ := hwritten output houtput
    have happart : map = none ∨
        next.files.resolve output ≠ next.files.resolve (output ++ text ".map") := by
      cases hwith : task.withMap with
      | false => exact .inl (hnone hwith)
      | true => exact .inr (hapart hwith)
    refine ⟨code, map, hproduce, hlast.holds (hfree _ (.inl rfl)) (hcode happart), ?_⟩
    rintro m rfl
    have hwith : task.withMap := by
      by_contra hwith
      cases hnone (Bool.eq_false_iff.mpr hwith)
    exact hlast.holds (hfree _ (.inr ⟨hwith, rfl⟩)) (hmap m rfl)
  failed failure hproduce := by
    rw [(dependsOn_produce task path _).same settings hsource] at hproduce
    exact h.error_eq hproduce
  own other hother := ((dependsOn_produce task path _).same settings hother).symm

/-- A file that is `Handled` in its turn and `Undisturbed` is `MadeFrom` what it held in `w`. -/
theorem Redirects.madeFrom {features : FeatureMap} {before after : List Text} {path : Text}
    {turn next : World} {report : FileReport} {final : Files} (h : Redirects o w.files d dir)
    (hpath : IsGathered (o.input.getD []) path)
    (hundisturbed : Undisturbed w.files o.sourceMap (o.input.getD []) dir before after path)
    (hfirst : Files.Filled (Outputs w.files o.sourceMap (o.input.getD []) dir before) w.files
      turn.files)
    (hturn : Handled settings (fileTask o features turn.files path) path turn report next)
    (hlast : Files.Filled (Outputs next.files o.sourceMap (o.input.getD []) dir after) next.files
      final) :
    MadeFrom settings (fileTask o features w.files path) path (mirrored (o.input.getD []) dir path)
      w report final := by
  have hlinks : next.files.links = w.files.links :=
    hturn.filled.grows.links.trans hfirst.grows.links
  rw [h.fileTask_eq (h.filled hfirst) features path] at hturn
  refine hturn.madeFrom (h.outputPath_eq features path)
    (sameSource_of_filled h.input hpath hundisturbed.readable hfirst hundisturbed.source) hlast
    (fun place hplace hput => ?_) fun hwith => ?_
  · obtain ⟨other, hother, hput⟩ := hput
    rw [isPlaceOf_congr hlinks] at hplace hput
    exact hundisturbed.output place hplace ⟨other, hother, hput⟩
  · rw [Files.resolve_congr hlinks, Files.resolve_congr hlinks]
    exact hundisturbed.apart hwith

/-- A run over a directory is `done` with the files in order, all of them unless it ends with a
failure that `endsRun`. The output for a file that is done with, at the same steps below the output
directory, is made from what the source and the map beside it held before the run if it is
`Undisturbed`, and stays to the end of the run. Where there are no links below the input directory
`d` and the output directory, it is so unless the output for an earlier file goes to the source; and
no output goes to another source where `d` is the output directory too, or where no source is below
the output directory. -/
theorem output_of_source (haccepts : Accepts o settings w paths features ready)
    (hredirects : Redirects o w.files d dir) (hproper : w.files.Proper d) :
    let input := o.input.getD []
    let task := fileTask o (.ofJson features)
    let final := ((run o).run settings w).2.files
    ∃ done rest reports left, paths = done ++ rest ∧
      ComesOut reports rest ((run o).run settings w).1 ∧
      Batch settings task ready done reports left ∧
      (∀ before path after, done = before ++ path :: after →
        IsGathered input path ∧ ∃ report, reports[before.length]? = some report ∧
          (Undisturbed w.files o.sourceMap input dir before (after ++ rest) path →
            MadeFrom settings (task w.files path) path (mirrored input dir path) w report final)) ∧
      (w.files.Unlinked d → w.files.Unlinked (w.files.resolve dir) →
        ∀ before path after, paths = before ++ path :: after →
          (¬ Overwritten w.files input dir before path →
            Undisturbed w.files o.sourceMap input dir before after path) ∧
          ((w.files.resolve dir = d ∨
              ∀ path ∈ paths, ¬ w.files.resolve dir <+: w.files.resolve path) →
            ¬ Overwritten w.files input dir before path)) := by
  intro input task final
  have hpaths : ∀ path ∈ paths, IsGathered input path := fun path hpath =>
    (inner_mem_below hredirects.input hproper (haccepts.collects ▸ hpath)).2
  have honce : paths.Nodup := haccepts.collects ▸ nodup_collect hredirects.input hproper
  obtain ⟨done, rest, reports, left, hsplit, hends, hbatch, hrest⟩ :=
    haccepts.exists_batch hredirects
  refine ⟨done, rest, reports, left, hsplit, hends, hbatch, ?_, fun hd hdir => ?_⟩
  · rintro before path after rfl
    obtain ⟨turn, next, earlier, report, later, rfl, hbefore, hturn, hafter⟩ :=
      hbatch.exists_of_append
    have hpath : IsGathered input path := hpaths path (by simp [hsplit])
    refine ⟨hpath, report, ?_, fun hundisturbed => ?_⟩
    · rw [← hbefore.paths_eq, List.length_map, List.getElem?_append_right (Nat.le_refl _),
        Nat.sub_self, List.getElem?_cons_zero]
    -- The files that come before it and those behind it fill places other than its own.
    · have hready : Redirects o ready.files d dir := haccepts.files_eq.symm ▸ hredirects
      have hfirst := hbefore.filled hready
      have hnext := (hready.filled hfirst).filled hturn.filled
      have hlast := filled_outputs_append (hafter.filled hnext) hrest
      rw [haccepts.files_eq] at hfirst
      exact hredirects.madeFrom hpath hundisturbed hfirst hturn hlast
  · rintro before path after rfl
    refine ⟨undisturbed_of_unlinked hredirects.input hd hdir o.sourceMap ?_
      (fun earlier h => hpaths earlier (by simp [h])) (hpaths path (by simp))
      (fun later h => hpaths later (by simp [h])) ?_,
      fun harranged => not_overwritten hredirects.input hd hdir hpaths honce harranged rfl⟩
    · exact exists_read hredirects.input hproper hd (haccepts.collects ▸ by simp)
    · rw [List.nodup_append, List.nodup_cons] at honce
      exact honce.2.1.1

/-- `twoFiles` are done with, both from what they held. -/
theorem output_of_source_twoFiles :
    let w := twoFiles ((text "a;\n").flatMap CodePoint.utf8) ((text "b;\n").flatMap CodePoint.utf8)
    let task := fileTask toDirectory [] w.files
    let final := ((run toDirectory).run {} w).2.files
    Accepts toDirectory {} w [text "src/a.js", text "src/b.js"] [] w ∧
      Redirects toDirectory w.files [text "src"] (text "out") ∧ w.files.Proper [text "src"] ∧
      (∃ report, report.failed = false ∧ MadeFrom {} (task (text "src/a.js")) (text "src/a.js")
        (text "out/a.js") w report final) ∧
      ∃ report, report.failed = false ∧ MadeFrom {} (task (text "src/b.js")) (text "src/b.js")
        (text "out/b.js") w report final := by
  intro w task final
  have haccepts : Accepts toDirectory {} w [text "src/a.js", text "src/b.js"] [] w :=
    accepts_twoFiles _ _
  have hredirects : Redirects toDirectory w.files [text "src"] (text "out") :=
    ⟨rfl, by decide, rfl, rfl, rfl⟩
  have hproper : w.files.Proper [text "src"] := by decide
  have hstatus : ((run toDirectory).run {} w).1.toOption = some 0 := by
    rw [haccepts.run_eq]
    decide +kernel
  obtain ⟨done, rest, reports, left, hpaths, hends, -, hmade, hfree⟩ :=
    output_of_source haccepts hredirects hproper
  -- The run goes to its end, and with status 0.
  have hfine : rest = [] ∧ ∀ report ∈ reports, report.failed = false := by
    generalize ((run toDirectory).run {} w).1 = outcome at hstatus hends
    cases outcome with
    | error failure => cases hstatus
    | ok status =>
      obtain rfl : status = 0 := Option.some.inj hstatus
      obtain ⟨hrest, hzero⟩ := hends
      refine ⟨hrest, fun report hreport => ?_⟩
      cases hfailed : report.failed with
      | false => rfl
      | true => simp [List.any_eq_true.mpr ⟨report, hreport, hfailed⟩] at hzero
  obtain ⟨rfl, hreports⟩ := hfine
  rw [List.append_nil] at hpaths
  obtain ⟨-, first, hfirst, hmadeFirst⟩ := hmade [] (text "src/a.js") [text "src/b.js"] hpaths.symm
  obtain ⟨-, second, hsecond, hmadeSecond⟩ :=
    hmade [text "src/a.js"] (text "src/b.js") [] hpaths.symm
  have hundisturbed := hfree (by decide) (by decide)
  exact ⟨haccepts, hredirects, hproper,
    ⟨first, hreports first (List.mem_of_getElem? hfirst),
      hmadeFirst ((hundisturbed [] _ [text "src/b.js"] rfl).1 (by decide))⟩,
    ⟨second, hreports second (List.mem_of_getElem? hsecond),
      hmadeSecond ((hundisturbed [text "src/a.js"] _ [] rfl).1 (by decide))⟩⟩

/-- A directory with a file in it and one below. -/
def nestedFiles (first second : List UInt8) : World where
  files := { entries :=
    [⟨[text "src", text "a.js"], first⟩, ⟨[text "src", text "out", text "a.js"], second⟩] }

/-- The files of a directory go to one below it. -/
def toDirectoryBelow : Options where
  input := some (text "src")
  outputDir := some (text "src/out")

theorem accepts_nestedFiles (first second : List UInt8) :
    Accepts toDirectoryBelow {} (nestedFiles first second)
      [text "src/a.js", text "src/out/a.js"] [] (nestedFiles first second) where
  transforms := ⟨rfl, rfl, rfl⟩
  collects := Sources.collect_of_pairwise
    (rfl : Files.locate _ (text "src") = some [text "src"]) rfl rfl rfl (by decide)
  nonempty := List.cons_ne_nil _ _
  placed := nofun
  known := ⟨_, rfl, rfl⟩

/-- A directory with a file in it and a link to one in another directory. -/
def linkedFiles (first second : List UInt8) : World where
  files := {
    entries := [⟨[text "src", text "a.js"], first⟩, ⟨[text "out", text "a.js"], second⟩]
    links := [⟨[text "src", text "b.js"], [text "out", text "a.js"]⟩] }

theorem accepts_linkedFiles (first second : List UInt8) :
    Accepts toDirectory {} (linkedFiles first second) [text "src/a.js", text "src/b.js"] []
      (linkedFiles first second) where
  transforms := ⟨rfl, rfl, rfl⟩
  collects := Sources.collect_of_pairwise
    (rfl : Files.locate _ (text "src") = some [text "src"]) rfl rfl rfl (by decide)
  nonempty := List.cons_ne_nil _ _
  placed := nofun
  known := ⟨_, rfl, rfl⟩

/-- From the file at `path` the code `lost` is made, but at the end its `output` holds `found`. -/
structure Lost (o : Options) (w : World) (path output lost found : Text) : Prop where
  place : (fileTask o [] w.files path).outputPath = some output
  made : ∃ report, ((produce (fileTask o [] w.files path) path
    ((fileTask o [] w.files path).report path)).run {} w).1 = .ok (lost, none, report)
  holds : ((run o).run {} w).2.files.Holds output found
  other : ¬ ((run o).run {} w).2.files.Holds output lost

theorem lost_of_read {path output lost found : Text} {bytes : List UInt8}
    (hplace : (fileTask o [] w.files path).outputPath = some output)
    (hmade : ((produce (fileTask o [] w.files path) path
      ((fileTask o [] w.files path).report path)).run {} w).1.toOption.any fun made =>
        made.1 = lost ∧ made.2.1.isNone)
    (hread : ((run o).run {} w).2.files.read output = .ok bytes)
    (hfound : found.utf8? = some bytes) (hlost : lost.utf8? ≠ some bytes) :
    Lost o w path output lost found where
  place := hplace
  made := by
    obtain ⟨⟨code, map, report⟩, hrun, rfl, hnone⟩ := exists_of_any hmade
    obtain rfl : map = none := Option.isNone_iff_eq_none.mp hnone
    exact ⟨report, hrun⟩
  holds := (Files.holds_iff_of_read hread).mpr hfound
  other := mt (Files.holds_iff_of_read hread).mp hlost

/-- The output for the first file goes to the second one, which is in the output directory or leads
to it by a link; so the output for the second one holds what the first one held. -/
theorem output_of_overwritten :
    let first := (text "a;\n").flatMap CodePoint.utf8
    let second := (text "b;\n").flatMap CodePoint.utf8
    (Accepts toDirectoryBelow {} (nestedFiles first second)
        [text "src/a.js", text "src/out/a.js"] [] (nestedFiles first second) ∧
      Redirects toDirectoryBelow (nestedFiles first second).files [text "src"] (text "src/out") ∧
      (nestedFiles first second).files.Proper [text "src"] ∧
      Lost toDirectoryBelow (nestedFiles first second) (text "src/out/a.js")
        (text "src/out/out/a.js") (text "b;\n") (text "a;\n")) ∧
    Accepts toDirectory {} (linkedFiles first second)
        [text "src/a.js", text "src/b.js"] [] (linkedFiles first second) ∧
      Redirects toDirectory (linkedFiles first second).files [text "src"] (text "out") ∧
      (linkedFiles first second).files.Proper [text "src"] ∧
      Lost toDirectory (linkedFiles first second) (text "src/b.js") (text "out/b.js")
        (text "b;\n") (text "a;\n") := by
  intro first second
  have hnested := accepts_nestedFiles first second
  have hlinked := accepts_linkedFiles first second
  have hread : ((run toDirectoryBelow).run {} (nestedFiles first second)).2.files.read
      (text "src/out/out/a.js") = .ok first := by
    rw [hnested.run_eq, Files.read_eq_ok_iff]
    refine ⟨[text "src", text "out", text "out", text "a.js"], ?_⟩
    decide +kernel
  have hread' : ((run toDirectory).run {} (linkedFiles first second)).2.files.read
      (text "out/b.js") = .ok first := by
    rw [hlinked.run_eq, Files.read_eq_ok_iff]
    refine ⟨[text "out", text "b.js"], ?_⟩
    decide +kernel
  exact ⟨⟨hnested, ⟨rfl, by decide, rfl, rfl, rfl⟩, by decide,
      lost_of_read (by decide) (by decide +kernel) hread (by decide) (by decide)⟩,
    hlinked, ⟨rfl, by decide, rfl, rfl, rfl⟩, by decide,
      lost_of_read (by decide) (by decide +kernel) hread' (by decide) (by decide)⟩

end Run

end FlagFold.Command
