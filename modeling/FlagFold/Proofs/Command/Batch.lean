/-
  FlagFold.Proofs.Command.Batch

  A run over several files: what is done with each, what is reported of it, and
  where a run ends before all files are done with.
-/

import FlagFold.Proofs.Command.Reasons
import FlagFold.Proofs.World.Paths

namespace FlagFold

/-! ## The files that are collected -/

theorem Sources.ne_nil_of_mem_collect {files : Files} {input path : Text}
    (h : path ∈ collect files input) : path ≠ [] := by
  unfold collect at h
  dsimp only at h
  split at h
  case h_1 => cases h
  case h_2 =>
    split_ifs at h
    · rw [List.mem_singleton] at h
      exact h ▸ PathText.normalize_ne_nil input
    · rw [List.mem_mergeSort] at h
      obtain ⟨inner, -, rfl⟩ := List.mem_map.mp h
      exact PathText.below_ne_nil _ _
    · cases h

/-- If the paths of the sources `below` the input directory are sorted already, `collect` gives them
in this order. -/
theorem Sources.collect_of_pairwise {files : Files} {input : Text} {steps : List Text}
    {paths : List Text} (hplace : files.locate (PathText.normalize input) = some steps)
    (hfile : files.bytesAt? steps = none) (hdirectory : files.hasDirectory steps)
    (hpaths : ((below files steps).map fun inner =>
      PathText.below (PathText.normalize input) (PathText.ofSteps false inner)) = paths)
    (hsorted : paths.Pairwise (Text.le · ·)) : collect files input = paths := by
  unfold collect
  simp only [hplace, hfile, hdirectory, hpaths, Option.isSome_none, Bool.false_eq_true, if_false,
    if_true]
  exact List.mergeSort_of_pairwise hsorted

namespace Command

/-! ## One file -/

/-- The work on the file at `path` when nothing is caught. -/
def attempt (task : FileTask) (path : Text) : Job FileReport := do
  let (code, map, report) ← produce task path (task.report path)
  deliver task code map
  return report

/-- The world `w` when `failure` has been told on the channel for diagnostics. -/
def told (path : Text) (failure : Failure) (settings : Settings) (w : World) : World :=
  ((Job.error (path ++ text ": " ++ failure.message)).run settings w).2

/-- The file at `output` holds `code`, and that beside it the `map`. If both are one file, by a
link, it holds the map. -/
structure Stands (files : Files) (output code : Text) (map : Option Json) : Prop where
  code : map = none ∨ files.resolve output ≠ files.resolve (output ++ text ".map") →
    files.Holds output code
  map : ∀ m, map = some m → files.Holds (output ++ text ".map") m.compact

/-- The file at `path` is done with, in the world `w` at first: it is transformed, and the code
stands where `task.outputPath` says, with its map beside it; or the work on it fails for a reason
that `concernsOneFile`, which is told and is the error of its report. -/
inductive Handled (settings : Settings) (task : FileTask) (path : Text) (w : World) :
    FileReport → World → Prop
  | done {report : FileReport} {code : Text} {map : Option Json} {mid left : World}
      (hproduce : (produce task path (task.report path)).run settings w =
        (.ok (code, map, report), mid))
      (hdeliver : (deliver task code map).run settings mid = (.ok (), left))
      (hpath : report.path = path) (hfine : report.error = none)
      (hwritten : ∀ output, task.outputPath = some output → Stands left.files output code map) :
      Handled settings task path w report left
  | failed {report : FileReport} {failure : Failure} {left : World}
      (hattempt : (attempt task path).run settings w = (.error failure, left))
      (hreason : failure.concernsOneFile) (hpath : report.path = path)
      (herror : report.error = some failure.message) (hfailed : report.failed) :
      Handled settings task path w report (told path failure settings left)

theorem Handled.path_eq {settings : Settings} {task : FileTask} {path : Text} {w left : World}
    {report : FileReport} (h : Handled settings task path w report left) :
    report.path = path := by
  cases h with
  | done _ _ hpath => exact hpath
  | failed _ _ hpath => exact hpath

section OneFile

variable {settings : Settings} {task : FileTask} {path : Text} {w left : World}

theorem stands_writeOutput {output code : Text} {map : Option Json}
    (h : (writeOutput output code map).run settings w = (.ok (), left)) :
    Stands left.files output code map := by
  unfold writeOutput at h
  obtain ⟨_, made, -, h⟩ := Job.exists_of_run_bind h
  obtain ⟨_, mid, hcode, h⟩ := Job.exists_of_run_bind h
  have hholds := Job.holds_writeText hcode
  cases map with
  | none =>
    cases h
    exact ⟨fun _ => hholds, nofun⟩
  | some m =>
    have hmap := Job.run_writeText_of_run_writeJson h
    have hfilled := Job.filled_writeText (output ++ text ".map") m.compact settings mid
    rw [hmap] at hfilled
    refine ⟨fun hone => hfilled.holds ?_ hholds, ?_⟩
    · have happart := hone.resolve_left nofun
      rwa [Files.resolve_congr hfilled.grows.links, Files.resolve_congr hfilled.grows.links]
        at happart
    · rintro _ ⟨⟩
      exact Job.holds_writeText hmap

/-- `produce` keeps the path and the error of the report that it is given. -/
theorem report_of_produce {report made : FileReport} {code : Text} {map : Option Json}
    (h : (produce task path report).MayYield (code, map, made)) :
    made.path = report.path ∧ made.error = report.error := by
  unfold produce at h
  obtain ⟨source, -, h⟩ := h.exists_of_bind
  have hfrom : ∃ read, (produceFrom task path source read report).MayYield (code, map, made) := by
    dsimp only at h
    split at h
    all_goals
      obtain ⟨read, -, h⟩ := h.exists_of_bind
      exact ⟨read, h⟩
  obtain ⟨read, h⟩ := hfrom
  unfold produceFrom at h
  split at h
  case isTrue =>
    obtain ⟨settings, -, h⟩ := h.exists_of_bind
    dsimp only at h
    split at h
    case isTrue =>
      obtain ⟨_, h, -⟩ := h.exists_of_bind
      exact absurd h (Job.not_mayYield_throw _ _)
    case isFalse =>
      obtain ⟨_, -, h⟩ := h.exists_of_bind
      cases Job.eq_of_mayYield_pure h
      exact ⟨rfl, rfl⟩
  case isFalse =>
    obtain ⟨_, -, h⟩ := h.exists_of_bind
    cases Job.eq_of_mayYield_pure h
    exact ⟨rfl, rfl⟩

theorem failed_of_error {report : FileReport} {failure : Failure} (h : failure.concernsOneFile)
    (herror : report.error = some failure.message) : report.failed := by
  rw [FileReport.failed, herror]
  change (!failure.message.isEmpty) = true
  simpa using Failure.message_ne_nil h

/-- `reported` tells of a failure and puts it in the report, or ends the run with it. -/
theorem handled_or_ends (report : FileReport) {failure : Failure} {mid : World}
    (hreason : failure.OfFile)
    (hattempt : (attempt task path).run settings w = (.error failure, mid))
    (hpath : report.path = path) :
    (∃ made left, Handled settings task path w made left ∧
      (reported path report failure).run settings mid = (.ok made, left)) ∨
    failure.endsRun ∧ (reported path report failure).run settings mid = (.error failure, mid) := by
  unfold reported
  by_cases hone : failure.concernsOneFile
  · rw [if_pos hone]
    exact .inl ⟨{ report with error := some failure.message }, told path failure settings mid,
      .failed hattempt hone hpath rfl (failed_of_error hone rfl), rfl⟩
  · rw [if_neg hone]
    exact .inr ⟨hreason.resolve_left hone, rfl⟩

theorem run_attempt (settings : Settings) (task : FileTask) (path : Text) (w : World) :
    (attempt task path).run settings w =
      match (produce task path (task.report path)).run settings w with
      | (.error failure, mid) => (.error failure, mid)
      | (.ok (code, map, report), mid) =>
        match (deliver task code map).run settings mid with
        | (.error failure, left) => (.error failure, left)
        | (.ok _, left) => (.ok report, left) := by
  simp only [attempt, Job.run_bind]
  rcases (produce task path _).run settings w with ⟨_ | ⟨code, map, report⟩, mid⟩
  · rfl
  · simp only
    rcases (deliver task code map).run settings mid with ⟨_ | _, left⟩ <;> rfl

/-- `transformFile` is `produce` and then `deliver`, and what `reported` makes of the failure of
either. -/
theorem run_transformFile (settings : Settings) (task : FileTask) (path : Text) (w : World) :
    (transformFile task path).run settings w =
      match (produce task path (task.report path)).run settings w with
      | (.error failure, mid) =>
        (reported path (task.report path) failure).run settings mid
      | (.ok (code, map, report), mid) =>
        match (deliver task code map).run settings mid with
        | (.error failure, left) => (reported path report failure).run settings left
        | (.ok _, left) => (.ok report, left) := by
  simp only [transformFile, Job.run_bind, Job.run_tryCatch, Job.run_map]
  rcases (produce task path _).run settings w with ⟨failure | ⟨code, map, report⟩, mid⟩
  · simp only [Except.map]
    rcases (reported path (task.report path) failure).run settings mid with ⟨_ | _, _⟩ <;> rfl
  · simp only [Except.map, Job.run_tryCatch, Job.run_bind]
    rcases (deliver task code map).run settings mid with ⟨_ | _, left⟩ <;> rfl

/-- The file at `path` is `Handled`, or the run ends with the failure of the `attempt` at it. -/
theorem transformFile_cases (settings : Settings) (task : FileTask) {path : Text}
    (hpath : path ≠ []) (w : World) :
    (∃ report left, Handled settings task path w report left ∧
      (transformFile task path).run settings w = (.ok report, left)) ∨
    ∃ failure left, failure.endsRun ∧
      (attempt task path).run settings w = (.error failure, left) ∧
      (transformFile task path).run settings w = (.error failure, left) := by
  have hattempt := run_attempt settings task path w
  have htransform := run_transformFile settings task path w
  -- A failure of either part is handled, or is one of those that end the run.
  cases hproduce : (produce task path (task.report path)).run settings w with
  | mk produced mid =>
    rw [hproduce] at hattempt htransform
    cases produced with
    | error failure =>
      have hreason := failsOnly_produce task hpath _ settings w failure mid hproduce
      rw [htransform]
      rcases handled_or_ends (task.report path) hreason hattempt rfl with hhandled | ⟨hends, hrun⟩
      · exact .inl hhandled
      · exact .inr ⟨failure, mid, hends, hattempt, hrun⟩
    | ok made =>
      obtain ⟨code, map, report⟩ := made
      obtain ⟨habout, hfine⟩ := report_of_produce (Job.mayYield_of_run hproduce)
      cases hdeliver : (deliver task code map).run settings mid with
      | mk delivered left =>
        simp only [hdeliver] at hattempt htransform
        cases delivered with
        | error failure =>
          have hreason := failsOnly_deliver task code map settings mid failure left hdeliver
          rw [htransform]
          rcases handled_or_ends report hreason hattempt habout with hhandled | ⟨hends, hrun⟩
          · exact .inl hhandled
          · exact .inr ⟨failure, left, hends, hattempt, hrun⟩
        | ok =>
          refine .inl ⟨report, left, .done hproduce hdeliver habout hfine ?_, htransform⟩
          intro output houtput
          rw [deliver, houtput] at hdeliver
          exact stands_writeOutput hdeliver

end OneFile

/-! ## All files -/

/-- The files at the paths are `Handled` one after the other, each in the world that the one before
has left, with a report for each. `task` is what is to be done with a file. -/
inductive Batch (settings : Settings) (task : Files → Text → FileTask) :
    World → List Text → List FileReport → World → Prop
  | nil (w : World) : Batch settings task w [] [] w
  | cons {w mid left : World} {path : Text} {report : FileReport} {paths : List Text}
      {reports : List FileReport}
      (hfile : Handled settings (task w.files path) path w report mid)
      (hrest : Batch settings task mid paths reports left) :
      Batch settings task w (path :: paths) (report :: reports) left

/-- The work stops at one of `paths`, with a `failure` that `endsRun`, when those before it are done
with. -/
def Stops (settings : Settings) (task : Files → Text → FileTask) (w : World) (paths : List Text)
    (failure : Failure) (left : World) : Prop :=
  ∃ before path after reports mid, paths = before ++ path :: after ∧
    Batch settings task w before reports mid ∧
    (attempt (task mid.files path) path).run settings mid = (.error failure, left) ∧
    failure.endsRun

section AllFiles

variable {settings : Settings} {task : Files → Text → FileTask} {w left : World}
  {paths : List Text}

/-- Each of `paths` has one report, in order. -/
theorem Batch.paths_eq {reports : List FileReport} (h : Batch settings task w paths reports left) :
    reports.map (·.path) = paths := by
  induction h with
  | nil => rfl
  | cons hfile _ ih => rw [List.map_cons, hfile.path_eq, ih]

theorem Stops.cons {mid : World} {path : Text} {report : FileReport} {failure : Failure}
    (hfile : Handled settings (task w.files path) path w report mid)
    (h : Stops settings task mid paths failure left) :
    Stops settings task w (path :: paths) failure left := by
  obtain ⟨before, stopped, after, reports, last, rfl, hbatch, hattempt, hends⟩ := h
  exact ⟨path :: before, stopped, after, report :: reports, last, rfl, .cons hfile hbatch,
    hattempt, hends⟩

/-- `transformAll` of a path and the `rest` is `transformFile` of the first in the files as they
are, and then `transformAll` of the others. -/
theorem run_transformAll_cons (settings : Settings) (task : Files → Text → FileTask) (path : Text)
    (rest : List Text) (w : World) :
    (transformAll task (path :: rest)).run settings w =
      (do
        let report ← transformFile (task w.files path) path
        let reports ← transformAll task rest
        return report :: reports : Job (List FileReport)).run settings w := by
  simp only [transformAll, List.mapM_cons, Job.run_bind, Job.run_get]

/-- All of `paths` are done with in a `Batch`, or the work `Stops` at one of them. -/
theorem transformAll_cases (settings : Settings) (task : Files → Text → FileTask)
    {paths : List Text} (hpaths : ∀ path ∈ paths, path ≠ []) (w : World) :
    (∃ reports left, Batch settings task w paths reports left ∧
      (transformAll task paths).run settings w = (.ok reports, left)) ∨
    ∃ failure left, Stops settings task w paths failure left ∧
      (transformAll task paths).run settings w = (.error failure, left) := by
  induction paths generalizing w with
  | nil => exact .inl ⟨[], w, .nil w, rfl⟩
  | cons path rest ih =>
    rw [List.forall_mem_cons] at hpaths
    rw [run_transformAll_cons, Job.run_bind]
    rcases transformFile_cases settings (task w.files path) hpaths.1 w with
      ⟨report, mid, hfile, hrun⟩ | ⟨failure, left, hends, hattempt, hrun⟩
    · simp only [hrun, Job.run_bind]
      rcases ih hpaths.2 mid with
        ⟨reports, left, hbatch, hrest⟩ | ⟨failure, left, hstops, hrest⟩
      · exact .inl ⟨report :: reports, left, .cons hfile hbatch, by rw [hrest]; rfl⟩
      · exact .inr ⟨failure, left, hstops.cons hfile, by rw [hrest]⟩
    · rw [hrun]
      exact .inr ⟨failure, left, ⟨[], path, rest, [], w, rfl, .nil w, hattempt, hends⟩, rfl⟩

end AllFiles

/-! ## The whole run -/

/-- The feature map that a run is given, made known. -/
def knownFeatures (o : Options) : Job (Table Json) := do
  let request ← FeatureStore.request (.arr (o.features.map .str)) o.featuresJson
  let features ← FeatureStore.resolveOrWarn request none
  if !features.isEmpty then
    Job.info (text "Static features: " ++ Text.ofNat features.length ++ text " flag(s)")
  return features

/-- The run comes to the work on `paths`, in the world `ready`, with the feature map `features`: it
is asked to transform, there are files, their output has a place, and the features can be had. -/
structure Accepts (o : Options) (settings : Settings) (w : World) (paths : List Text)
    (features : Table Json) (ready : World) : Prop where
  transforms : o.listFeatureSets = false ∧ o.checkParser = false ∧ o.dumpAst = false
  collects : Sources.collect w.files (o.input.getD []) = paths
  nonempty : paths ≠ []
  placed : o.outputDir.isNone → paths.length ≤ 1 ∧ o.sourceMap = false
  known : ∃ checked,
    (checkFeaturesBase (!o.features.isEmpty)).run settings w = (.ok true, checked) ∧
    (knownFeatures o).run settings checked = (.ok features, ready)

/-- The world at the end of a run: the `reports` are summed up where there is an output
directory. -/
def summedUp (o : Options) (settings : Settings) (reports : List FileReport) (w : World) : World :=
  if (o.outputDir.map (!·.isEmpty)).getD false then
    { w with err := w.err ++ Summary.write o.summary settings.colors reports }
  else w

theorem failures_pos_iff {reports : List FileReport} :
    Summary.failures reports > 0 ↔ reports.any (·.failed) := by
  simp [Summary.failures, List.length_pos_iff, List.filter_eq_nil_iff]

theorem run_conclude (o : Options) (settings : Settings) (reports : List FileReport) (w : World) :
    (conclude o reports).run settings w =
      (.ok (if reports.any (·.failed) then 1 else 0), summedUp o settings reports w) := by
  unfold conclude summedUp
  simp only [failures_pos_iff]
  split <;> rfl

/-- `checkFeaturesBase` leaves the files as they are. -/
theorem keepsFiles_checkFeaturesBase (needed : Bool) : (checkFeaturesBase needed).KeepsFiles := by
  have hbase : (FeatureStore.baseOr none).KeepsFiles := fun _ _ => rfl
  unfold checkFeaturesBase
  refine hbase.bind fun base => ?_
  split
  case h_1 => exact Job.keepsFiles_pure _
  case h_2 base =>
    refine Job.keepsFiles_get.bind fun world => ?_
    split_ifs
    · exact Job.keepsFiles_pure _
    · exact (Job.keepsFiles_error _).bind fun _ => (Job.keepsFiles_error _).bind fun _ =>
        Job.keepsFiles_pure _
    · exact (Job.keepsFiles_debug _).bind fun _ => Job.keepsFiles_pure _

/-- Once `knownFeatures` has given the features, `transformFiles` works on `paths` and concludes the
run. -/
theorem run_transformFiles {o : Options} {settings : Settings} {checked ready : World}
    {features : Table Json}
    (hknown : (knownFeatures o).run settings checked = (.ok features, ready))
    (paths : List Text) :
    (transformFiles o paths).run settings checked =
      (transformAll (fileTask o (.ofJson features)) paths >>= conclude o).run settings ready := by
  unfold knownFeatures at hknown
  obtain ⟨request, mid, hrequest, hknown⟩ := Job.exists_of_run_bind hknown
  obtain ⟨resolved, after, hresolve, hknown⟩ := Job.exists_of_run_bind hknown
  unfold transformFiles
  simp only [Job.run_bind, Job.run_tryCatch, Job.run_map, hrequest, Except.map]
  simp only [hresolve]
  dsimp only at hknown
  by_cases hsome : !resolved.isEmpty
  · rw [if_pos hsome] at hknown ⊢
    cases hknown
    simp only [Job.run_bind]
    rfl
  · rw [if_neg hsome] at hknown ⊢
    cases hknown
    simp only [Job.run_bind]

/-- A run that `Accepts` works on `paths` and concludes. -/
theorem Accepts.run_eq {o : Options} {settings : Settings} {w ready : World} {paths : List Text}
    {features : Table Json} (h : Accepts o settings w paths features ready) :
    (run o).run settings w =
      (transformAll (fileTask o (.ofJson features)) paths >>= conclude o).run settings ready := by
  obtain ⟨⟨hlist, hcheck, hdump⟩, hcollects, hsome, hplaced, checked, hbase, hknown⟩ := h
  have hfiles : checked.files = w.files := by
    rw [← keepsFiles_checkFeaturesBase (!o.features.isEmpty) settings w, hbase]
  have hmany : (o.outputDir.isNone && decide (paths.length > 1)) = false := by
    cases hnone : o.outputDir.isNone with
    | false => rfl
    | true => simpa using (hplaced hnone).1
  have hmap : (o.sourceMap && o.outputDir.isNone) = false := by
    cases hnone : o.outputDir.isNone with
    | false => exact Bool.and_false _
    | true => rw [(hplaced hnone).2, Bool.false_and]
  have hfound : paths.isEmpty = false := by simpa using hsome
  rw [← run_transformFiles hknown paths]
  unfold run
  simp only [hlist, hcheck, hdump, Bool.false_eq_true, if_false, Job.run_bind, hbase]
  simp only [Bool.not_true, Bool.false_eq_true, if_false, Job.run_bind, Job.run_get, hfiles,
    hcollects, hfound, hmany, hmap]

/-- A run that `Accepts` goes through all of `paths`, and its status tells whether the work on any
has failed; or it ends at the first file with a failure that `endsRun`. -/
theorem run_batch {o : Options} {settings : Settings} {w ready : World} {paths : List Text}
    {features : Table Json} (h : Accepts o settings w paths features ready) :
    let task := fileTask o (.ofJson features)
    (∃ reports left, Batch settings task ready paths reports left ∧
      reports.map (·.path) = paths ∧
      (run o).run settings w =
        (.ok (if reports.any (·.failed) then 1 else 0), summedUp o settings reports left)) ∨
    ∃ failure left, Stops settings task ready paths failure left ∧
      (run o).run settings w = (.error failure, left) := by
  intro task
  have hpaths : ∀ path ∈ paths, path ≠ [] :=
    fun path hpath => Sources.ne_nil_of_mem_collect (h.collects ▸ hpath)
  rw [h.run_eq, Job.run_bind]
  rcases transformAll_cases settings task hpaths ready with
    ⟨reports, left, hbatch, hall⟩ | ⟨failure, left, hstops, hall⟩
  · refine .inl ⟨reports, left, hbatch, hbatch.paths_eq, ?_⟩
    rw [hall]
    exact run_conclude o settings reports left
  · exact .inr ⟨failure, left, hstops, by rw [hall]⟩

/-- A directory with two files. -/
def twoFiles (first second : List UInt8) : World where
  files := { entries := [⟨[text "src", text "a.js"], first⟩, ⟨[text "src", text "b.js"], second⟩] }

/-- The files of one directory go to another one. -/
def toDirectory : Options where
  input := some (text "src")
  outputDir := some (text "out")

/-- A run over `twoFiles` gets to work. -/
theorem accepts_twoFiles (first second : List UInt8) :
    Accepts toDirectory {} (twoFiles first second) [text "src/a.js", text "src/b.js"] []
      (twoFiles first second) where
  transforms := ⟨rfl, rfl, rfl⟩
  collects := Sources.collect_of_pairwise
    (rfl : Files.locate _ (text "src") = some [text "src"]) rfl rfl rfl (by decide)
  nonempty := List.cons_ne_nil _ _
  placed := nofun
  known := ⟨_, rfl, rfl⟩

set_option maxRecDepth 100000 in
/-- A file that is no UTF-8 is reported, and the file behind it is copied. -/
theorem run_batch_undecodable :
    let code := text "b;\n"
    let w := twoFiles [0xFF] (code.flatMap CodePoint.utf8)
    let paths := [text "src/a.js", text "src/b.js"]
    Accepts toDirectory {} w paths [] w ∧
      ∃ reports left, Batch {} (fileTask toDirectory []) w paths reports left ∧
        reports.map (·.path) = paths ∧ reports.any (·.failed) ∧
        left.files.Holds (text "out/b.js") code ∧
        (run toDirectory).run {} w = (.ok 1, summedUp toDirectory {} reports left) := by
  intro code w paths
  have haccepts : Accepts toDirectory {} w paths [] w := accepts_twoFiles _ _
  have houtcome : ((run toDirectory).run {} w).1.toOption = some 1 ∧
      ∃ place bytes, ((run toDirectory).run {} w).2.files.locate (text "out/b.js") = some place ∧
        ((run toDirectory).run {} w).2.files.bytesAt? place = some bytes ∧
        code.utf8? = some bytes := by
    rw [haccepts.run_eq]
    refine ⟨by decide +kernel, [text "out", text "b.js"], code.flatMap CodePoint.utf8, ?_⟩
    decide +kernel
  refine ⟨haccepts, ?_⟩
  rcases run_batch haccepts with ⟨reports, left, hbatch, hpaths, hrun⟩ | ⟨failure, left, -, hrun⟩
  · rw [hrun] at houtcome
    obtain ⟨hstatus, place, bytes, hplace, hbytes, hcode⟩ := houtcome
    have hholds : left.files.Holds (text "out/b.js") code :=
      ⟨bytes, hcode, Files.read_eq_ok_iff.mpr ⟨place, hplace, hbytes⟩⟩
    cases hfailed : reports.any (·.failed) with
    | false =>
      rw [hfailed] at hstatus
      cases hstatus
    | true =>
      rw [hfailed] at hrun
      exact ⟨reports, left, hbatch, hpaths, hfailed, hholds, hrun⟩
  · rw [hrun] at houtcome
    cases houtcome.1

set_option maxRecDepth 100000 in
/-- An escape of no code point ends the run, and the file behind it is not written. -/
theorem run_batch_outOfRange :
    let w := twoFiles ((text "has('\\u\x7b110000\x7d');\n").flatMap CodePoint.utf8)
      ((text "b;\n").flatMap CodePoint.utf8)
    Accepts toDirectory {} w [text "src/a.js", text "src/b.js"] [] w ∧
      (∃ fault, ((run toDirectory).run {} w).1 = .error (.noCodePoint fault)) ∧
      ((run toDirectory).run {} w).2.files.isFile (text "out/b.js") = false := by
  intro w
  have haccepts := accepts_twoFiles ((text "has('\\u\x7b110000\x7d');\n").flatMap CodePoint.utf8)
    ((text "b;\n").flatMap CodePoint.utf8)
  have hends : (match ((run toDirectory).run {} w).1 with
      | .error (.noCodePoint _) => true
      | _ => false) = true ∧
      ((run toDirectory).run {} w).2.files.isFile (text "out/b.js") = false := by
    rw [haccepts.run_eq]
    decide +kernel
  refine ⟨haccepts, ?_, hends.2⟩
  have hfault := hends.1
  split at hfault
  case h_1 fault hrun => exact ⟨fault, hrun⟩
  case h_2 => cases hfault

end Command
end FlagFold
