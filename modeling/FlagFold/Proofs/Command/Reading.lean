/-
  FlagFold.Proofs.Command.Reading

  What the work on a file looks at and what it writes.  The code is made from what the
  file holds and what the map beside it holds, if it is to be looked at; nothing else in
  the file tree matters, nor what has been said or loaded before
  (`Command.dependsOn_produce`).  It goes to the output, and its map to the file beside
  that, and to no other (`Command.filled_deliver`).
-/

import FlagFold.Command.Run
import FlagFold.Proofs.World.Filled

namespace FlagFold

/-- `transform` looks at no file, if `report` does not. -/
theorem dependsOn_transform (request : TransformRequest) {report : Text → Job Unit}
    {agree : Files → Files → Prop} (hreport : ∀ t, (report t).DependsOn agree) :
    (transform request report).DependsOn agree := by
  have hsay : ∀ notes : List Text, (forIn notes PUnit.unit fun note _ => do
      Job.debug note
      pure (ForInStep.yield PUnit.unit) : Job PUnit).DependsOn agree := fun notes =>
    (Job.yields_forIn Job.yields_debug).dependsOn
      (Job.keepsFiles_forIn fun _ _ => (Job.keepsFiles_debug _).bind fun _ => Job.keepsFiles_pure _)
  have hprint : ∀ folded : FoldedModule, (do
      let printed ← Job.lift id (folded.program.printChained request.path request.map)
      return ⟨printed.1, printed.2, folded.dynamic⟩ : Job Transformed).DependsOn agree :=
    fun folded => (Job.dependsOn_lift _ _).bind fun _ => Job.dependsOn_pure _
  unfold transform
  refine (Job.dependsOn_lift _ _).bind fun staticOnly => ?_
  refine (Job.dependsOn_lift _ _).bind fun language => ?_
  refine Job.dependsOn_read.bind fun settings => ?_
  refine (Job.dependsOn_lift _ _).bind fun program => ?_
  refine (hsay _).bind fun _ => ?_
  dsimp only
  split
  · exact Job.dependsOn_throw _
  · split
    · exact (hreport _).bind fun _ => hprint _
    · exact hprint _

/-- `transform` gives no map where the request has none. -/
theorem map_eq_none_of_transform {request : TransformRequest} {report : Text → Job Unit}
    {result : Transformed} (hmap : request.map = none)
    (h : (transform request report).MayYield result) : result.map = none := by
  have hprint : ∀ folded : FoldedModule, (do
      let printed ← Job.lift id (folded.program.printChained request.path request.map)
      return ⟨printed.1, printed.2, folded.dynamic⟩ : Job Transformed).MayYield result →
        result.map = none := by
    intro folded h
    obtain ⟨printed, hprinted, h⟩ := h.exists_of_bind
    cases Job.eq_of_mayYield_pure h
    have hprinted := Job.eq_ok_of_mayYield_lift hprinted
    rw [hmap] at hprinted
    obtain ⟨code, -, hprinted⟩ := exists_of_bind_eq_ok hprinted
    cases hprinted
    rfl
  unfold transform at h
  obtain ⟨staticOnly, -, h⟩ := h.exists_of_bind
  obtain ⟨language, -, h⟩ := h.exists_of_bind
  obtain ⟨settings, -, h⟩ := h.exists_of_bind
  obtain ⟨program, -, h⟩ := h.exists_of_bind
  obtain ⟨_, -, h⟩ := h.exists_of_bind
  dsimp only at h
  split at h
  · exact absurd h (Job.not_mayYield_throw _ _)
  · split at h
    · obtain ⟨_, -, h⟩ := h.exists_of_bind
      exact hprint _ h
    · exact hprint _ h

/-- `place` is that of the file at `path` or, if `withMap`, that of the map beside it. -/
def Files.IsPlaceOf (files : Files) (withMap : Bool) (path : Text) (place : List Text) : Prop :=
  place = files.resolve path ∨ withMap ∧ place = files.resolve (path ++ text ".map")

namespace Command

/-- The path of the map beside a file. -/
def mapPath (path : Text) : Text := PathText.normalize (path ++ text ".map")

/-- The file at `path` can be read in `files` and in `files'` with the same outcome. If the map
beside it is looked at too, there are maps that hold the same, or there is none. -/
def SameSource (withMap : Bool) (path : Text) (files files' : Files) : Prop :=
  files.read path = files'.read path ∧
    (withMap → (files.read (mapPath path)).toOption = (files'.read (mapPath path)).toOption)

/-- The map beside the file at `path`, where there is one. -/
def loadMap (path : Text) : Job (Option Json) := do
  let wrong (reason : Text) : Failure := .sourceMap (.unreadable (mapPath path) reason)
  let document ← try Job.readText (mapPath path) catch failure =>
    match failure with
    | .file _ | .notUtf8 _ => throw (wrong failure.message)
    | other => throw other
  match Json.parse document (← read).host.room with
  | .error fault =>
    throw (if fault.isViolation then wrong (fault.message document) else .json document fault)
  | .ok (.obj members) =>
    Job.debug (text "Loaded source map " ++ mapPath path)
    return some (.obj members)
  | .ok _ => throw (.sourceMap (.notAnObject (mapPath path)))

theorem dependsOn_loadMap (path : Text) :
    (loadMap path).DependsOn fun files files' =>
      files.read (mapPath path) = files'.read (mapPath path) := by
  unfold loadMap
  dsimp only
  refine ((Job.dependsOn_readText (mapPath path)).tryCatch fun failure => ?_).bind
    fun document => ?_
  · split <;> exact Job.dependsOn_throw _
  · refine Job.dependsOn_read.bind fun settings => ?_
    split
    · exact Job.dependsOn_throw _
    · exact ((Job.yields_debug _).dependsOn (Job.keepsFiles_debug _)).bind
        fun _ => Job.dependsOn_pure _
    · exact Job.dependsOn_throw _

theorem run_readMap (path : Text) (settings : Settings) (w : World) :
    (readMap path).run settings w =
      if w.files.isFile (mapPath path) then (loadMap path).run settings w else (.ok none, w) := by
  have heq : readMap path = (do
      if !(← get).files.isFile (mapPath path) then return none
      loadMap path) := rfl
  rw [heq, Job.run_bind, Job.run_get]
  dsimp only
  cases w.files.isFile (mapPath path) <;> rfl

/-- `readMap` depends on whether there is a map beside the file, and on what that holds. -/
theorem dependsOn_readMap (path : Text) : (readMap path).DependsOn (SameSource true path) where
  same settings w w' hagree := by
    have hfile : w.files.isFile (mapPath path) = w'.files.isFile (mapPath path) := by
      have hisSome := congrArg Option.isSome (hagree.2 rfl)
      rwa [Files.toOption_read, Files.toOption_read] at hisSome
    rw [run_readMap, run_readMap, ← hfile]
    split
    case isTrue hthere =>
      obtain ⟨bytes, hread⟩ := Files.isFile_iff.mp hthere
      obtain ⟨bytes', hread'⟩ := Files.isFile_iff.mp (hfile ▸ hthere)
      have hbytes := hagree.2 rfl
      rw [hread, hread'] at hbytes
      obtain rfl : bytes = bytes' := Option.some.inj hbytes
      exact (dependsOn_loadMap path).same settings (hread.trans hread'.symm)
    case isFalse => rfl
  keeps settings w := by
    rw [run_readMap]
    split
    · exact (dependsOn_loadMap path).keeps settings w
    · rfl

theorem dependsOn_produceFrom (task : FileTask) (path source : Text) (map : Option Json)
    (report : FileReport) (agree : Files → Files → Prop) :
    (produceFrom task path source map report).DependsOn agree := by
  have hsay : ∀ t, ((if task.outputPath.isNone then Job.writeErr else Job.writeOut) t).DependsOn
      agree := by
    intro t
    split
    · exact (Job.yields_writeErr t).dependsOn (Job.keepsFiles_writeErr t)
    · exact Job.dependsOn_writeOut t
  unfold produceFrom
  generalize (if task.outputPath.isNone then Job.writeErr else Job.writeOut) = say at hsay ⊢
  split
  · refine Job.dependsOn_read.bind fun settings => ?_
    dsimp only
    have hwork := dependsOn_transform
      { source, features := task.features, map, path
        staticOnly := .arr (task.staticOnly.map .str) } hsay
    split
    · exact (Job.dependsOn_throw _).bind fun _ => hwork.bind fun _ => Job.dependsOn_pure _
    · exact hwork.bind fun _ => Job.dependsOn_pure _
  · exact ((Job.yields_debug _).dependsOn (Job.keepsFiles_debug _)).bind
      fun _ => Job.dependsOn_pure _

/-- `produce` depends on what the file holds and, with `task.withMap`, on the map beside it. -/
theorem dependsOn_produce (task : FileTask) (path : Text) (report : FileReport) :
    (produce task path report).DependsOn (SameSource task.withMap path) := by
  have hsource : (Job.readText path).DependsOn (SameSource task.withMap path) :=
    ⟨fun settings _ _ hagree => (Job.dependsOn_readText path).same settings hagree.1,
      Job.keepsFiles_readText path⟩
  unfold produce
  refine hsource.bind fun source => ?_
  dsimp only
  split
  case isTrue hmap =>
    rw [hmap]
    exact (dependsOn_readMap path).bind fun map =>
      dependsOn_produceFrom task path source map report _
  case isFalse =>
    exact (Job.dependsOn_pure none).bind fun map =>
      dependsOn_produceFrom task path source map report _

/-- `produce` gives a map only with `task.withMap`. -/
theorem map_eq_none_of_produce {task : FileTask} {path code : Text} {map : Option Json}
    {report made : FileReport} (hmap : task.withMap = false)
    (h : (produce task path report).MayYield (code, map, made)) : map = none := by
  unfold produce at h
  obtain ⟨source, -, h⟩ := h.exists_of_bind
  simp only [hmap, Bool.false_eq_true, if_false] at h
  obtain ⟨read, hread, h⟩ := h.exists_of_bind
  cases Job.eq_of_mayYield_pure hread
  unfold produceFrom at h
  split at h
  case isTrue =>
    obtain ⟨settings, -, h⟩ := h.exists_of_bind
    dsimp only at h
    split at h
    case isTrue =>
      obtain ⟨_, h, -⟩ := h.exists_of_bind
      exact absurd h (Job.not_mayYield_throw _ _)
    case isFalse =>
      obtain ⟨result, hresult, h⟩ := h.exists_of_bind
      cases Job.eq_of_mayYield_pure h
      rw [map_eq_none_of_transform rfl hresult]
      rfl
  case isFalse =>
    obtain ⟨_, -, h⟩ := h.exists_of_bind
    cases Job.eq_of_mayYield_pure h
    rfl

/-! ## What the work on a file writes -/

/-- `writeOutput` puts nothing but the output and, if there is a map, the file beside it. -/
theorem filled_writeOutput (output code : Text) (map : Option Json) (settings : Settings)
    (w : World) :
    Files.Filled (w.files.IsPlaceOf map.isSome output) w.files
      ((writeOutput output code map).run settings w).2.files := by
  have hdirectory := Job.filled_makeDirectory (w.files.IsPlaceOf map.isSome output)
    (Sources.directoryOf output) settings w
  unfold writeOutput
  rw [Job.run_bind]
  generalize (Job.makeDirectory (Sources.directoryOf output)).run settings w = ran at hdirectory ⊢
  obtain ⟨_ | _, start⟩ := ran
  · exact hdirectory
  · have hstart := Files.resolve_congr hdirectory.grows.links
    have hcode := hdirectory.trans ((Job.filled_writeText output code settings start).imp
      fun place hplace => .inl (hplace.trans (hstart output)))
    simp only [Job.run_bind]
    generalize (Job.writeText output code).run settings start = ran at hcode ⊢
    obtain ⟨_ | _, mid⟩ := ran
    · exact hcode
    · have hmid := Files.resolve_congr hcode.grows.links
      cases map with
      | none => exact hcode
      | some m =>
        exact hcode.trans ((Job.filled_writeJson _ m settings mid).imp
          fun place hplace => .inr ⟨rfl, hplace.trans (hmid _)⟩)

/-- `place` is where `task` puts the output or, if it makes one, the map beside it. -/
def FileTask.Puts (task : FileTask) (files : Files) (place : List Text) : Prop :=
  ∃ output, task.outputPath = some output ∧ files.IsPlaceOf task.withMap output place

theorem filled_deliver {task : FileTask} {map : Option Json}
    (hmap : task.withMap = false → map = none) (code : Text) (settings : Settings) (w : World) :
    Files.Filled (task.Puts w.files) w.files ((deliver task code map).run settings w).2.files := by
  unfold deliver
  split
  case h_1 =>
    rw [Job.keepsFiles_writeOut code settings w]
    exact .same
  case h_2 output houtput =>
    refine (filled_writeOutput output code map settings w).imp fun place hplace =>
      ⟨output, houtput, hplace.imp_right fun ⟨hsome, hbeside⟩ => ⟨?_, hbeside⟩⟩
    by_contra hnone
    rw [hmap (Bool.eq_false_iff.mpr hnone)] at hsome
    cases hsome

end Command
end FlagFold
