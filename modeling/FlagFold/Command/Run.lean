/-
  FlagFold.Command.Run

  The command line: transforms the source files at a path, or checks or lists
  their syntax trees.
-/

import FlagFold.Command.Options
import FlagFold.Command.Sources
import FlagFold.Concrete.Outline
import FlagFold.Fold.Transform

namespace FlagFold.Command

/-! ## Looking at syntax trees -/

/-- The text of a source file; a file that cannot be read is reported. -/
def readSource (path : Text) : Job (Option Text) := do
  try some <$> Job.readText path catch failure =>
    match failure with
    | .file _ | .notUtf8 _ =>
      Job.error (text "Failed to read " ++ path ++ text ": " ++ failure.message)
      return none
    | other => throw other

/-- The concrete syntax tree of a source file; a file that has none is reported. -/
def treeOf (path source : Text) : Job (Option Concrete) := do
  match concreteTree (← read).trees (.ofPath path) source with
  | some (tree, _) => return some tree
  | none =>
    Job.error (SyntaxFault.message ⟨path, none⟩)
    return none

/-- Does a source file parse? What is wrong with it is reported. -/
def checkFile (path : Text) : Job Bool := do
  match ← readSource path with
  | none => return false
  | some source =>
    match ← treeOf path source with
    | none => return false
    | some root =>
      let found := root.complaints (SourceIndex.ofText source)
      for c in found do
        Job.error (path ++ text ":" ++ Text.ofNat c.line ++ text ":" ++ Text.ofNat c.byteColumn ++
          text ": " ++ c.message)
      return found.isEmpty

/-- Checks that all files parse. -/
def checkFiles (paths : List Text) : Job Nat := do
  let mut failed := 0
  for path in paths do
    if !(← checkFile path) then failed := failed + 1
  if failed > 0 then
    Job.error (text "Parser check FAILED: " ++ Text.ofNat failed ++ text " of " ++
      Text.ofNat paths.length ++ text " file(s) do not parse")
    return 1
  Job.print (text "✓ Parser check PASSED: " ++ Text.ofNat paths.length ++ text " file(s)")
  return 0

/-- Lists the syntax trees of all files. -/
def listTrees (paths : List Text) : Job Unit := do
  for path in paths do
    if let some source ← readSource path then
      Job.print (text "=== " ++ path ++ text " (" ++ (Language.ofPath path).name ++ text ") ===")
      if let some root ← treeOf path source then
        Job.writeOut (root.outline source Concrete.outlineDepth)

/-! ## Transforming files -/

/-- The source map beside a file, if there is one. -/
def readMap (path : Text) : Job (Option Json) := do
  let mapPath := PathText.normalize (path ++ text ".map")
  if !(← get).files.isFile mapPath then return none
  let wrong (reason : Text) : Failure := .sourceMap (.unreadable mapPath reason)
  let document ← try Job.readText mapPath catch failure =>
    match failure with
    | .file _ | .notUtf8 _ => throw (wrong failure.message)
    | other => throw other
  match Json.parse document (← read).host.room with
  | .error fault =>
    throw (if fault.isViolation then wrong (fault.message document) else .json document fault)
  | .ok (.obj members) =>
    Job.debug (text "Loaded source map " ++ mapPath)
    return some (.obj members)
  | .ok _ => throw (.sourceMap (.notAnObject mapPath))

/-- Writes the output for a file, with its map if there is one. -/
def writeOutput (path code : Text) (map : Option Json) : Job Unit := do
  Job.makeDirectory (Sources.directoryOf path)
  Job.writeText path code
  if let some m := map then Job.writeJson (path ++ text ".map") m

/-- What a run does with each file. -/
structure FileTask where
  features : FeatureMap
  staticOnly : List Text
  outputPath : Option Text
  withMap : Bool

/-- What is to be done with the file at a path, in the file tree as it then is. -/
def fileTask (o : Options) (features : FeatureMap) (files : Files) (path : Text) : FileTask where
  features
  staticOnly := o.staticOnly
  outputPath :=
    match o.outputDir with
    | some directory =>
      if directory.isEmpty then none
      else some (Sources.outputPath files path (o.input.getD []) directory)
    | none => none
  withMap := o.sourceMap

/-- The report of a file on which the work starts. -/
def FileTask.report (task : FileTask) (path : Text) : FileReport :=
  { path, output := task.outputPath }

/-- The code for a source, the map that goes with it, and what is reported. -/
def produceFrom (task : FileTask) (path source : Text) (map : Option Json) (report : FileReport) :
    Job (Text × Option Json × FileReport) := do
  if needsFolding source (some path) then
    -- The tree is built first, and nothing else needs as much stack.
    if (← read).host.overtaxes source then throw .stackExhausted
    -- Where the code goes to the output channel, what is reported must not.
    let say := if task.outputPath.isNone then Job.writeErr else Job.writeOut
    let result ← transform
      { source, features := task.features, map, path
        staticOnly := .arr (task.staticOnly.map .str) } say
    return (result.code, result.map.map SourceMap.toJson,
      { report with dynamic := result.dynamic, changed := result.code ≠ source })
  else
    Job.debug (path ++ text ": no feature queries, copied unchanged")
    return (source, map, report)

/-- The code for a file, the map that goes with it, and what is reported. -/
def produce (task : FileTask) (path : Text) (report : FileReport) :
    Job (Text × Option Json × FileReport) := do
  let source ← Job.readText path
  let map ← if task.withMap then readMap path else pure none
  produceFrom task path source map report

/-- Puts the code and its map where they are to go. -/
def deliver (task : FileTask) (code : Text) (map : Option Json) : Job Unit :=
  match task.outputPath with
  | none => Job.writeOut code
  | some output => writeOutput output code map

/-- Reports a failure that concerns one file only; any other ends the run. -/
def reported (path : Text) (report : FileReport) (failure : Failure) :
    Job FileReport := do
  if failure.concernsOneFile then
    Job.error (path ++ text ": " ++ failure.message)
    return { report with error := some failure.message }
  throw failure

/-- Transforms one file, writing it to its output path or else to the output channel. -/
def transformFile (task : FileTask) (path : Text) : Job FileReport := do
  let start := task.report path
  let produced ← try Except.ok <$> produce task path start catch failure =>
    Except.error <$> reported path start failure
  match produced with
  | .error report => return report
  | .ok (code, map, report) =>
    try
      deliver task code map
      pure report
    catch failure => reported path report failure

/-! ## The whole run -/

/-- Checks that the directory of the feature sets is there; says whether the run can go on. -/
def checkFeaturesBase (needed : Bool) : Job Bool := do
  match ← FeatureStore.baseOr none with
  | none => return true
  | some base =>
    let directory := FeatureStore.directory (some base)
    if (← get).files.isDirectory directory then return true
    let message := text "Feature set directory not found at " ++ directory ++
      text ". Either:\n  1. Unset STATIC_HAS_FEATURES_BASE to use the bundled presets\n" ++
      text "  2. Point it at a directory containing features/<name>.json"
    if needed then
      Job.error (text "Environment validation failed:\n")
      Job.error (text "\n1. " ++ message ++ text "\n")
      return false
    Job.debug message
    return true

/-- Transforms files one after the other, each in the file tree that the one before has left. -/
def transformAll (task : Files → Text → FileTask) (paths : List Text) : Job (List FileReport) :=
  paths.mapM fun path => do transformFile (task (← get).files path) path

/-- Sums up where there is an output directory; the result is the exit status. -/
def conclude (o : Options) (reports : List FileReport) : Job Nat := do
  if (o.outputDir.map (!·.isEmpty)).getD false then
    Job.writeErr (Summary.write o.summary (← read).colors reports)
  return if Summary.failures reports > 0 then 1 else 0

/-- Transforms all files and sums up. -/
def transformFiles (o : Options) (paths : List Text) : Job Nat := do
  let names := Json.arr (o.features.map .str)
  let request ← try Except.ok <$> FeatureStore.request names o.featuresJson catch failure =>
    if failure.concernsFeatures then pure (Except.error failure) else throw failure
  match request with
  | .error failure =>
    Job.error (text "Cannot load features: " ++ failure.message)
    return 1
  | .ok request =>
    let features ← FeatureStore.resolveOrWarn request none
    if !features.isEmpty then
      Job.info (text "Static features: " ++ Text.ofNat features.length ++ text " flag(s)")
    conclude o (← transformAll (fileTask o (.ofJson features)) paths)

/-- Does what the options ask for; the result is the exit status. -/
def run (o : Options) : Job Nat := do
  if o.listFeatureSets then
    return if ← FeatureStore.printNames none then 0 else 1
  let input := o.input.getD []
  if !(← checkFeaturesBase (!o.features.isEmpty)) then return 1
  let paths := Sources.collect (← get).files input
  if paths.isEmpty then
    Job.error (text "No source files found at: " ++ input)
    return 1
  if o.checkParser then return ← checkFiles paths
  if o.dumpAst then
    listTrees paths
    return 0
  if o.outputDir.isNone && paths.length > 1 then
    Job.error (input ++ text " holds " ++ Text.ofNat paths.length ++
      text " files: use -O/--output-dir")
    return 1
  if o.sourceMap && o.outputDir.isNone then
    Job.error (text "--source-map needs -O/--output-dir to write the composed map")
    return 1
  transformFiles o paths

end FlagFold.Command
