/-
  FlagFold.Feature.Store

  Feature sets by name.  A set is a JSON file of truth values in the directory
  `features` of a base, or one of the presets; once loaded it stays as it was.
  When one of several names cannot be resolved, none counts.
-/

import FlagFold.Feature.Merge
import FlagFold.Feature.Presets
import FlagFold.World.Job

namespace FlagFold

/-- A feature map as a JSON object. -/
def FeatureMap.toJson (m : FeatureMap) : Table Json := m.map fun (k, v) => (k, .bool v)

/-- The feature map of a JSON object: what counts of a value is its truth. -/
def FeatureMap.ofJson (members : Table Json) : FeatureMap :=
  members.map fun (k, v) => (k, v.isTruthy)

/-- The feature map of a JSON value, which has to be an object of truth values. -/
def FeatureMap.ofTruthValues? : Json → Option FeatureMap
  | .obj members => members.mapM fun (k, v) =>
    match v with
    | .bool b => some (k, b)
    | _ => none
  | _ => none

namespace FeatureStore

/-- Can a name be that of a feature set? It must not lead to another directory. -/
def isSetName (name : Text) : Bool :=
  !name.isEmpty && !(text "/").occursIn name && !(text "\\").occursIn name &&
    !(text "..").occursIn name

/-- The directory of the feature sets of a base. -/
def directory (base : Option Text) : Text :=
  match base with
  | none => text "features"
  | some b => PathText.below b (text "features")

/-- The file of a feature set. -/
def filePath (base : Option Text) (name : Text) : Text :=
  directory base ++ text "/" ++ name ++ text ".json"

/-- The feature set in a file; a file that holds none is noted. -/
def readSet (base : Option Text) (name : Text) : Job (Option FeatureMap) := do
  let path := filePath base name
  Job.checkPath path
  match base with
  | none =>
    match Presets.all.find? name with
    | some preset => return some preset
    | none =>
      Job.debug (text "Feature set " ++ path ++ text " not loaded: " ++
        (FileFault.missing path).message)
      return none
  | some _ =>
    let document ← try some <$> Job.readText path catch failure =>
      match failure with
      | .file _ | .notUtf8 _ =>
        Job.debug (text "Feature set " ++ path ++ text " not loaded: " ++ failure.message)
        pure none
      | other => throw other
    match document with
    | none => return none
    | some document =>
      match Json.parse document (← read).host.room with
      | .error fault =>
        if fault.isViolation then
          Job.debug (text "Feature set " ++ path ++ text " not loaded: " ++ fault.message document)
          return none
        -- A document that is JSON all the same is not taken for a missing one.
        else throw (.json document fault)
      | .ok value =>
        match FeatureMap.ofTruthValues? value with
        | some m => return some m
        | none =>
          Job.debug (text "Feature set " ++ path ++ text " is not a flat map of booleans")
          return none

/-- The base that is meant: the one given, or else that of the settings. -/
def baseOr (base : Option Text) : Job (Option Text) := do
  match base with
  | some b => return some (PathText.normalize b)
  | none => return (← read).featuresBase.map PathText.normalize

/-- The feature set of a name. -/
def load (name : Text) (base : Option Text) : Job (Option FeatureMap) := do
  let base ← baseOr base
  let key : FeatureSetKey := ⟨base, name⟩
  match (← get).loaded.find? (·.1 = key) with
  | some (_, m) => return some m
  | none =>
    -- What is already loaded counts before the name is looked at.
    if !isSetName name then return none
    match ← readSet base name with
    | none => return none
    | some m =>
      modify fun w => { w with loaded := (key, m) :: w.loaded }
      return some m

/-- The feature set of a name given as JSON; what is neither a text nor nothing names none. -/
def loadNamed (name : Json) (base : Option Text) : Job (Option FeatureMap) :=
  match name with
  | .str t => load t base
  | .null | .bool false => pure none
  | .int i => if i = 0 then pure none else throw .wrongKind
  | .real x => if x.isZero then pure none else throw .wrongKind
  | .bool true | .arr _ | .obj _ => throw .wrongKind

/-- The line about a name that cannot be resolved. -/
def unresolvedLine (name : Json) : Text := text "Cannot resolve feature set: " ++ name.plain

/-- The map of several names, or the names that cannot be resolved. -/
def resolveNames (names : List Json) (base : Option Text) :
    Job (Except (List Json) FeatureMap) := do
  let maps ← names.mapM fun name => loadNamed name base
  let missing := (names.zip maps).filterMap fun (name, m) => if m.isNone then some name else none
  if missing.isEmpty then
    let merged := Table.merge (maps.filterMap id)
    Job.debug (text "Resolved " ++ Text.ofNat merged.length ++ text " static feature(s) from " ++
      Text.join (text ", ") (names.map Json.plain))
    return .ok merged
  else return .error missing

/-- The feature map that was asked for, and a line for each name that could not be resolved. -/
structure Resolution where
  table : Table Json
  unresolved : List Text

/-- Resolves what is asked for: an object is a feature map itself, a text is a name, an array
holds names. Where a name cannot be resolved, the map is empty. -/
def resolve (request : Json) (base : Option Text) : Job Resolution := do
  if let .obj members := request then return ⟨members, []⟩
  if !request.isTruthy then return ⟨[], []⟩
  -- A single name is resolved as a list of one.
  let names ← match request with
    | .str _ => pure [request]
    | .arr names => pure names
    | _ => throw .wrongKind
  match ← resolveNames names base with
  | .ok merged => return ⟨FeatureMap.toJson merged, []⟩
  | .error missing => return ⟨[], missing.map unresolvedLine⟩

/-- Resolves what is asked for, with a warning for each name that cannot be resolved. -/
def resolveOrWarn (request : Json) (base : Option Text) : Job (Table Json) := do
  let resolution ← resolve request base
  for line in resolution.unresolved do
    Job.warn line
  return resolution.table

/-! ## Listing -/

/-- The names of the feature sets of a base. -/
def names (base : Option Text) : Job (List Text) := do
  match ← baseOr base with
  | none => return Presets.all.keys
  | some b =>
    let files := (← get).files
    match files.locate (directory (some b)) with
    | none => return []
    | some steps =>
      let found := (files.names steps).filter (text ".json").isSuffixOf
      return (found.map PathText.stem).mergeSort Text.le

/-- Prints the feature sets of a base; says whether there are any. -/
def printNames (base : Option Text) : Job Bool := do
  let all ← names base
  if all.isEmpty then
    Job.print (text "No feature sets found.")
    return false
  Job.print (text "Available feature sets (" ++ Text.ofNat all.length ++ text "):\n")
  for name in all do
    let m := (← load name base).getD []
    let enabled := (m.filter (·.2)).length
    Job.print (text "  " ++ name ++ text " (" ++ Text.ofNat m.length ++ text " flags, " ++
      Text.ofNat enabled ++ text " enabled)")
  return true

/-! ## Explicit maps -/

/-- The feature map in a JSON file; values that are no truth values are left out with a
warning. -/
def readExplicit (path : Text) : Job (Table Json) := do
  let document ← try Job.readText path catch failure =>
    if let .file (.missing _) := failure then
      Job.error (text "Feature map file not found: " ++ path)
    throw failure
  match Json.parse document (← read).host.room with
  | .error fault =>
    if fault.isViolation then
      Job.error (text "Failed to parse feature map '" ++ path ++ text "': " ++
        fault.message document)
    throw (.json document fault)
  | .ok (.obj members) =>
    let mut kept := []
    for (key, value) in members do
      if let .bool _ := value then kept := kept ++ [(key, value)]
      else Job.warn (path ++ text ": ignoring non-boolean feature '" ++ key ++ text "'")
    return kept
  | .ok _ => throw (.featuresNotAnObject path)

/-- What is to be resolved for the given names and the given file, whose flags count over those
of the names. -/
def request (names : Json) (path : Text) : Job Json := do
  if path.isEmpty then return if names.isTruthy then names else .null
  let explicit ← readExplicit path
  if !names.isTruthy then return .obj explicit
  let named ← resolveOrWarn names none
  return .obj (Table.update named explicit)

end FeatureStore
end FlagFold
