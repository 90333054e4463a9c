/-
  FlagFold.Fold.Transform

  The work on one module: the source is parsed, both passes run, dynamic features
  are reported, and the tree is printed, with a map chained to the one that came
  with the source.
-/

import FlagFold.Feature.Store
import FlagFold.Fold.Module
import FlagFold.Fold.Parsing
import FlagFold.Print.Program
import FlagFold.Report

namespace FlagFold

/-- What is asked for a module. -/
structure TransformRequest where
  source : Text
  features : FeatureMap := []
  map : Option Json := none
  path : Text := []
  staticOnly : Json := .arr []

/-- The outcome for a module. -/
structure Transformed where
  code : Text
  map : Option SourceMap
  dynamic : List Text

/-- The texts in a JSON value that stands for a set: the items of an array, the names of an
object, the code points of a text. -/
def textSet : Json → Except Failure (List Text)
  | .str t => .ok (t.map fun c => [c])
  | .obj members => .ok (members.map (·.1))
  | .arr items => do
    -- A list or an object cannot be a member of a set.
    if items.any fun item => match item with
      | .arr _ | .obj _ => true
      | _ => false
    then throw .wrongKind
    return items.filterMap fun item => match item with
      | .str t => some t
      | _ => none
  | _ => .error .wrongKind

/-- The name of the file that a map is for, if it has one. -/
def mapFile (map : Json) : Except Failure Json :=
  match map with
  | .obj _ => .ok ((map.member? (text "file")).getD .null)
  | _ => .error .noMembers

/-- The language of a module: that of its path, or else of the file that its map is for. -/
def moduleLanguage (path : Text) (map : Option Json) : Except Failure Language :=
  if !path.isEmpty then .ok (.ofPath path)
  else match map with
    | none => .ok .javascript
    | some m =>
      if !m.isTruthy then .ok .javascript
      else do
        match ← mapFile m with
        | .str file => return .ofPath file
        | other => if other.isTruthy then throw .noMembers else return .javascript

/-- The name under which the source stands in the new map. -/
def mapName (path : Text) (map : Json) : Except Failure Text := do
  match ← mapFile map with
  | .str file => return if file.isEmpty then path else file
  | _ => return path

/-- Prints a module, with the map chained to `map` if there is one. -/
def Node.printChained (program : Node) (path : Text) (map : Option Json) :
    Except Failure (Text × Option SourceMap) :=
  match map with
  | none => do return (← program.print.mapError .print, none)
  | some m => do
    let name ← mapName path m
    let printed ← (program.printMapped (some name)).mapError .print
    let chained ← (SourceMap.compose m printed.map.toJson).mapError .ofCompose
    return (printed.code, some chained)

/-- Transforms a module. What is found out about dynamic features goes to `report`. -/
def transform (request : TransformRequest) (report : Text → Job Unit) : Job Transformed := do
  let staticOnly ← Job.lift id (textSet request.staticOnly)
  let language ← Job.lift id (moduleLanguage request.path request.map)
  let trees := (← read).trees
  let program ← Job.lift id (parseModule trees request.source language.name request.path)
  let folded := program.foldModule request.features staticOnly request.path
  -- Notes are written even if a pass has met a fault.
  for note in folded.notes do
    Job.debug note
  if let some fault := folded.fault then throw (.shape fault)
  let found := dynamicReport folded.dynamic
  if !found.isEmpty then report found
  let (code, map) ← Job.lift id (folded.program.printChained request.path request.map)
  return ⟨code, map, folded.dynamic⟩

/-! ## As a step of a bundler -/

/-- The options of a bundler step: an object, or nothing. -/
structure LoaderOptions where
  features : Json := .null
  staticOnly : Json := .arr []
  path : Json := .null

/-- The options in a JSON value. -/
def LoaderOptions.ofJson (options : Json) : LoaderOptions where
  features := (options.member? (text "features")).getD .null
  staticOnly :=
    match options.member? (text "staticOnly") with
    | some v => if v.isTruthy then v else .arr []
    | none => .arr []
  path := (options.member? (text "resourcePath")).getD .null

/-- How the outcome of a bundler step is delivered. -/
inductive Delivery where
  /-- The code is the result. -/
  | returned (code : Text)
  /-- Nothing was to be done, and the callback is given the source with its map. -/
  | passedOn (source : Text) (map : Json)
  /-- The callback is given the code with its map. -/
  | called (code : Text) (map : Option SourceMap)

/-- One step of a bundler. A map goes to the callback; without one it is dropped. -/
def loaderStep (source : Text) (map : Option Json) (options : LoaderOptions) (callback : Bool) :
    Job Delivery := do
  let path ← match options.path with
    | .str path => pure path
    | other => if other.isTruthy then throw .wrongKind else pure []
  if !needsFolding source (some path) then
    match map with
    | some m => if callback then return .passedOn source m else return .returned source
    | none => return .returned source
  if map.isSome && !callback then
    Job.warn (text "Source map given without a callback: the composed map is dropped")
  -- Names of feature sets are resolved only for a module that needs them.
  let features ← FeatureStore.resolveOrWarn options.features none
  let result ← transform
    { source, features := .ofJson features, map, path, staticOnly := options.staticOnly }
    Job.writeOut
  if map.isSome && callback then return .called result.code result.map
  return .returned result.code

end FlagFold
