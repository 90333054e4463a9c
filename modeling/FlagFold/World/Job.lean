/-
  FlagFold.World.Job

  Work that reads and writes files and says things: a state that holds the file
  tree, what has been written to the two output channels, and the feature sets
  loaded so far.
-/

import FlagFold.Fold.Pragma
import FlagFold.Json.Printer
import FlagFold.World.Failure

namespace FlagFold

/-- A feature set by the directory it is looked up in, if not among the presets, and its name. -/
structure FeatureSetKey where
  base : Option Text
  name : Text
  deriving DecidableEq

/-- What the system and the interpreter do not let a job do, whatever is in the file tree. -/
structure Host where
  /-- Is what goes to the output channel written as UTF-8? A channel in memory takes any text. -/
  utf8Out : Bool := false
  /-- How much of a text the output channel takes, where it does not take all of it, and why not. -/
  outShortfall? : Text → Option (Nat × Refusal) := fun _ => none
  /-- Why an act is refused that the file tree allows. -/
  refusal? : FileAct → Text → Option Refusal := fun _ _ => none
  /-- How many of the bytes for the file at a path get there, where the system takes no more, and
  why not. -/
  shortfall? : Text → List UInt8 → Option (Nat × Refusal) := fun _ _ => none
  /-- How many arrays and objects can be open at once in a JSON document that is read. -/
  room : Nat := 990
  /-- How much of a JSON value is written, where it nests deeper than there is stack for. -/
  breakOff? : Json → Option Nat := fun _ => none
  /-- Does the module with a source nest deeper than there is stack for? -/
  overtaxes : Text → Bool := fun _ => false

/-- What does not change while a job runs. `trees` are concrete syntax trees that are known for
some sources. -/
structure Settings where
  debug : Bool := false
  colors : Bool := true
  featuresBase : Option Text := none
  trees : List (Text × Concrete) := []
  host : Host := {}

/-- What a job changes. -/
structure World where
  files : Files := {}
  loaded : List (FeatureSetKey × FeatureMap) := []
  out : Text := []
  err : Text := []

/-- Work on a world, which may fail; what it has done before stays done. -/
abbrev Job := ReaderT Settings (ExceptT Failure (StateM World))

namespace Job

/-- The value of a step that may fail. -/
def lift {ε α : Type} (wrap : ε → Failure) : Except ε α → Job α
  | .ok a => pure a
  | .error e => throw (wrap e)

/-! ## Channels -/

/-- Writes to the output channel, which takes any text. -/
def write (t : Text) : Job Unit := modify fun w => { w with out := w.out ++ t }

/-- Writes to the output channel of the system, which may take only a part of `t`, and no lone
surrogate. -/
def writeOut (t : Text) : Job Unit := do
  if (← read).host.utf8Out && t.utf8?.isNone then throw .loneSurrogate
  match (← read).host.outShortfall? t with
  | none => write t
  | some (count, refusal) =>
    write (t.take count)
    throw (.file (.refused refusal))

/-- Writes to the channel for diagnostics. -/
def writeErr (t : Text) : Job Unit := modify fun w => { w with err := w.err ++ t }

/-- A line to the output channel of the system. -/
def print (t : Text) : Job Unit := writeOut (t ++ text "\n")

/-- A line with a tag to the channel for diagnostics. -/
private def tagged (style tag : String) (t : Text) : Job Unit :=
  writeErr (text "\x1b[" ++ text style ++ text "m[" ++ text tag ++ text "]\x1b[0m " ++ t ++
    text "\n")

/-- A remark for those who look into a run. -/
def debug (t : Text) : Job Unit := do
  if (← read).debug then tagged "1" "DEBUG" t

/-- A remark. -/
def info (t : Text) : Job Unit := tagged "1;34" "INFO" t

/-- A warning. -/
def warn (t : Text) : Job Unit := tagged "1;33" "WARNING" t

/-- An error that is reported. -/
def error (t : Text) : Job Unit := tagged "1;31" "ERROR" t

/-! ## Files -/

/-- Some paths are none to the system, whatever files there are: those with a surrogate that stands
for no byte, and those with NUL. -/
def checkPath (path : Text) : Job Unit := do
  if !PathText.isEncodable path then throw .loneSurrogate
  if PathText.hasNul path then throw .nulInPath

/-- The system may refuse an act. -/
def allow (act : FileAct) (path : Text) : Job Unit := do
  if let some refusal := (← read).host.refusal? act path then throw (.file (.refused refusal))

/-- The text of a file, line terminators made one. -/
def readText (path : Text) : Job Text := do
  checkPath path
  let bytes ← lift .file ((← get).files.read path)
  allow .read path
  let t ← lift .notUtf8 (Utf8.decode bytes)
  return t.unifyNewlines

/-- Makes a directory, with those that are missing on the way. -/
def makeDirectory (path : Text) : Job Unit := do
  checkPath path
  let files ← lift .file ((← get).files.makeDirectory path)
  allow .makeDirectory path
  modify fun w => { w with files }

/-- Puts bytes into the file at a path. -/
def putBytes (path : Text) (bytes : List UInt8) : Job Unit := do
  let files ← lift .file ((← get).files.write path bytes)
  modify fun w => { w with files }

/-- Writes the text of a file: the file is made empty, and then filled. -/
def writeText (path t : Text) : Job Unit := do
  checkPath path
  allow .write path
  putBytes path []
  match t.utf8? with
  | none => throw .loneSurrogate
  | some bytes =>
    match (← read).host.shortfall? path bytes with
    | none => putBytes path bytes
    | some (count, refusal) =>
      putBytes path (bytes.take count)
      throw (.file (.refused refusal))

/-- Writes a JSON value to a file, as much of it as there is stack for. -/
def writeJson (path : Text) (value : Json) : Job Unit := do
  match (← read).host.breakOff? value with
  | none => writeText path value.compact
  | some count =>
    writeText path (value.compact.take count)
    throw .stackExhausted

/-- The outcome of a job on a world. -/
def run {α : Type} (job : Job α) (settings : Settings) (w : World) : Except Failure α × World :=
  (ReaderT.run job settings).run.run w

end Job
end FlagFold
