/-
  FlagFold.Main

  The program.  It takes the files that a run may read into a file tree, runs the
  command on it, says what the run said, and writes back the files that it changed.
  Places below the working directory are told by their steps from there, so that a
  place is the same however a path leads to it.
-/

import FlagFold.Command.Run

namespace FlagFold.Main

/-- How the program is called. -/
def usage : String :=
  "usage: flagfold [-h] [-f NAME] [--features-json FILE] [--static-only NAME] [-O DIR]\n" ++
  "                [--source-map] [-o short|json] [-da] [-cp] [--list-feature-sets]\n" ++
  "                [input]"

/-- Are the contents of a file in a directory of interest, going by its name? -/
def isRead (name : Text) : Bool :=
  Sources.isSource name || (text ".map").isSuffixOf name || (text ".json").isSuffixOf name

/-- The place that a path really leads to, `here` being the steps to the working directory. -/
def placeOf (here : List Text) (path : String) : IO (Option (List Text)) := do
  try
    let steps := PathText.steps (text (← IO.FS.realPath path).toString)
    return some (if here.isPrefixOf steps then steps.drop here.length else Files.rootStep :: steps)
  catch _ => return none

/-- The other names of the working directory: the steps from the root of all files, and two dots for
the directory above it. -/
def namesOfHere (here : List Text) : Files where
  links :=
    [⟨Files.rootStep :: here, []⟩,
     ⟨[text ".."], if here.isEmpty then [] else Files.rootStep :: here.dropLast⟩]
  directories := [Files.rootStep :: here.dropLast]

/-- The names in a directory, if there is one. -/
def namesIn (path : String) : IO (Option (List String)) := do
  try
    let entries ← ((← IO.currentDir) / path).readDir
    return some (entries.toList.map (·.fileName))
  catch _ => return none

/-- Two file trees in one. -/
def merge (files more : Files) : Files :=
  let files := more.entries.foldl (fun files f => files.put f.steps f.bytes) files
  { files with
    links := files.links ++ more.links.filter (!files.isLink ·.steps)
    directories := files.directories ++ more.directories }

/-- The file at a path that leads to `place`, if it can be read. What no run reads is there without
its contents. -/
def fileAt (path : String) (place : List Text) : IO Files := do
  try
    let bytes ←
      if isRead (place.getLastD []) then IO.FS.readBinFile path else pure ByteArray.empty
    return { entries := [⟨place, bytes.toList⟩] }
  catch _ => return {}

/-- What is at a path and below it, at most `depth` directories deep. `written` is the place to
which the path would lead without links; a link to a directory is not followed, unless it is where
one begins to look. -/
def filesBelow (here : List Text) : (depth : Nat) → (first : Bool) → String → List Text → IO Files
  | 0, _, _, _ => return {}
  | depth + 1, first, path, written => do
    let some place ← placeOf here path | return {}
    let link : Files := if place = written then {} else { links := [⟨written, place⟩] }
    match ← namesIn path with
    | none => return merge link (← fileAt path place)
    | some names =>
      let directory := merge link { directories := [place] }
      if !first && place ≠ written then return directory
      let inner ← (names.filter fun name => !Sources.skippedDirectories.contains (text name)).mapM
        fun name => filesBelow here depth false (path ++ "/" ++ name) (place ++ [text name])
      return inner.foldl merge directory

/-- The bound on how deep directories are looked into. -/
def directoryDepth : Nat := 64

/-- The files that a run may read. -/
def filesFor (o : Options) (base : Option String) : IO Files := do
  let here := PathText.steps (text (← IO.FS.realPath (← IO.currentDir)).toString)
  let given := [o.input.getD [], o.input.getD [] ++ text ".map", o.featuresJson,
    o.outputDir.getD []].map Text.toString
  let roots := given ++ (base.map fun b => [b ++ "/features"]).getD []
  let start := namesOfHere here
  let found ← (roots.filter (!·.isEmpty)).mapM fun root =>
    filesBelow here directoryDepth true root (start.resolve (text root))
  return found.foldl merge start

/-- Makes the directories that are new, and writes back the files that differ from what they
were. -/
def writeBack (before after : Files) : IO Unit := do
  for directory in after.directories do
    if !before.hasDirectory directory then
      IO.FS.createDirAll (Files.pathOf directory).toString
  for f in after.entries do
    if before.bytesAt? f.steps ≠ some f.bytes then
      IO.FS.writeBinFile (Files.pathOf f.steps).toString ⟨f.bytes.toArray⟩

/-- Is a variable of the environment set to something? -/
def isSet (name : String) : IO Bool := do
  return ((← IO.getEnv name).map (!·.isEmpty)).getD false

/-- Runs the command with the given options; the result is the exit status. -/
def runWith (o : Options) : IO UInt32 := do
  let base ← IO.getEnv "STATIC_HAS_FEATURES_BASE"
  let files ← filesFor o base
  let settings : Settings :=
    { debug := ← isSet "STATIC_HAS_DEBUG", colors := !(← isSet "STATIC_HAS_NO_COLORS")
      featuresBase := base.map text, host := { utf8Out := true } }
  let (result, world) := (Command.run o).run settings { files }
  IO.print world.out.toString
  IO.eprint world.err.toString
  writeBack files world.files
  match result with
  | .ok status => return status.toUInt32
  | .error failure =>
    IO.eprintln failure.message.toString
    return 1

end FlagFold.Main

/-- Runs the command line. -/
def main (arguments : List String) : IO UInt32 := do
  match FlagFold.Options.parse (arguments.map FlagFold.text) with
  | .ok options => FlagFold.Main.runWith options
  | .error fault =>
    IO.eprintln FlagFold.Main.usage
    return if fault = .helpWanted then 0 else 2
