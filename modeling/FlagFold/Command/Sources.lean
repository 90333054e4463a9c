/-
  FlagFold.Command.Sources

  Which files a run works on, and where their output goes.
-/

import FlagFold.World.Files

namespace FlagFold.Sources

/-- The endings of source files. -/
def endings : List Text :=
  [".js", ".mjs", ".cjs", ".jsx", ".ts", ".mts", ".cts", ".tsx"].map text

/-- The endings of files that are not worked on although they look like sources. -/
def excludedEndings : List Text := [text ".d.ts", text ".min.js"]

/-- The directories that are not looked into. -/
def skippedDirectories : List Text := [text "node_modules", text ".git"]

/-- Is a name that of a source file? -/
def isSource (name : Text) : Bool :=
  !excludedEndings.any (·.isSuffixOf name) && endings.any (·.isSuffixOf name)

/-- The files and links below a directory that are no directories. Links to directories are not
followed. -/
def listed (files : Files) (directory : List Text) : List (List Text) :=
  files.places.filter fun place =>
    directory.isPrefixOf place && !files.hasDirectory (files.ends place)

/-- The source files below a directory, by their steps from there. -/
def below (files : Files) (directory : List Text) : List (List Text) :=
  (listed files directory).filterMap fun place =>
    let steps := place.drop directory.length
    if steps.dropLast.any skippedDirectories.contains then none
    else if isSource (steps.getLastD []) then some steps
    else none

/-- The source files at a path: the file itself, or those in a directory in order. -/
def collect (files : Files) (path : Text) : List Text :=
  let shown := PathText.normalize path
  match files.locate shown with
  | none => []
  | some steps =>
    if (files.bytesAt? steps).isSome then [shown]
    else if files.hasDirectory steps then
      ((below files steps).map fun inner =>
        PathText.below shown (PathText.ofSteps false inner)).mergeSort Text.le
    else []

/-- Where the output for a source file goes: to the same place below the output directory as it
has below the input. -/
def outputPath (files : Files) (source input outputDir : Text) : Text :=
  if files.isFile input then PathText.below outputDir (PathText.fileName source)
  else
    let inner := (PathText.steps source).drop (PathText.steps input).length
    PathText.below outputDir (PathText.ofSteps false inner)

/-- The directory of a file. -/
def directoryOf (path : Text) : Text :=
  let tail := path.reverse.takeWhile fun (c : CodePoint) => !(c = '/')
  let head := path.take (path.length - tail.length)
  let trimmed := (head.reverse.dropWhile fun (c : CodePoint) => c = '/').reverse
  if head.isEmpty then text "." else if trimmed.isEmpty then head else trimmed

end FlagFold.Sources
