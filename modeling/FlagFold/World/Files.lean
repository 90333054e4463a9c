/-
  FlagFold.World.Files

  A file tree as a value: files, directories, and links, by which one place has
  several names.  Paths are texts with steps between slashes, relative to the root of
  the tree.  Where a path leads is told by its steps and the links alone
  (`Files.resolve`); it leads there if its two dots go up from directories
  (`Files.locate`).
-/

import FlagFold.Text.Quoted

namespace FlagFold

/-! ## Paths -/

namespace PathText

/-- The steps of a path; empty ones and single dots say nothing. -/
def steps (path : Text) : List Text :=
  (path.splitOn '/').filter fun s => !s.isEmpty && s ≠ text "."

/-- Does a path begin at the root of all files? -/
def isAbsolute (path : Text) : Bool := path.head? = some (CodePoint.ofChar '/')

/-- Can a path be written in bytes? Of the surrogates only those can that stand for a byte which is
no UTF-8. -/
def isEncodable (path : Text) : Bool :=
  path.all fun c => !c.isSurrogate || (0xDC80 ≤ c.value && c.value ≤ 0xDCFF)

/-- Is there a NUL in a path? -/
def hasNul (path : Text) : Bool := path.any (·.value = 0)

/-- The text of steps. -/
def ofSteps (absolute : Bool) (steps : List Text) : Text :=
  let inner := Text.join (text "/") steps
  if absolute then text "/" ++ inner
  else if steps.isEmpty then text "." else inner

/-- A path without the parts that say nothing. -/
def normalize (path : Text) : Text := ofSteps (isAbsolute path) (steps path)

/-- A path below another. -/
def below (base path : Text) : Text :=
  if isAbsolute path then normalize path
  else ofSteps (isAbsolute base) (steps base ++ steps path)

/-- The last step of a path. -/
def fileName (path : Text) : Text := (steps path).getLastD []

/-- A name without its last ending, unless that is all there is. -/
def stem (name : Text) : Text :=
  let ending := (name.reverse.takeWhile fun (c : CodePoint) => !(c = '.')).length
  if ending = 0 ∨ name.length ≤ ending + 1 then name else name.take (name.length - ending - 1)

end PathText

/-! ## Files -/

/-- What the system is asked to do with a path. -/
inductive FileAct where
  | read
  | makeDirectory
  | write
  deriving DecidableEq

/-- The number and the wording of a reason for which the system refuses an act. -/
structure Refusal where
  number : Nat
  reason : Text
  deriving DecidableEq

/-- Why a file cannot be read or written. -/
inductive FileFault where
  | missing (path : Text)
  | isDirectory (path : Text)
  | notDirectory (path : Text)
  | alreadyThere (path : Text)
  | refused (refusal : Refusal)
  deriving DecidableEq

/-- The wording of a fault. -/
def FileFault.message : FileFault → Text
  | missing path => text "[Errno 2] No such file or directory: " ++ path.quoted
  | isDirectory path => text "[Errno 21] Is a directory: " ++ path.quoted
  | notDirectory path => text "[Errno 20] Not a directory: " ++ path.quoted
  | alreadyThere path => text "[Errno 17] File exists: " ++ path.quoted
  | refused refusal => text "[Errno " ++ Text.ofNat refusal.number ++ text "] " ++ refusal.reason

/-- A file: the steps to it, and its bytes. -/
structure FileEntry where
  steps : List Text
  bytes : List UInt8

/-- A name that leads elsewhere: the steps to it, and the steps to the place `target` where it ends,
which is no such name. A symbolic link is one, and so is each further name of a file that has
several. -/
structure Link where
  steps : List Text
  target : List Text

/-- A file tree. `directories` are there whether or not anything is in them; beside these, each
directory is there that leads to a file or a link. -/
structure Files where
  entries : List FileEntry := []
  links : List Link := []
  directories : List (List Text) := []

namespace Files

/-- The step to the root of all files, for paths that begin there. -/
def rootStep : Text := text "/"

/-- The bytes of the file at the given steps. -/
def bytesAt? (files : Files) (steps : List Text) : Option (List UInt8) :=
  (files.entries.find? (·.steps = steps)).map (·.bytes)

/-- The steps to all files and links. -/
def places (files : Files) : List (List Text) :=
  files.entries.map (·.steps) ++ files.links.map (·.steps)

/-- Is there a directory at the given steps? -/
def hasDirectory (files : Files) (steps : List Text) : Bool :=
  steps.isEmpty || steps = [rootStep] || files.directories.any steps.isPrefixOf ||
    files.places.any fun place => steps.isPrefixOf place && steps.length < place.length

/-- Puts a file at the given steps. -/
def put (files : Files) (steps : List Text) (bytes : List UInt8) : Files :=
  if files.entries.any (·.steps = steps) then
    { files with
      entries := files.entries.map fun f => if f.steps = steps then ⟨steps, bytes⟩ else f }
  else { files with entries := files.entries ++ [⟨steps, bytes⟩] }

/-- Takes away the file at the given steps. -/
def remove (files : Files) (steps : List Text) : Files :=
  { files with entries := files.entries.filter (·.steps ≠ steps) }

/-- Makes a directory at the given steps. -/
def addDirectory (files : Files) (steps : List Text) : Files :=
  { files with directories := files.directories ++ [steps] }

/-- Is there a link at the given steps? -/
def isLink (files : Files) (steps : List Text) : Bool := files.links.any (·.steps = steps)

/-- Where the given steps end: at the target if they are those of a link. -/
def ends (files : Files) (steps : List Text) : List Text :=
  match files.links.find? (·.steps = steps) with
  | some link => link.target
  | none => steps

/-- The steps of a path as they are written. -/
def stepsOf (path : Text) : List Text :=
  if PathText.isAbsolute path then rootStep :: PathText.steps path else PathText.steps path

/-- Does a step lead down from the place `here`? Two dots lead up; above where the tree starts they
are steps like others. -/
def leadsDown (here : List Text) (step : Text) : Bool :=
  step ≠ text ".." || here.all (· = text "..")

/-- Goes one step on from the place `here`. There is nothing above the root of all files. -/
def next (files : Files) (here : List Text) (step : Text) : List Text :=
  if leadsDown here step then files.ends (here ++ [step])
  else if here = [rootStep] then here else here.dropLast

/-- The place to which a path leads if it leads anywhere. -/
def resolve (files : Files) (path : Text) : List Text := (stepsOf path).foldl files.next []

/-- Goes one step on, if there is a directory to go up from. -/
def follow (files : Files) (here : Option (List Text)) (step : Text) :
    Option (List Text) :=
  match here with
  | none => none
  | some steps =>
    if leadsDown steps step || files.hasDirectory steps then some (files.next steps step) else none

/-- The place to which a path leads, if it leads anywhere. -/
def locate (files : Files) (path : Text) : Option (List Text) :=
  if path.isEmpty then none else (stepsOf path).foldl (follow files) (some [])

/-- The path of steps in the tree. -/
def pathOf : List Text → Text
  | [] => text "."
  | step :: rest =>
    if step = rootStep then PathText.ofSteps true rest else PathText.ofSteps false (step :: rest)

/-- Is there a file at a path? -/
def isFile (files : Files) (path : Text) : Bool :=
  ((files.locate path).bind files.bytesAt?).isSome

/-- Is there a directory at a path? -/
def isDirectory (files : Files) (path : Text) : Bool :=
  ((files.locate path).map files.hasDirectory).getD false

/-- Does any file stand on the way to the given steps? -/
private def isBlocked (files : Files) (steps : List Text) : Bool :=
  files.entries.any fun f => f.steps.isPrefixOf steps && f.steps.length < steps.length

/-- The bytes of the file at a path. -/
def read (files : Files) (path : Text) : Except FileFault (List UInt8) :=
  match files.locate path with
  | none => .error (.missing path)
  | some steps =>
    match files.bytesAt? steps with
    | some bytes => .ok bytes
    | none =>
      if files.hasDirectory steps then .error (.isDirectory path)
      else if files.isBlocked steps then .error (.notDirectory path)
      else .error (.missing path)

/-- Makes the directories that are missing on the way from the place `here` along the steps `rest`,
to which the steps `done` have led. Neither a file nor a link that leads to nothing can be made a
directory. -/
def makeAlong (files : Files) (here done : List Text) : List Text → Except FileFault Files
  | [] => .ok files
  | step :: rest =>
    let there := files.next here step
    let isFile := (files.bytesAt? there).isSome
    if files.hasDirectory there then files.makeAlong there (done ++ [step]) rest
    else if isFile || files.isLink (here ++ [step]) then
      match rest with
      | [] => .error (.alreadyThere (pathOf (done ++ [step])))
      | inner :: _ =>
        let path := pathOf (done ++ [step, inner])
        .error (if isFile then .notDirectory path else .missing path)
    else (files.addDirectory there).makeAlong there (done ++ [step]) rest

/-- Makes a directory at a path, with all that are missing on the way. -/
def makeDirectory (files : Files) (path : Text) : Except FileFault Files :=
  files.makeAlong [] [] (stepsOf path)

/-- Writes the file at a path, in a directory that is there. -/
def write (files : Files) (path : Text) (bytes : List UInt8) : Except FileFault Files :=
  match files.locate path with
  | none => .error (.missing path)
  | some steps =>
    if files.hasDirectory steps then .error (.isDirectory path)
    else if files.hasDirectory steps.dropLast then .ok (files.put steps bytes)
    else .error (if files.isBlocked steps then .notDirectory path else .missing path)

/-- The names directly in the directory at the given steps, each once. -/
def names (files : Files) (steps : List Text) : List Text :=
  let found := (files.places ++ files.directories).filterMap fun place =>
    if steps.isPrefixOf place then (place.drop steps.length).head? else none
  found.eraseDups

end Files
end FlagFold
