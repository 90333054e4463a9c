/-
  FlagFold.Print.Program

  Prints a program: its source with the edits carried out that its tree asks for,
  and the source map from the output to that source.
-/

import FlagFold.Print.Render
import FlagFold.SourceMap.Compose

namespace FlagFold

namespace Node

/-- The sheet on which a program is printed. -/
def sheet (program : Node) : Sheet := Sheet.ofSource program.source

/-- The edit that puts the comments of a program after its end. -/
def endEdit (program : Node) : List Edit :=
  let cs := program.comments.filter (!·.leading)
  let stop := program.source.length
  if cs.isEmpty then []
  else [⟨stop, stop, Comment.lines [] program.sheet.newline cs, true⟩]

/-- All edits of a program. -/
def programEdits (program : Node) : Except PrintError (List Edit) := do
  return (← program.sheet.innerEdits program.shape) ++ program.endEdit

/-- The chunks of which the output consists. -/
def printChunks (program : Node) : Except PrintError (List Chunk) := do
  program.sheet.splice 0 program.source.length (← program.programEdits)

/-- The output. -/
def print (program : Node) : Except PrintError Text := do
  return program.sheet.write (← program.printChunks)

/-- The text of a node of the program. -/
def render (program node : Node) : Except PrintError Text := program.sheet.render node

end Node

/-! ## The map of a printed program -/

/-- The mappings of an output, given by the offsets from which its source runs on evenly. On each
line the last of several segments at one column counts. -/
def Mappings.ofAnchors (source output : Text) (anchors : List (Nat × Nat)) : Mappings :=
  let outputStarts := output.lineStarts
  let sourceStarts := source.lineStarts
  let placed := anchors.map fun (o, s) =>
    let place := Text.positionIn outputStarts o
    let target := Text.positionIn sourceStarts s
    (place.line, Segment.mk place.column (some ⟨0, target.line, target.column, none⟩))
  (List.range outputStarts.length).map fun line =>
    (((placed.filter (·.1 = line)).map (·.2)).foldl SourceMap.push []).reverse

/-- A printed program with its map. -/
structure Printed where
  code : Text
  map : SourceMap

/-- The output and its map, in which the source is called `name`. -/
def Node.printMapped (program : Node) (name : Option Text) : Except PrintError Printed := do
  let chunks ← program.printChunks
  let code := program.sheet.write chunks
  let anchors := Chunk.anchorsFrom program.source 0 chunks
  return ⟨code, .ofMappings (.ofAnchors program.source code anchors) name name⟩

end FlagFold
