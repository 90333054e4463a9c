/-
  FlagFold.SourceMap.Compose

  Chains two source maps: one leads from a text to its sources, the other from an
  edited text to that text, and the composed map from the edited text to the
  sources.
-/

import FlagFold.SourceMap.Basic

namespace FlagFold

/-- Why two maps cannot be chained: one of them is faulty, or a part that is carried along as a
list is none. -/
inductive ComposeError where
  | fault (f : MapFault)
  | notAList (value : Json)

namespace SourceMap

/-- A segment of the edited text, led on to the sources; none where the chain breaks. -/
def chain (input : Mappings) (s : Segment) : Option Segment :=
  match s.target with
  | none => none
  | some t => (input.lookup t.line t.column).map fun target => ⟨s.column, some target⟩

/-- Adds a segment to a line, given from its end: it takes the place of a last one at its
column. -/
def push (line : List Segment) (s : Segment) : List Segment :=
  match line with
  | [] => [s]
  | last :: before => if last.column = s.column then s :: before else s :: line

/-- One line of the edited text. -/
def chainLine (input : Mappings) (line : List Segment) : List Segment :=
  ((line.filterMap (chain input)).foldl push []).reverse

/-- The mappings of the chain. -/
def chainMappings (input edits : Mappings) : Mappings := edits.map (chainLine input)

/-- A value as a list: an object stands for its names and a string for its code points. -/
def listOf : Json → Except ComposeError (List Json)
  | .arr items => .ok items
  | .str t => .ok (t.map fun c => .str [c])
  | .obj members => .ok (members.map fun (name, _) => .str name)
  | other => .error (.notAList other)

/-- The list in a member of a document, empty where there is no such member. -/
def listMember (name : String) (document : Json) : Except ComposeError (List Json) :=
  match document.member? (text name) with
  | none => .ok []
  | some value => listOf value

/-- The chain of two maps. Sources, names and their likes are those of `input`. -/
def compose (input edits : Json) : Except ComposeError SourceMap := do
  let inputMappings ← (check .input input).mapError .fault
  let editMappings ← (check .generated edits).mapError .fault
  -- A name that counts as false gives way to that of the edits.
  let file :=
    match input.member? (text "file") with
    | some f => if f.isTruthy then f else (edits.member? (text "file")).getD (.str [])
    | none => (edits.member? (text "file")).getD (.str [])
  let sources ← listMember "sources" input
  let names ← listMember "names" input
  let sourcesContent ← match input.member? (text "sourcesContent") with
    | none => pure none
    | some value => some <$> listOf value
  return {
    file, sources, names, sourcesContent
    mappings := (chainMappings inputMappings editMappings).encode
    sourceRoot := input.member? (text "sourceRoot") }

end SourceMap
end FlagFold
