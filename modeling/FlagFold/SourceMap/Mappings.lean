/-
  FlagFold.SourceMap.Mappings

  The `mappings` text of a source map.  Lines of the generated text stand between
  semicolons, their segments between commas; every number is the difference to
  the one of its kind before, columns starting again at zero on each line.
-/

import FlagFold.SourceMap.Vlq

namespace FlagFold

/-- A place in one of the sources: its index, line and column, and the index of a name. -/
structure Target where
  source : Int
  line : Int
  column : Int
  name : Option Int := none
  deriving DecidableEq

/-- Where a stretch of a generated line starts and what it comes from, if from anything. -/
structure Segment where
  column : Int
  target : Option Target := none
  deriving DecidableEq

/-- The segments of each generated line. -/
abbrev Mappings := List (List Segment)

/-- The segment of a list of numbers, in the order in which they are written. With less than
four there is no target; with five the last is the name. -/
def Segment.ofNumbers? : List Int → Option Segment
  | [] => none
  | [column, source, line, col, name] => some ⟨column, some ⟨source, line, col, some name⟩⟩
  | column :: source :: line :: col :: _ => some ⟨column, some ⟨source, line, col, none⟩⟩
  | column :: _ => some ⟨column, none⟩

/-- The numbers of a segment. -/
def Segment.toNumbers (s : Segment) : List Int :=
  match s.target with
  | none => [s.column]
  | some t => [s.column, t.source, t.line, t.column] ++ t.name.toList

namespace Mappings

/-- The last value of each kind, to which the next one is a difference. -/
structure Last where
  source : Int := 0
  line : Int := 0
  column : Int := 0
  name : Int := 0

/-! ## Writing -/

/-- One segment after the given values. -/
def encodeSegment (last : Last) (generated : Int) (s : Segment) : Text × Last :=
  match s.target with
  | none => (Vlq.encode (s.column - generated), last)
  | some t =>
    let place := Vlq.encode (s.column - generated) ++ Vlq.encode (t.source - last.source) ++
      Vlq.encode (t.line - last.line) ++ Vlq.encode (t.column - last.column)
    match t.name with
    | none => (place, ⟨t.source, t.line, t.column, last.name⟩)
    | some name => (place ++ Vlq.encode (name - last.name), ⟨t.source, t.line, t.column, name⟩)

/-- The segments of a line, each as its own text. -/
def encodeLine (last : Last) (generated : Int) : List Segment → List Text × Last
  | [] => ([], last)
  | s :: rest =>
    let (t, last) := encodeSegment last generated s
    let (ts, last) := encodeLine last s.column rest
    (t :: ts, last)

/-- The lines, each as its own text. -/
def encodeLines (last : Last) : Mappings → List Text
  | [] => []
  | line :: rest =>
    let (ts, last) := encodeLine last 0 line
    Text.join (text ",") ts :: encodeLines last rest

/-- The text of mappings. -/
def encode (m : Mappings) : Text := Text.join (text ";") (encodeLines {} m)

/-! ## Reading -/

/-- The segment whose differences are given, and the values after it. -/
def decodeSegment (last : Last) (generated : Int) (written : Text) :
    List Int → Except MapFault (Segment × Last)
  | [column] => .ok (⟨generated + column, none⟩, last)
  | [column, source, line, col] =>
    let last : Last := ⟨last.source + source, last.line + line, last.column + col, last.name⟩
    .ok (⟨generated + column, some ⟨last.source, last.line, last.column, none⟩⟩, last)
  | [column, source, line, col, name] =>
    let last : Last :=
      ⟨last.source + source, last.line + line, last.column + col, last.name + name⟩
    .ok (⟨generated + column, some ⟨last.source, last.line, last.column, some last.name⟩⟩, last)
  | numbers => .error (.fieldCount written numbers.length)

/-- The segments of a line in the order in which they are written. -/
def decodeLine (last : Last) (generated : Int) : List Text → Except MapFault (List Segment × Last)
  | [] => .ok ([], last)
  | written :: rest =>
    if written.isEmpty then decodeLine last generated rest
    else do
      let numbers ← Vlq.decodeAll written
      let (s, last) ← decodeSegment last generated written numbers
      let (ss, last) ← decodeLine last s.column rest
      return (s :: ss, last)

/-- The lines, segments of each in order of their columns; those of one column keep the order in
which they are written. -/
def decodeLines (last : Last) : List Text → Except MapFault Mappings
  | [] => .ok []
  | line :: rest => do
    let (ss, last) ← decodeLine last 0 (line.splitOn ',')
    return ss.mergeSort (fun a b => a.column ≤ b.column) :: (← decodeLines last rest)

/-- The mappings of a text. -/
def decode (t : Text) : Except MapFault Mappings := decodeLines {} (t.splitOn ';')

/-! ## Looking up -/

/-- The last segment of a line that starts at or before a column, the segments being looked
through up to the first that starts after it. -/
def segmentAt (line : List Segment) (column : Int) : Option Segment :=
  (line.takeWhile (·.column ≤ column)).getLast?

/-- What the text at a generated line and column comes from. -/
def lookup (m : Mappings) (line column : Int) : Option Target :=
  if line < 0 then none
  else match m[line.toNat]? with
    | none => none
    | some segments => (segmentAt segments column).bind (·.target)

end Mappings
end FlagFold
