/-
  FlagFold.Concrete.Basic

  Concrete syntax trees: every token of a source is a leaf, offsets count bytes.
  A parser that recovers from errors marks what it could not read by `ERROR`
  nodes and what it made up by missing ones.
-/

import FlagFold.Text.Lines
import FlagFold.Text.Utf8

namespace FlagFold

/-- A node of a concrete syntax tree. `field` is the part that it plays in its parent;
punctuation and keywords are anonymous. -/
structure Concrete where
  kind : String
  start : Nat
  stop : Nat
  field : Option String := none
  anonymous : Bool := false
  missing : Bool := false
  children : List Concrete := []

namespace Concrete

instance : Inhabited Concrete := ⟨⟨"", 0, 0, none, false, false, []⟩⟩

/-- The children that are not anonymous. -/
def namedChildren (node : Concrete) : List Concrete := node.children.filter (!·.anonymous)

/-- The kinds of comments. -/
def isComment (node : Concrete) : Bool := node.kind = "comment" || node.kind = "html_comment"

/-- The named children other than comments. -/
def parts (node : Concrete) : List Concrete := node.namedChildren.filter (!·.isComment)

/-- The first child that plays a part. -/
def child? (node : Concrete) (field : String) : Option Concrete :=
  node.children.find? (·.field = some field)

/-- The node as a part of its parent. -/
def asPart (node : Concrete) (field : String) : Concrete := { node with field := some field }

/-- Was the node put in the place of something that could not be read or was not there? -/
def isFault (node : Concrete) : Bool := node.kind = "ERROR" || node.missing

mutual

/-- Is the node a fault, or any node below it? -/
def hasFault : Concrete → Bool
  | ⟨kind, _, _, _, _, missing, children⟩ => kind = "ERROR" || missing || anyFault children

/-- Has any of the nodes a fault? -/
def anyFault : List Concrete → Bool
  | [] => false
  | node :: rest => node.hasFault || anyFault rest

end

/-! ## Trees from rows -/

/-- A node without its children, as a list of nodes in pre-order gives it. -/
structure Row where
  depth : Nat
  node : Concrete

/-- Closes the open nodes, the innermost first, that are at `depth` or below: each becomes the
last child of the one that encloses it. Children are kept last first. -/
private def close (depth : Nat) : List Row → List Row
  | [] => []
  | [row] => [row]
  | row :: parent :: rest =>
    if depth ≤ row.depth then
      let child := { row.node with children := row.node.children.reverse }
      close depth (⟨parent.depth, { parent.node with children := child :: parent.node.children }⟩
        :: rest)
    else row :: parent :: rest
termination_by rows => rows.length

/-- The tree of its nodes in pre-order: the parent of a node is the closest one before it whose
depth is smaller by one. -/
def ofRows? (rows : List Row) : Option Concrete :=
  let opened := rows.foldl (fun stack row => row :: close row.depth stack) []
  match close 0 opened with
  | [root] => some { root.node with children := root.node.children.reverse }
  | _ => none

end Concrete

/-! ## Places in a source -/

/-- A source text with what is needed to turn byte offsets into places. Its code points are
kept in an array, from which the text of a node is cut without going through what is before. -/
structure SourceIndex where
  points : Array CodePoint
  offsets : Text.Offsets
  lineBytes : List Nat

namespace SourceIndex

/-- The byte offsets just after each line feed, `offset` being that of the first code point. -/
def lineBytesFrom (offset : Nat) : Text → List Nat
  | [] => []
  | c :: rest =>
    let next := offset + c.utf8Length
    if c.isLineFeed then next :: lineBytesFrom next rest else lineBytesFrom next rest

/-- The index of a source. -/
def ofText (t : Text) : SourceIndex := ⟨t.toArray, t.offsets, 0 :: lineBytesFrom 0 t⟩

/-- The line of a byte offset and the number of bytes before it on that line. -/
def bytePosition (index : SourceIndex) (byte : Nat) : Text.Position :=
  Text.positionIn index.lineBytes byte

/-- The code point offset of a byte offset. -/
def toChar (index : SourceIndex) (byte : Nat) : Nat := index.offsets.toChar byte

/-- The column of a byte offset in code points, counted from one. -/
def column (index : SourceIndex) (byte : Nat) : Nat :=
  let lineStart := byte - (index.bytePosition byte).column
  index.toChar byte - index.toChar lineStart + 1

/-- The source text between two code point offsets. -/
def between (index : SourceIndex) (start stop : Nat) : Text :=
  (index.points.extract start stop).toList

@[simp] theorem between_ofText (t : Text) (start stop : Nat) :
    (ofText t).between start stop = t.slice start stop := by
  simp [between, ofText, Text.slice, List.extract_eq_take_drop]

/-- The source text of a node. -/
def slice (index : SourceIndex) (node : Concrete) : Text :=
  index.between (index.toChar node.start) (index.toChar node.stop)

end SourceIndex
end FlagFold
