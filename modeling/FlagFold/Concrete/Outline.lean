/-
  FlagFold.Concrete.Outline

  A concrete syntax tree as an indented list of its named nodes, each with its
  place; parts that matter to the passes are labelled, and nodes without named
  children show their text.
-/

import FlagFold.Concrete.Basic
import FlagFold.Text.Quoted

namespace FlagFold.Concrete

/-- The parts that are labelled, in the order in which they are looked for. -/
def labelledFields : List String :=
  ["name", "value", "source", "condition", "consequence", "alternative", "body", "function",
   "arguments", "object", "property", "left", "right"]

/-- The label of a child: the first labelled part of its parent that covers the same text and is
of its kind. -/
def labelOf (parent child : Concrete) : Option String :=
  labelledFields.find? fun field =>
    match parent.child? field with
    | some c => c.start = child.start && c.stop = child.stop && c.kind = child.kind
    | none => false

/-- The depth to which trees are listed where none is asked for. -/
def outlineDepth : Nat := 10

mutual

/-- The lines of a node and of `levels` levels below it. -/
def outlineLines (index : SourceIndex) (depth : Nat) (label : Text) (levels : Nat) :
    Concrete → List Text
  | ⟨kind, start, stop, field, anonymous, missing, children⟩ =>
    let node : Concrete := ⟨kind, start, stop, field, anonymous, missing, children⟩
    let place := index.bytePosition start
    let head := List.replicate (2 * depth) (CodePoint.ofChar ' ') ++ label ++ text kind ++
      text " " ++ Text.ofNat (place.line + 1) ++ text ":" ++ Text.ofNat place.column
    let head :=
      if node.namedChildren.isEmpty then
        head ++ text " " ++ ((index.slice node).preview Text.previewWidth).quoted
      else head
    match levels with
    | 0 => [head]
    | levels + 1 => head :: outlineChildren index node (depth + 1) levels children

/-- The lines of the named nodes among the children of `parent`. -/
def outlineChildren (index : SourceIndex) (parent : Concrete) (depth levels : Nat) :
    List Concrete → List Text
  | [] => []
  | child :: rest =>
    (if child.anonymous then []
     else
      let label := match labelOf parent child with
        | some field => text field ++ text ": "
        | none => []
      outlineLines index depth label levels child) ++
      outlineChildren index parent depth levels rest

end

/-- The listing of a tree down to `maxDepth`, each line ended. -/
def outline (source : Text) (maxDepth : Int) (root : Concrete) : Text :=
  if maxDepth < 0 then []
  else (outlineLines (SourceIndex.ofText source) 0 [] maxDepth.toNat root).flatMap
    (· ++ text "\n")

end FlagFold.Concrete
