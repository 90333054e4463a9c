/-
  FlagFold.Text.Lines

  Lines of a text.  A line ends with a line feed and nothing else; a carriage
  return before it belongs to the line.  Lines and columns count from zero here.
-/

import FlagFold.Text.Basic

namespace FlagFold.Text

/-! ## Line and column of an offset -/

/-- The offsets just after each line feed, `offset` being the offset of the first code point. -/
def lineBreaksFrom (offset : Nat) : Text → List Nat
  | [] => []
  | c :: rest =>
    let later := lineBreaksFrom (offset + 1) rest
    if c.isLineFeed then (offset + 1) :: later else later

/-- The offsets at which the lines of a text start. -/
def lineStarts (t : Text) : List Nat := 0 :: t.lineBreaksFrom 0

/-- A place in a text: line and column. -/
structure Position where
  line : Nat
  column : Nat
  deriving DecidableEq

/-- The place of an offset that is not before the start of `line`, given where the lines after
that one start. -/
def positionFrom (offset line start : Nat) : List Nat → Position
  | [] => ⟨line, offset - start⟩
  | next :: rest =>
    if next ≤ offset then positionFrom offset (line + 1) next rest else ⟨line, offset - start⟩

/-- The place of an offset, given where the lines start: the last line that starts at or
before it. -/
def positionIn (starts : List Nat) (offset : Nat) : Position :=
  positionFrom offset 0 (starts.headD 0) starts.tail

/-- The place of an offset in a text. -/
def position (t : Text) (offset : Nat) : Position := positionIn t.lineStarts offset

/-! ## The line around an offset -/

/-- The start of the line that holds the offset `count` after `here`, if the line at `here`
starts at `start`. -/
def lineStartFrom (start here : Nat) : (count : Nat) → Text → Nat
  | 0, _ | _ + 1, [] => start
  | count + 1, c :: rest =>
    lineStartFrom (if c.isLineFeed then here + 1 else start) (here + 1) count rest

/-- The offset at which the line that holds `offset` starts. -/
def lineStart (t : Text) (offset : Nat) : Nat := lineStartFrom 0 0 offset t

/-- Do only blanks stand before `offset` on its line? -/
def startsLine (t : Text) (offset : Nat) : Bool :=
  (t.slice (t.lineStart offset) offset).all CodePoint.isBlank

/-- The blanks with which the line that holds `offset` begins. -/
def lineIndent (t : Text) (offset : Nat) : Text :=
  (t.drop (t.lineStart offset)).takeWhile CodePoint.isBlank

/-- The line terminator of a text, judged by its first line. -/
def newline (t : Text) : Text :=
  let first := t.takeWhile (!·.isLineFeed)
  if first.length < t.length ∧ first.getLast? = some (CodePoint.ofChar '\r') then text "\r\n"
  else text "\n"

/-- Every terminator, `\r\n` and a lone `\r` included, as one line feed. -/
def unifyNewlines : Text → Text
  | [] => []
  | c :: rest =>
    if c = '\r' then
      match rest with
      | d :: rest' =>
        if d = '\n' then (CodePoint.ofChar '\n') :: unifyNewlines rest'
        else (CodePoint.ofChar '\n') :: unifyNewlines (d :: rest')
      | [] => [CodePoint.ofChar '\n']
    else c :: unifyNewlines rest

end FlagFold.Text
