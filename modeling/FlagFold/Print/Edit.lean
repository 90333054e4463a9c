/-
  FlagFold.Print.Edit

  Edits of a source text and how they are carried out: what no edit covers is
  copied, and the result is a list of chunks, each copied from the source or
  inserted.
-/

import FlagFold.Text.Lines

namespace FlagFold

/-- Why a tree cannot be printed. -/
inductive PrintError where
  | overlap (offset printed : Nat)
  | noText (kind : String)
  | missingPart
  | pastEnd
  deriving DecidableEq

/-- The wording of an error, where it has one. -/
def PrintError.message? : PrintError → Option Text
  | overlap offset printed =>
    some (text "Overlapping edits at offset " ++ Text.ofNat offset ++
      text " (already printed up to " ++ Text.ofNat printed ++ text ")")
  | noText kind => some (text "Cannot generate code for synthetic " ++ text kind ++ text " node")
  | missingPart | pastEnd => none

/-- Puts `text` in the place of the source from `start` to `stop`; with `ownLine` it begins a
line of the output. -/
structure Edit where
  start : Nat
  stop : Nat
  text : Text
  ownLine : Bool := false
  deriving DecidableEq

/-- The order in which edits are carried out. -/
def Edit.le (a b : Edit) : Bool := a.start < b.start || (a.start = b.start && a.stop ≤ b.stop)

/-- Edits in the order in which they are carried out; equal ones keep their order. -/
def Edit.sort (edits : List Edit) : List Edit := edits.mergeSort Edit.le

/-- A stretch of output: copied from the source, or inserted where the source has `offset`. -/
inductive Chunk where
  | copied (start stop : Nat)
  | inserted (offset : Nat) (text : Text)
  deriving DecidableEq

/-- A source with the line terminator in which inserted lines end. -/
structure Sheet where
  source : Text
  newline : Text

/-- The sheet of a source. -/
def Sheet.ofSource (source : Text) : Sheet := ⟨source, source.newline⟩

namespace Chunk

/-- The output of a chunk. -/
def output (source : Text) : Chunk → Text
  | copied start stop => source.slice start stop
  | inserted _ text => text

/-- The output of several chunks. -/
def outputs (source : Text) (chunks : List Chunk) : Text := chunks.flatMap (output source)

/-- A copy, unless it would be empty. -/
def copy (start stop : Nat) : List Chunk := if stop ≤ start then [] else [copied start stop]

/-- The offsets just after the line feeds of a text other than one at its end, counted on from
`offset`. -/
def innerLineStarts (offset : Nat) (t : Text) : List Nat :=
  (t.lineBreaksFrom offset).filter (· < offset + t.length)

/-- The output offsets from which the source runs on evenly, with the source offsets there: the
start of each chunk, and of each line inside a copied one. -/
def anchorsFrom (source : Text) (offset : Nat) : List Chunk → List (Nat × Nat)
  | [] => []
  | chunk :: rest =>
    let size := (chunk.output source).length
    let own := match chunk with
      | copied start _ =>
        (offset, start) ::
          (innerLineStarts 0 (chunk.output source)).map fun i => (offset + i, start + i)
      | inserted start _ => [(offset, start)]
    own ++ anchorsFrom source (offset + size) rest

end Chunk

namespace Sheet

/-- The text that an edit inserts: a line break comes before one that wants a line of its own,
unless the output so far ends a line or there is none. `last` is the chunk before it. -/
def insertion (sheet : Sheet) (last : Text) (edit : Edit) : Text :=
  if edit.ownLine && !edit.text.isEmpty then
    -- The character in front of the inserted text, as far as there is one.
    let previous :=
      if last.isEmpty then sheet.source.slice (edit.start - 1) edit.start
      else last.drop (last.length - 1)
    if !previous.isEmpty && previous ≠ text "\n" then sheet.newline ++ edit.text else edit.text
  else edit.text

/-- Carries out sorted edits on the source from `cursor` to `stop`. -/
def spliceFrom (sheet : Sheet) (stop : Nat) (last : Text) (cursor : Nat) :
    List Edit → Except PrintError (List Chunk)
  | [] => .ok (Chunk.copy cursor stop)
  | edit :: rest =>
    if edit.start < cursor then .error (.overlap edit.start cursor)
    else do
      let copied := Chunk.copy cursor edit.start
      let last := match copied with
        | [] => last
        | chunk :: _ => chunk.output sheet.source
      let inserted := sheet.insertion last edit
      if inserted.isEmpty then
        return copied ++ (← sheet.spliceFrom stop last edit.stop rest)
      else
        return copied ++ .inserted edit.start inserted ::
          (← sheet.spliceFrom stop inserted edit.stop rest)

/-- Carries out edits on the source from `start` to `stop`. -/
def splice (sheet : Sheet) (start stop : Nat) (edits : List Edit) :
    Except PrintError (List Chunk) :=
  sheet.spliceFrom stop [] start (Edit.sort edits)

end Sheet

/-! ## Taking out a statement -/

/-- What is cut for a statement that is taken out. -/
structure Removal where
  start : Nat
  stop : Nat
  wholeLine : Bool
  deriving DecidableEq

/-- The cut for a statement from `start` to `stop`: its whole line if nothing else is on it.
Otherwise the blanks after it go along, or the blanks before it if it ends its line. -/
def Text.removal (source : Text) (start stop : Nat) : Except PrintError Removal :=
  let first := source.lineStart start
  let next := stop + ((source.drop stop).takeWhile CodePoint.isBlank).length
  -- A statement that ends behind the source leaves no character to look at.
  if next > source.length then .error .pastEnd
  else
    let after := source.drop next
    let endsLine := match after with
      | [] => true
      | c :: _ => c = '\n' || c = '\r'
    let before := source.slice first start
    if before.all CodePoint.isBlank then
      -- Nothing comes before it on its first line: the line goes with its terminator.
      if after.isEmpty then .ok ⟨first, next, true⟩
      else if (text "\r\n").isPrefixOf after then .ok ⟨first, next + 2, true⟩
      else if (text "\n").isPrefixOf after then .ok ⟨first, next + 1, true⟩
      else .ok ⟨start, next, false⟩
    else if endsLine then
      -- It ends a line on which something else begins: the terminator stays.
      if start > source.length then .error .pastEnd
      else .ok ⟨start - (before.reverse.takeWhile CodePoint.isBlank).length, stop, false⟩
    else .ok ⟨start, next, false⟩

end FlagFold
