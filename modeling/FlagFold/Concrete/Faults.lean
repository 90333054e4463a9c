/-
  FlagFold.Concrete.Faults

  The faults of a concrete syntax tree: those with no fault above them, in order,
  as far down as a fixed depth.
-/

import FlagFold.Concrete.Basic
import FlagFold.Text.Quoted

namespace FlagFold.Concrete

/-- How far below the root faults are looked for. -/
def faultDepth : Nat := 200

/-- How much of a faulty text is shown. -/
def faultWidth : Int := 100

mutual

/-- The outermost faults at a node or up to `levels` below it. -/
def faultsWithin (levels : Nat) : Concrete → List Concrete
  | ⟨kind, start, stop, field, anonymous, missing, children⟩ =>
    if kind = "ERROR" || missing then [⟨kind, start, stop, field, anonymous, missing, children⟩]
    else match levels with
      | 0 => []
      | levels + 1 => faultsAmong levels children

/-- The outermost faults of several nodes. -/
def faultsAmong (levels : Nat) : List Concrete → List Concrete
  | [] => []
  | node :: rest => faultsWithin levels node ++ faultsAmong levels rest

end

/-- The outermost faults of a tree, in pre-order. -/
def faults (root : Concrete) : List Concrete := faultsWithin faultDepth root

/-- The text of a node as one line. -/
def faultText (index : SourceIndex) (node : Concrete) : Text :=
  (index.slice node).preview faultWidth

end FlagFold.Concrete

namespace FlagFold

/-- A fault as an error shows it: its line and column, both from one, and what is there. -/
structure Problem where
  line : Nat
  column : Nat
  label : Text
  deriving DecidableEq

/-- The problem that a fault is. -/
def Problem.ofFault (index : SourceIndex) (node : Concrete) : Problem where
  line := (index.bytePosition node.start).line + 1
  column := index.column node.start
  label := if node.missing then text "missing " ++ text node.kind else node.faultText index

/-- Why a source has no tree that can be worked on. Where the parser gave a tree, its problems
are known. -/
structure SyntaxFault where
  file : Text
  problems : Option (List Problem)

namespace SyntaxFault

/-- The name of the file in messages. -/
def displayName (f : SyntaxFault) : Text := if f.file.isEmpty then text "<source>" else f.file

/-- The number of problems that a message spells out. -/
def shownProblems : Nat := 5

/-- The wording of the fault. -/
def message (f : SyntaxFault) : Text :=
  let problems := f.problems.getD []
  let show_ (p : Problem) : Text :=
    f.displayName ++ text ":" ++ Text.ofNat p.line ++ text ":" ++ Text.ofNat p.column ++
      text " " ++ p.label.quoted
  text "Failed to parse " ++ f.displayName ++ text ": " ++
    Text.join (text "; ") ((problems.take shownProblems).map show_) ++
    (if problems.length > shownProblems then
      text "; ... (" ++ Text.ofNat (problems.length - shownProblems) ++ text " more)"
    else [])

end SyntaxFault

/-! ## The check of a single file -/

/-- A fault as the check of a file reports it: its line from one, its byte column from zero. -/
structure Complaint where
  line : Nat
  byteColumn : Nat
  message : Text

/-- Everything that the check of a file reports. -/
def Concrete.complaints (index : SourceIndex) (root : Concrete) : List Complaint :=
  root.faults.map fun node =>
    let place := index.bytePosition node.start
    { line := place.line + 1
      byteColumn := place.column
      message :=
        if node.missing then text "missing '" ++ text node.kind ++ text "'"
        else text "unexpected " ++ (node.faultText index).quoted }

end FlagFold
