/-
  FlagFold.Fold.Pragma

  Pragmas and the elision of guarded imports.  A pragma is a string statement:

      'has("build-serve")';
      require('./devtools');

  Where it evaluates to true, the statement right after it is taken out if it
  loads a module.  Pragmas are always taken out; a comment that records them goes
  to the next statement.  The names bound to the feature-query module are noted
  in the same traversal.
-/

import FlagFold.Fold.Binding
import FlagFold.Table
import FlagFold.Tree.Path
import FlagFold.Tree.Walk

namespace FlagFold

/-- Which flags are known, and their values. -/
abbrev FeatureMap := Table Bool

/-! ## Pragmas -/

/-- A query for a flag, possibly negated, as a pragma states it. -/
structure Pragma where
  negated : Bool
  flag : Text
  deriving DecidableEq

namespace Pragma

/-- Either quotation mark. -/
def isQuote (c : CodePoint) : Bool := c = '\'' || c = '"'

/-- What follows a text that has to stand at the start. -/
def after? (start : String) (t : Text) : Option Text :=
  let start := text start
  if start.isPrefixOf t then some (t.drop start.length) else none

/-- A text without the white space at its start. -/
def dropSpace (t : Text) : Text := t.dropWhile CodePoint.isSpace

/-- Reads `has('flag')` with an optional `!` before it. White space may stand around these and
before the parenthesis; the two quotes need not be the same. -/
def parse? (t : Text) : Option Pragma := do
  let t := dropSpace t
  let negated := t.head? = some (CodePoint.ofChar '!')
  let t ← after? "has" (dropSpace (if negated then t.drop 1 else t))
  let t ← after? "(" (dropSpace t)
  -- The flag goes up to the next quotation mark, whichever of the two it is.
  let flag := (t.drop 1).takeWhile (!isQuote ·)
  let rest := t.drop (1 + flag.length)
  guard ((t.head?.map isQuote).getD false && !flag.isEmpty)
  guard ((rest.head?.map isQuote).getD false)
  let rest ← after? ")" (rest.drop 1)
  guard (rest.all CodePoint.isSpace)
  return ⟨negated, flag⟩

/-- The pragma as it is recorded. -/
def expression (p : Pragma) : Text :=
  (if p.negated then text "!" else []) ++ text "has('" ++ p.flag ++ text "')"

/-- The value of a pragma whose flag is known. -/
def evaluate? (features : FeatureMap) (p : Pragma) : Option Bool :=
  (features.find? p.flag).map fun value => if p.negated then !value else value

end Pragma

/-- The pragma that a statement is. -/
def Node.pragma? (n : Node) : Option Pragma :=
  match n.shape with
  | .expressionStatement (some expression) => expression.literal?.bind Pragma.parse?
  | _ => none

/-- The module that a statement loads, if it may be elided: `require('x');`, `var a =
require('x');` with a single declarator, or any import. -/
def Node.elidableModule (n : Node) : Except ShapeFault (Option Node.LiteralValue) :=
  match n.bareRequire? with
  | some module => .ok (some (.words module))
  | none =>
    match n.shape with
    | .variableDeclaration _ [d] =>
      match d.shape with
      | .variableDeclarator _ init => .ok ((Node.requiredModule? init).map .words)
      | _ => .error .noSuchPart
    | .importDeclaration _ (some source) => do return some (← source.literalValue)
    | _ => .ok none

/-- A literal value in a record. -/
def Node.LiteralValue.shown : Node.LiteralValue → Text
  | .words t => t
  | .truth b => if b then text "True" else text "False"

/-! ## The machine -/

/-- What the statements of a list are read with: after a pragma that holds, an elision is
pending for the very next statement. -/
inductive ElisionState where
  | idle
  | pending
  deriving DecidableEq

/-- Why a statement is taken out. -/
inductive Verdict where
  | inert (pragma : Pragma)
  | evaluated (pragma : Pragma) (value : Bool)
  | elided (module : Node.LiteralValue)
  deriving DecidableEq

namespace Verdict

/-- The comment that is left for a statement. -/
def comment : Verdict → Text
  | inert p => text " " ++ p.expression
  | evaluated p value =>
    text " " ++ p.expression ++ text ": " ++ (if value then text "true" else text "false")
  | elided module => text " elided: import '" ++ module.shown ++ text "'"

/-- What is noted about a statement on `line`. -/
def note? (line : Nat) : Verdict → Option Text
  | inert p =>
    some (text "Pragma " ++ p.expression ++ text " left inert: '" ++ p.flag ++
      text "' is not a static feature")
  | evaluated _ _ => none
  | elided module =>
    some (text "Elided import '" ++ module.shown ++ text "' (line " ++ Text.ofNat line ++
      text ")")

end Verdict

/-- Reads one statement. Whatever it is, a pending elision is pending no longer. -/
def ElisionState.step (features : FeatureMap) (state : ElisionState) (stmt : Node) :
    Except ShapeFault (Option Verdict) × ElisionState :=
  match stmt.pragma? with
  | some p =>
    match p.evaluate? features with
    -- A pragma for an unknown flag guards nothing, but is taken out all the same.
    | none => (.ok (some (.inert p)), .idle)
    | some value => (.ok (some (.evaluated p value)), if value then .pending else .idle)
  | none =>
    match state with
    | .idle => (.ok none, .idle)
    | .pending => (stmt.elidableModule.map fun module => module.map .elided, .idle)

/-! ## Taking out one statement -/

/-- The comments of a statement that is taken out, with the one that records it. -/
def Node.leftComments (stmt : Node) (record : Text) : List Comment :=
  stmt.comments ++ [⟨record, true⟩]

/-- Comments handed to the end of a list. -/
def Comment.atEnd (cs : List Comment) : List Comment := cs.map fun c => { c with leading := false }

/-- Takes out the statement at one step below `parent`. Its comments and the one that records it
go to the next statement, after the last one to the parent; the last statement of a switch
clause keeps them. -/
def Node.removeStatement (parent : Node) (step : Step) (record : Text) : Option Node := do
  let index ← step.index
  let items ← parent.shape.list? step.field
  let stmt ← items[index]?
  let left := stmt.leftComments record
  let put (items : List Node) : Node := .mk parent.info (parent.shape.setList items step.field)
  let placeholder := Node.makeRemoved stmt
  match items[index + 1]? with
  | some next =>
    let next := next.withComments (left ++ next.comments)
    return put ((items.set (index + 1) next).set index placeholder)
  | none =>
    if parent.kind.isSwitchClause then
      return put (items.set index (placeholder.withComments left))
    else
      return (put (items.set index placeholder)).withComments
        (parent.comments ++ Comment.atEnd left)

/-! ## The pass -/

/-- Is this the place of a statement? The value of a `case` is none. -/
def Place.isStatement (p : Place) : Bool :=
  match p.index with
  | none => false
  | some i =>
    match p.parent with
    | .program => p.field = .body
    | kind => kind.isStatementList && p.field = .children &&
        (0 < i || kind ≠ .generic "switch_case")

/-- The state of the pass. `carried` are comments on their way to the next statement of the list,
or to the end of it; `notes` are kept last first. -/
structure Elision where
  machine : ElisionState := .idle
  carried : List Comment := []
  binding : Binding := {}
  notes : List Text := []
  fault : Option ShapeFault := none

namespace Elision

/-- Notes the name that a statement of the program binds. -/
def bindFrom (s : Elision) (stmt : Node) : Elision :=
  let (bound, binding) := (Binder.statement stmt).run.run s.binding
  match bound with
  | .error fault => { s with binding, fault := some fault }
  | .ok true => { s with binding, notes := binding.note stmt.info.line :: s.notes }
  | .ok false => { s with binding }

/-- Enters a statement. -/
def enterStatement (features : FeatureMap) (p : Place) (stmt : Node) (s : Elision) :
    Entry × Elision :=
  let stmt := stmt.withComments (s.carried ++ stmt.comments)
  let (verdict, machine) := s.machine.step features stmt
  let s := { s with carried := [], machine }
  match verdict with
  | .error fault => (.skip stmt, { s with fault := some fault })
  | .ok (some v) =>
    let s := { s with notes := (v.note? stmt.info.line).toList ++ s.notes }
    let left := stmt.leftComments v.comment
    let placeholder := Node.makeRemoved stmt
    -- At the end of a switch clause there is nothing that could take the comments.
    if p.following = 0 && p.parent.isSwitchClause then (.skip (placeholder.withComments left), s)
    else (.skip placeholder, { s with carried := left })
  | .ok none =>
    let s := if p.parent = .program then s.bindFrom stmt else s
    if s.fault.isSome then (.skip stmt, s) else (.descend stmt.info, s)

/-- The traversal. After a fault everything stays as it is. -/
def visitor (features : FeatureMap) : Visitor Elision where
  enter place node s :=
    if s.fault.isSome then (.skip node, s)
    else match place with
      | none => (.descend node.info, s)
      | some p =>
        if p.isStatement then enterStatement features p node s else (.descend node.info, s)
  leave _ node s :=
    -- Comments that have met no further statement stay at the end of the list.
    if s.fault.isNone && node.kind.isStatementList then
      (node.withComments (node.comments ++ Comment.atEnd s.carried),
        { s with machine := .idle, carried := [] })
    else (node, s)

end Elision

/-- Evaluates the pragmas of a program, takes out what they guard, and binds names. -/
def Node.elide (program : Node) (features : FeatureMap) (binding : Binding) : Node × Elision :=
  program.traverse (Elision.visitor features) none { binding }

end FlagFold
