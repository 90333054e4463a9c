/-
  FlagFold.Tree.Path

  Ways from a node down to a node below it.
-/

import FlagFold.Tree.Basic

namespace FlagFold

/-- One step down: the part, and the index in it if it is a list. -/
structure Step where
  field : Field
  index : Option Nat := none
  deriving DecidableEq

namespace Shape

variable {α : Type}

/-- The nodes of a list part. -/
def list? : Field → Shape α → Option (List α)
  | .body, program body _ => some body
  | .declarations, variableDeclaration _ declarations => some declarations
  | .specifiers, importDeclaration specifiers _ => some specifiers
  | .arguments, call _ arguments _ => some arguments
  | .expressions, template _ expressions => some expressions
  | .children, generic _ children => some children
  | _, _ => none

/-- The node of a part that holds at most one. -/
def node? : Field → Shape α → Option α
  | .expression, expressionStatement e => e
  | .target, variableDeclarator t _ => t
  | .init, variableDeclarator _ i => i
  | .source, importDeclaration _ s => s
  | .binding, importDefault b => b
  | .binding, importNamespace b => b
  | .binding, importSpecifier _ b => b
  | .callee, call c _ _ => c
  | .object, member o _ _ => o
  | .property, member _ p _ => p
  | _, _ => none

/-- The form with another list in a part. -/
def setList (items : List α) : Field → Shape α → Shape α
  | .body, program _ source => program items source
  | .declarations, variableDeclaration keyword _ => variableDeclaration keyword items
  | .specifiers, importDeclaration _ source => importDeclaration items source
  | .arguments, call callee _ optional => call callee items optional
  | .expressions, template chunks _ => template chunks items
  | .children, generic kind _ => generic kind items
  | _, shape => shape

/-- The form with another node in a part that holds at most one. -/
def setNode (n : α) : Field → Shape α → Shape α
  | .expression, expressionStatement _ => expressionStatement (some n)
  | .target, variableDeclarator _ i => variableDeclarator (some n) i
  | .init, variableDeclarator t _ => variableDeclarator t (some n)
  | .source, importDeclaration ss _ => importDeclaration ss (some n)
  | .binding, importDefault _ => importDefault (some n)
  | .binding, importNamespace _ => importNamespace (some n)
  | .binding, importSpecifier imported _ => importSpecifier imported (some n)
  | .callee, call _ as optional => call (some n) as optional
  | .object, member _ p optional => member (some n) p optional
  | .property, member o _ optional => member o (some n) optional
  | _, shape => shape

/-- The node one step down. -/
def at? (step : Step) (shape : Shape α) : Option α :=
  match step.index with
  | some i => (shape.list? step.field).bind (·[i]?)
  | none => shape.node? step.field

/-- The form with another node one step down. -/
def setAt (step : Step) (n : α) (shape : Shape α) : Shape α :=
  match step.index with
  | some i =>
    match shape.list? step.field with
    | some items => shape.setList (items.set i n) step.field
    | none => shape
  | none => shape.setNode n step.field

end Shape

namespace Node

/-- The node at the end of a path. -/
def at? : List Step → Node → Option Node
  | [], n => some n
  | step :: rest, n => (n.shape.at? step).bind (at? rest)

/-- The node with what is at the end of a path changed. -/
def modifyAt (f : Node → Node) : List Step → Node → Node
  | [], n => f n
  | step :: rest, n =>
    match n.shape.at? step with
    | some child => .mk n.info (n.shape.setAt step (modifyAt f rest child))
    | none => n

end Node
end FlagFold
