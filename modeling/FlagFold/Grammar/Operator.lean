/-
  FlagFold.Grammar.Operator

  Operators between operands: how tightly each binds, and the tree of a chain of
  operands with operators between them.
-/

import FlagFold.Concrete.Basic

namespace FlagFold.Grammar

/-- An operator between two operands. `strength` tells how tightly it binds; of equal ones the
left binds first, unless the operator is `fromRight`. -/
structure Operator where
  strength : Nat
  kind : String := "binary_expression"
  fromRight : Bool := false

namespace Operator

/-- The operators in words that both sides of a chain know. -/
def ofWord? : String → Option Operator
  | "in" | "instanceof" => some { strength := 8 }
  | _ => none

/-- The operators in words whose right side is a type. -/
def ofTypeWord? : String → Option Operator
  | "as" => some { strength := 8, kind := "as_expression" }
  | "satisfies" => some { strength := 8, kind := "satisfies_expression" }
  | _ => none

/-- The operators in punctuation. -/
def ofSymbol? : String → Option Operator
  | "**" => some { strength := 12, fromRight := true }
  | "*" | "/" | "%" => some { strength := 11 }
  | "+" | "-" => some { strength := 10 }
  | "<<" | ">>" | ">>>" => some { strength := 9 }
  | "<" | "<=" | ">" | ">=" => some { strength := 8 }
  | "==" | "===" | "!=" | "!==" => some { strength := 7 }
  | "&" => some { strength := 6 }
  | "^" => some { strength := 5 }
  | "|" => some { strength := 4 }
  | "&&" => some { strength := 3 }
  | "||" => some { strength := 2 }
  | "??" => some { strength := 1 }
  | _ => none

/-- Of two operators in a row, does the left one bind first? -/
def bindsBefore (left right : Operator) : Bool :=
  if right.fromRight then right.strength < left.strength else right.strength ≤ left.strength

/-- The node of an operator between two operands. -/
def join (op : Operator) (left right : Concrete) : Concrete :=
  { kind := op.kind, start := left.start, stop := right.stop,
    children := [left.asPart "left", right.asPart "right"] }

/-- Joins the operands to the left of `right` whose operators bind first. Waiting operands and
the operators after them are given last first. -/
def joinWhile (bindsFirst : Operator → Bool) :
    List (Concrete × Operator) → Concrete → List (Concrete × Operator) × Concrete
  | [], right => ([], right)
  | (left, op) :: waiting, right =>
    if bindsFirst op then joinWhile bindsFirst waiting (op.join left right)
    else ((left, op) :: waiting, right)

/-- The tree of a chain: an operand, then operators and further operands. -/
def ofChain (first : Concrete) (more : List (Operator × Concrete)) : Concrete :=
  let (waiting, last) := more.foldl (fun (waiting, right) (op, operand) =>
    let (waiting, left) := joinWhile (·.bindsBefore op) waiting right
    ((left, op) :: waiting, operand)) ([], first)
  (joinWhile (fun _ => true) waiting last).2

end Operator
end FlagFold.Grammar
