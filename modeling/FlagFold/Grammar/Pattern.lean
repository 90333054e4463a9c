/-
  FlagFold.Grammar.Pattern

  Patterns, the targets of assignments.  Before its equals sign an array or an
  object looks like a literal: it is read as one and then taken for a pattern.
-/

import FlagFold.Concrete.Basic

namespace FlagFold.Concrete

/-- Is the node an array or an object that can only be a pattern? -/
def isPattern (node : Concrete) : Bool :=
  node.kind = "array_pattern" || node.kind = "object_pattern"

/-- The kind of a literal as a pattern. -/
def patternKind? : String → Option String
  | "array" | "array_pattern" => some "array_pattern"
  | "object" | "object_pattern" => some "object_pattern"
  | "pair" => some "pair_pattern"
  | "spread_element" => some "rest_pattern"
  | "assignment_expression" => some "assignment_pattern"
  | "shorthand_property_identifier" => some "shorthand_property_identifier_pattern"
  | _ => none

/-- The kinds of expressions that can stand for themselves in a pattern. -/
def targetKinds : List String :=
  ["identifier", "undefined", "member_expression", "subscript_expression", "non_null_expression",
   "object_assignment_pattern"]

mutual

/-- The pattern that a node stands for, if it can be one. -/
def toPattern? : Concrete → Option Concrete
  | ⟨kind, start, stop, field, anonymous, missing, children⟩ =>
    if targetKinds.contains kind then
      some ⟨kind, start, stop, field, anonymous, missing, children⟩
    else
      match patternKind? kind with
      | none => none
      | some patternKind =>
        (if kind = "pair" then lastToPattern? children
         else if kind = "assignment_expression" then some children
         else allToPatterns? children).map fun children =>
          ⟨patternKind, start, stop, field, anonymous, missing, children⟩

/-- The patterns that nodes stand for. -/
def allToPatterns? : List Concrete → Option (List Concrete)
  | [] => some []
  | node :: rest => do return (← node.toPattern?) :: (← allToPatterns? rest)

/-- The nodes with the pattern that the last one stands for. -/
def lastToPattern? : List Concrete → Option (List Concrete)
  | [] => some []
  | [node] => do return [← node.toPattern?]
  | node :: rest => do return node :: (← lastToPattern? rest)

end

/-- The target of an assignment that a node stands for, if it can be one. -/
def toTarget? (node : Concrete) : Option Concrete :=
  if node.kind = "parenthesized_expression" then some node
  else if node.kind = "array" || node.kind = "object" || node.isPattern ||
      targetKinds.contains node.kind then node.toPattern?
  else none

/-- May an operator with an equals sign change the node? -/
def isChangeable (node : Concrete) : Bool :=
  ["identifier", "member_expression", "subscript_expression", "parenthesized_expression",
   "non_null_expression"].contains node.kind

end FlagFold.Concrete
