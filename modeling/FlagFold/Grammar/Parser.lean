/-
  FlagFold.Grammar.Parser

  The concrete syntax tree of a source.  The rules of the grammar need each
  other; a bound on how deeply they may be nested ties them together.
-/

import FlagFold.Grammar.Markup
import FlagFold.Grammar.ModuleItem

namespace FlagFold.Grammar

/-- The rule of a nonterminal, over the rules of all of them. -/
def rule (self : Rules) : Rules
  | .statement => statement self
  | .block => block self
  | .expression hasIn => expression self hasIn
  | .assignment hasIn => assignment self hasIn
  | .item => item self true
  | .operand hasIn => operand self hasIn
  | .binding => binding self
  | .typing => typing self
  | .typeOperand => typeOperand self
  | .element => element self

/-- The rules when nonterminals are nested at most `depth` deep. -/
def rules : (depth : Nat) → Rules
  | 0, _ => failure
  | depth + 1, nonterminal => rule (rules depth) nonterminal

/-- A bound on the depth of nonterminals in a source of the given number of characters: a few of
them may begin at the same character, and each that holds another of its kind takes a character. -/
def depthBound (size : Nat) : Nat := 8 * (size + 2)

/-- The concrete syntax tree of a source that has no faults. -/
def parse? (language : Language) (source : Text) : Option Concrete :=
  let chars := source.map CodePoint.toChar
  ((program (rules (depthBound chars.length))).run ⟨language, chars.length + 1⟩).run' ⟨chars, 0⟩

end FlagFold.Grammar
