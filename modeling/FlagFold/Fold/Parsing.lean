/-
  FlagFold.Fold.Parsing

  From a source text to its tree.  A concrete syntax tree that is known for the
  source is used; for any other the source is parsed.
-/

import FlagFold.Grammar.Parser
import FlagFold.Tree.OfConcrete
import FlagFold.World.Job

namespace FlagFold

/-- The language of a name. -/
def languageNamed (name : Text) : Except Failure Language :=
  match Language.ofName? name with
  | some language => .ok language
  | none => .error (.unknownLanguage name)

/-- The concrete syntax tree of a source, if there is one, and whether it was known. -/
def concreteTree (trees : List (Text × Concrete)) (language : Language) (source : Text) :
    Option (Concrete × Bool) :=
  match trees.find? (·.1 = source) with
  | some (_, tree) => some (tree, true)
  | none => (Grammar.parse? language source).map (·, false)

/-- The program in a source. -/
def parseModule (trees : List (Text × Concrete)) (source languageName file : Text) :
    Except Failure Node := do
  let language ← languageNamed languageName
  match concreteTree trees language source with
  | none => throw (.unparsable ⟨file, none⟩)
  | some (root, _) =>
    if root.hasFault then
      let index := SourceIndex.ofText source
      throw (.unparsable ⟨file, some (root.faults.map (Problem.ofFault index))⟩)
    else (root.toProgram source).mapError .noCodePoint

end FlagFold
