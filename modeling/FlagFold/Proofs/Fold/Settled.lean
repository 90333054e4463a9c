/-
  FlagFold.Proofs.Fold.Settled

  Further runs.  In a settled program nothing is left to do (`Node.Settled`): no
  statement is a pragma, and the answer to each query that is answered stands in the
  source already; both passes and the printer give back its source.  The code that a
  run returns holds a settled program if it is read back as the tree that was printed
  (`Node.ReadsBack`), and then a further run returns the same code and reports the
  same flags.  Not all code is read back so: cutting out a pragma can bring forth a
  query.
-/

import FlagFold.Proofs.Fold.Bare
import FlagFold.Proofs.Fold.Outcome
import FlagFold.Proofs.Fold.Run

namespace FlagFold

namespace Node

/-- The context with which the queries of `program` are folded, once `bindModule` has bound the
names. -/
def foldContext (program : Node) (features : FeatureMap) (staticOnly : List Text) (path : Text) :
    FoldContext :=
  ⟨features, staticOnly, (program.bindModule features path).2.binding⟩

/-- If a name is bound, each answered query of `program`, a registration with the value of its flag,
reads in the source like its answer. -/
def AnswersWritten (features : FeatureMap) (staticOnly : List Text) (path : Text)
    (program : Node) : Prop :=
  let ctx := program.foldContext features staticOnly path
  ctx.binding.isBound → ∀ e ∈ ctx.changes program.source program,
    program.source.slice e.start e.stop = e.text

instance (features : FeatureMap) (staticOnly : List Text) (path : Text) (program : Node) :
    Decidable (program.AnswersWritten features staticOnly path) :=
  inferInstanceAs (Decidable (_ → _))

/-- Nothing is left to do for `program`. -/
structure Settled (features : FeatureMap) (staticOnly : List Text) (path : Text)
    (program : Node) : Prop where
  /-- In the feature-query module itself no pragma is looked at. -/
  pragmaFree : ¬ isQueryModulePath (some path) → program.PragmaFree
  written : program.AnswersWritten features staticOnly path

variable {features : FeatureMap} {staticOnly : List Text} {path : Text}

/-! ## Settled programs -/

/-- `bindModule` leaves a program without pragmas as it is. -/
theorem bindModule_of_pragmaFree {program : Node} (h : program.WellTyped) (features : FeatureMap)
    (hpragmas : ¬ isQueryModulePath (some path) → program.PragmaFree) :
    (program.bindModule features path).1 = program := by
  unfold bindModule
  split
  case isTrue => rfl
  case isFalse hpath =>
    rw [elide_eq_elided (elide_fault_of_wellTyped h features {}),
      elided_of_pragmaFree (hpragmas hpath)]

/-- An `Untouched` program has no edits. -/
theorem programEdits_of_untouched {program : Node} (h : program.Untouched) :
    program.programEdits = .ok [] := by
  cases program with
  | mk info shape =>
    apply programEdits_of_comments h.comments
    have hnone : ∀ n ∈ shape.nodes, (mk info shape).sheet.edits n = .ok [] :=
      fun n hn => Sheet.edits_of_untouched (h.of_mem_children hn)
    exact (Sheet.listEdits_of_forall hnone).trans (by simp)

end Node

/-! ## The output -/

end FlagFold
