/-
  FlagFold.Proofs.Fold.Bare

  What a tree says apart from where it says it (`Node.bare`): its forms without
  places, comments and the source, and without the placeholders in its lists.  A tree
  that is read from a text to which another one was printed can agree with it in no
  more than this.  It is enough to tell whether there are pragmas in the tree and
  which flags in it are unknown.
-/

import FlagFold.Proofs.Fold.PragmaFree
import FlagFold.Proofs.Print.Placed
import FlagFold.Proofs.Tree.Equality
import Mathlib.Data.List.NodupEquivFin
import Mathlib.Order.WellFounded

namespace FlagFold

/-- The second parts of the nodes of a shape, in a list without those for placeholders, and without
the source of a program. -/
def bareShape : Shape (Node × Node) → Shape Node
  | .program body _ => .program ((body.filter (!·.1.isPlaceholder)).map (·.2)) []
  | .generic name children => .generic name ((children.filter (!·.1.isPlaceholder)).map (·.2))
  | shape => shape.map (·.2)

/-- The nodes of a shape, but for the placeholders in its list. -/
def Shape.said : Shape Node → List Node
  | .program body _ => body.filter (!·.isPlaceholder)
  | .generic _ children => children.filter (!·.isPlaceholder)
  | shape => shape.nodes

namespace Node

/-- `n` without places, comments and placeholders. -/
def bare : Node → Node := foldUp fun _ shape => mk {} (bareShape shape)

theorem bare_mk (info : Info) (shape : Shape Node) :
    (mk info shape).bare = mk {} (bareShape (shape.map fun n => (n, n.bare))) := by
  rw [bare, foldUp_mk]

theorem kind_bare (n : Node) : n.bare.kind = n.kind := by
  cases n with
  | mk info shape =>
    rw [bare_mk]
    cases shape <;> rfl

end Node

namespace FoldContext

variable (ctx : FoldContext)

end FoldContext

namespace Node

/-! ## Pragmas -/

end Node
end FlagFold
