/-
  FlagFold.Proofs.Feature.Resolution

  Feature maps by several names.  The names are loaded in turn, and since no load
  changes what a name stands for, the outcome is told by what the names stand for in
  the world before: the merge of their maps where each has one, and else nothing but a
  line for each name without one.
-/

import FlagFold.Proofs.Feature.Lookup
import FlagFold.Proofs.Text.Pieces

namespace FlagFold.FeatureStore

variable {settings : Settings} {host : Host} {w : World} {base : Option Text}

/-- The `names` for which nothing is found, each as often as it is listed. -/
def unresolved (host : Host) (w : World) (base : Option Text) (names : List Text) : List Text :=
  names.filter fun name => (found? host w base name).isNone

/-- The resolution of `names` that can all be looked up. -/
def resolution (host : Host) (w : World) (base : Option Text) (names : List Text) : Resolution :=
  if (unresolved host w base names).isEmpty then
    ⟨FeatureMap.toJson (Table.merge (names.filterMap (found? host w base))), []⟩
  else
    ⟨[], (unresolved host w base names).map fun name => text "Cannot resolve feature set: " ++ name⟩

/-- The end of a resolution, once the `names` that are asked for are known. -/
def resolveListed (names : List Json) (base : Option Text) : Job Resolution := do
  match ← resolveNames names base with
  | .ok merged => return ⟨FeatureMap.toJson merged, []⟩
  | .error missing => return ⟨[], missing.map unresolvedLine⟩

end FlagFold.FeatureStore
