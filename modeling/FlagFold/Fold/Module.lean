/-
  FlagFold.Fold.Module

  Both passes over the tree of one module, and the check that tells which modules
  need none.
-/

import FlagFold.Fold.Query

namespace FlagFold

/-- Is a path that of the feature-query module itself? -/
def isQueryModulePath (path : Option Text) : Bool :=
  match path with
  | none => false
  | some p => !p.isEmpty && isOwnFile p

/-- Texts one of which stands in every module with something to do. -/
def triggers : List Text := [text "/has", text "has(", text "exists("]

/-- Can there be something to do in a module? -/
def needsFolding (source : Text) (path : Option Text) : Bool :=
  isQueryModulePath path || triggers.any (·.occursIn source)

/-- The outcome of both passes. `notes` are in order. -/
structure FoldedModule where
  program : Node
  binding : Binding
  dynamic : List Text
  notes : List Text
  fault : Option ShapeFault

/-- The path in a note. -/
private def shownPath (path : Text) : Text := if path.isEmpty then text "<source>" else path

/-- Binds names, and for any module but the feature-query module itself evaluates pragmas. -/
def Node.bindModule (program : Node) (features : FeatureMap) (path : Text) : Node × Elision :=
  if isQueryModulePath (some path) then
    (program, {
      binding := ({} : Binding).bindOwnNames
      notes := [path ++ text ": feature-query module, binding 'has'/'add' directly"] })
  else program.elide features {}

/-- Folds the flags of a module. Queries are looked at only if a name is bound. -/
def Node.foldModule (program : Node) (features : FeatureMap) (staticOnly : List Text)
    (path : Text) : FoldedModule :=
  let (program, elision) := program.bindModule features path
  let notes := elision.notes.reverse
  -- After a fault no query is folded.
  if elision.fault.isSome then ⟨program, elision.binding, [], notes, elision.fault⟩
  else if elision.binding.isBound then
    let (program, folding) := program.foldQueries ⟨features, staticOnly, elision.binding⟩ []
    let note := shownPath path ++ text ": " ++ Text.ofNat folding.count ++
      text " feature query rewrite(s)"
    ⟨program, elision.binding, folding.dynamic, notes ++ [note], none⟩
  else
    let note := shownPath path ++ text ": feature-query module not imported, skipping rewrite"
    ⟨program, elision.binding, [], notes ++ [note], none⟩

end FlagFold
