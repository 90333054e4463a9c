/-
  FlagFold.Proofs.Feature.Store

  Feature sets are looked up and feature maps read without a change to the files.
-/

import FlagFold.Feature.Store
import FlagFold.Proofs.World.Job

namespace FlagFold.FeatureStore

open Job

theorem keepsFiles_readSet (base : Option Text) (name : Text) : (readSet base name).KeepsFiles := by
  unfold readSet
  refine (keepsFiles_checkPath _).bind fun _ => ?_
  split
  case h_1 =>
    split
    · exact keepsFiles_pure _
    · exact (keepsFiles_debug _).bind fun _ => keepsFiles_pure _
  case h_2 =>
    refine KeepsFiles.bind (((keepsFiles_readText _).map _).tryCatch fun failure => ?_) fun _ => ?_
    · split
      all_goals first
        | exact keepsFiles_throw _
        | exact (keepsFiles_debug _).bind fun _ => keepsFiles_pure _
    · split
      · exact keepsFiles_pure _
      · refine keepsFiles_read.bind fun settings => ?_
        split
        · split
          · exact (keepsFiles_debug _).bind fun _ => keepsFiles_pure _
          · exact keepsFiles_throw _
        · split
          · exact keepsFiles_pure _
          · exact (keepsFiles_debug _).bind fun _ => keepsFiles_pure _

theorem keepsFiles_baseOr (base : Option Text) : (baseOr base).KeepsFiles := by
  cases base <;> exact fun _ _ => rfl

/-- `load` leaves the files as they are. -/
theorem keepsFiles_load (name : Text) (base : Option Text) : (load name base).KeepsFiles := by
  unfold load
  refine (keepsFiles_baseOr base).bind fun base => keepsFiles_get.bind fun w => ?_
  split
  · exact keepsFiles_pure _
  · split
    · exact keepsFiles_pure _
    · refine (keepsFiles_readSet base name).bind fun m => ?_
      split
      · exact keepsFiles_pure _
      · exact KeepsFiles.bind (fun _ _ => rfl) fun _ => keepsFiles_pure _

theorem keepsFiles_loadNamed (name : Json) (base : Option Text) :
    (loadNamed name base).KeepsFiles := by
  unfold loadNamed
  split <;> try split
  all_goals first
    | exact keepsFiles_load _ base
    | exact keepsFiles_pure _
    | exact keepsFiles_throw _

theorem keepsFiles_resolveNames (names : List Json) (base : Option Text) :
    (resolveNames names base).KeepsFiles := by
  unfold resolveNames
  refine (keepsFiles_mapM fun name => keepsFiles_loadNamed name base).bind fun maps => ?_
  dsimp only
  split
  · exact (keepsFiles_debug _).bind fun _ => keepsFiles_pure _
  · exact keepsFiles_pure _

theorem keepsFiles_resolve (request : Json) (base : Option Text) :
    (resolve request base).KeepsFiles := by
  unfold resolve
  split
  · exact keepsFiles_pure _
  · dsimp only
    split
    · exact keepsFiles_pure _
    · -- Wherever the names come from, they are looked up in the same way.
      split
      case h_1 | h_2 =>
        refine (keepsFiles_pure _).bind fun names =>
          (keepsFiles_resolveNames names base).bind fun resolved => ?_
        split <;> exact keepsFiles_pure _
      case h_3 =>
        refine (keepsFiles_throw _).bind fun names =>
          (keepsFiles_resolveNames names base).bind fun resolved => ?_
        split <;> exact keepsFiles_pure _

theorem keepsFiles_resolveOrWarn (request : Json) (base : Option Text) :
    (resolveOrWarn request base).KeepsFiles := by
  unfold resolveOrWarn
  refine (keepsFiles_resolve request base).bind fun resolution => ?_
  exact (keepsFiles_forIn fun _ _ => (keepsFiles_warn _).bind fun _ => keepsFiles_pure _).bind
    fun _ => keepsFiles_pure _

theorem keepsFiles_readExplicit (path : Text) : (readExplicit path).KeepsFiles := by
  unfold readExplicit
  refine ((keepsFiles_readText path).tryCatch fun failure => ?_).bind fun document => ?_
  · split
    · exact (Job.keepsFiles_error _).bind fun _ => keepsFiles_throw _
    · exact keepsFiles_throw _
  · refine keepsFiles_read.bind fun settings => ?_
    split
    · split
      · exact (Job.keepsFiles_error _).bind fun _ => keepsFiles_throw _
      · exact keepsFiles_throw _
    · refine KeepsFiles.bind (keepsFiles_forIn fun member kept => ?_) fun _ => keepsFiles_pure _
      split
      split
      · exact keepsFiles_pure _
      · exact (keepsFiles_warn _).bind fun _ => keepsFiles_pure _
    · exact keepsFiles_throw _

theorem keepsFiles_request (names : Json) (path : Text) : (request names path).KeepsFiles := by
  have hnamed : ∀ explicit : Table Json, (do
      let named ← resolveOrWarn names none
      return .obj (Table.update named explicit) : Job Json).KeepsFiles :=
    fun explicit => (keepsFiles_resolveOrWarn names none).bind fun _ => keepsFiles_pure _
  unfold request
  split
  · split <;> exact keepsFiles_pure _
  · refine (keepsFiles_readExplicit path).bind fun explicit => ?_
    split
    · exact keepsFiles_pure _
    · exact hnamed explicit

end FlagFold.FeatureStore
