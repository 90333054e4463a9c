/-
  FlagFold.Proofs.Command.Reasons

  For what the work on one file can fail: the failures that concern the file only,
  which a run reports, and seven others, which it does not catch.
-/

import FlagFold.Command.Run
import FlagFold.Proofs.Fold.Outcome
import FlagFold.Proofs.Fold.Run
import FlagFold.Proofs.World.Filled

namespace FlagFold

/-! ## The reasons -/

namespace Failure

/-- The failures of the work on one file that a run does not catch: an escape of no code point, a
module that cannot be printed, a part of a map that should be a list and is none, code or names of
flags that cannot be written as UTF-8, a path that no file can have, a map that is JSON and is not
read all the same, and a lack of stack. -/
def endsRun : Failure → Bool
  | noCodePoint _ | print _ | wrongKind | loneSurrogate | nulInPath | stackExhausted => true
  | json _ fault => !fault.isViolation
  | _ => false

/-- The work on one file can fail with `failure`. -/
def OfFile (failure : Failure) : Prop := failure.concernsOneFile ∨ failure.endsRun

/-- A failure that `concernsOneFile` has a message. -/
theorem message_ne_nil {failure : Failure} (h : failure.concernsOneFile) :
    failure.message ≠ [] := by
  cases failure with
  | unparsable fault => simp [message, SyntaxFault.message, text]
  | sourceMap fault =>
    cases fault with
    | notAMapping role => cases role <;> simp [message, MapFault.message, MapRole.label, text]
    | unsupportedVersion role =>
      cases role <;> simp [message, MapFault.message, MapRole.label, text]
    | noMappings role => cases role <;> simp [message, MapFault.message, MapRole.label, text]
    | invalidSources role => cases role <;> simp [message, MapFault.message, MapRole.label, text]
    | _ => simp [message, MapFault.message, text]
  | file fault => cases fault <;> simp [message, FileFault.message, text]
  | notUtf8 fault => simp [message, Utf8.Fault.message, text]
  | _ => cases h

end Failure

/-! ## Reading and writing -/

namespace Job

theorem ofFile_of_pathFault? {path : Text} {failure : Failure}
    (h : pathFault? path = some failure) : failure.OfFile := by
  unfold pathFault? at h
  split_ifs at h <;> cases h
  · exact .inr rfl
  · exact .inr rfl

theorem failsOnly_checkPath (path : Text) : (checkPath path).FailsOnly Failure.OfFile := by
  intro settings w failure left h
  rw [run_checkPath] at h
  split at h
  case h_1 other hfault =>
    cases h
    exact ofFile_of_pathFault? hfault
  case h_2 => cases h

theorem failsOnly_allow (act : FileAct) (path : Text) :
    (allow act path).FailsOnly Failure.OfFile := by
  intro settings w failure left h
  rw [run_allow] at h
  cases hrefusal : settings.host.refusal? act path with
  | none =>
    rw [hrefusal] at h
    cases h
  | some refusal =>
    rw [hrefusal] at h
    cases h
    exact .inl rfl

theorem failsOnly_writeOut (t : Text) : (writeOut t).FailsOnly Failure.OfFile := by
  intro settings w failure left h
  have houtcome := run_writeOut t settings w
  rw [h, outcomeOut] at houtcome
  split at houtcome
  case isTrue =>
    cases houtcome
    exact .inr rfl
  case isFalse =>
    split at houtcome <;> cases houtcome
    exact .inl rfl

theorem failsOnly_readText (path : Text) : (readText path).FailsOnly Failure.OfFile := by
  unfold readText
  refine (failsOnly_checkPath path).bind fun _ _ => failsOnly_get.bind fun w _ => ?_
  refine (failsOnly_lift fun _ _ => .inl rfl).bind fun bytes _ => ?_
  refine (failsOnly_allow .read path).bind fun _ _ => ?_
  exact (failsOnly_lift fun _ _ => .inl rfl).bind fun t _ => failsOnly_pure _

theorem failsOnly_makeDirectory (path : Text) :
    (makeDirectory path).FailsOnly Failure.OfFile := by
  unfold makeDirectory
  refine (failsOnly_checkPath path).bind fun _ _ => failsOnly_get.bind fun w _ => ?_
  refine (failsOnly_lift fun _ _ => .inl rfl).bind fun files _ => ?_
  exact (failsOnly_allow .makeDirectory path).bind fun _ _ => failsOnly_modify _

theorem ofFile_of_unopened? {host : Host} {files : Files} {path : Text} {failure : Failure}
    (h : unopened? host files path = some failure) : failure.OfFile := by
  unfold unopened? at h
  split at h
  case h_1 other hfault =>
    cases h
    exact ofFile_of_pathFault? hfault
  case h_2 =>
    split at h
    case h_1 =>
      cases h
      exact .inl rfl
    case h_2 =>
      split at h <;> cases h
      exact .inl rfl

theorem failsOnly_writeText (path t : Text) : (writeText path t).FailsOnly Failure.OfFile := by
  intro settings w failure left h
  have hwritten := written_writeText path t settings w
  rw [h] at hwritten
  cases hwritten with
  | unopened _ hunopened => exact ofFile_of_unopened? hunopened
  | noBytes => exact .inr rfl
  | begun => exact .inl rfl

theorem failsOnly_writeJson (path : Text) (value : Json) :
    (writeJson path value).FailsOnly Failure.OfFile := by
  unfold writeJson
  refine failsOnly_read.bind fun settings _ => ?_
  split
  · exact failsOnly_writeText path _
  · exact (failsOnly_writeText path _).bind fun _ _ => failsOnly_throw (.inr rfl)

end Job

/-! ## The work on a module -/

/-- A failure of `parseModule` is `OfFile`. -/
theorem ofFile_of_parseModule {trees : List (Text × Concrete)} {source file : Text}
    {language : Language} {failure : Failure}
    (h : parseModule trees source language.name file = .error failure) : failure.OfFile := by
  have hlanguage : languageNamed language.name = .ok language := by cases language <;> rfl
  unfold parseModule at h
  rw [hlanguage] at h
  simp only [bind, Except.bind] at h
  split at h
  case h_1 =>
    cases h
    exact .inl rfl
  case h_2 =>
    split at h
    case isTrue =>
      cases h
      exact .inl rfl
    case isFalse =>
      obtain ⟨fault, -, rfl⟩ := exists_of_mapError_eq_error h
      exact .inr rfl

/-- A failure to chain two maps is `OfFile`. -/
theorem ofFile_ofCompose (error : ComposeError) : (Failure.ofCompose error).OfFile := by
  cases error with
  | fault => exact .inl rfl
  | notAList => exact .inr rfl

/-- A failure of `printChained` is `OfFile`, if the map is an object. -/
theorem ofFile_of_printChained {program : Node} {path : Text} {map : Option Json}
    {failure : Failure} (hmap : ∀ m, map = some m → ∃ members, m = .obj members)
    (h : program.printChained path map = .error failure) : failure.OfFile := by
  unfold Node.printChained at h
  split at h
  case h_1 =>
    rcases of_bind_eq_error h with h | ⟨code, -, h⟩
    · obtain ⟨error, -, rfl⟩ := exists_of_mapError_eq_error h
      exact .inr rfl
    · cases h
  case h_2 m =>
    obtain ⟨members, rfl⟩ := hmap m rfl
    obtain ⟨name, hname⟩ := exists_mapName_obj members path
    rw [hname] at h
    rcases of_bind_eq_error h with h | ⟨_, hok, h⟩
    · cases h
    cases hok
    rcases of_bind_eq_error h with h | ⟨printed, -, h⟩
    · obtain ⟨error, -, rfl⟩ := exists_of_mapError_eq_error h
      exact .inr rfl
    rcases of_bind_eq_error h with h | ⟨chained, -, h⟩
    · obtain ⟨error, -, rfl⟩ := exists_of_mapError_eq_error h
      exact ofFile_ofCompose error
    · cases h

/-- `textSet` of a list of strings is that list. -/
theorem textSet_strings (ts : List Text) : textSet (.arr (ts.map .str)) = .ok ts := by
  simp only [textSet, List.any_map, List.filterMap_map, Function.comp_def]
  simp only [List.any_eq_true, Bool.false_eq_true, and_false, exists_false, if_false,
    List.filterMap_some]
  rfl

/-- `transform` fails only with what is `OfFile`, for a module with a path, flags as strings and an
object as its map. -/
theorem failsOnly_transform {request : TransformRequest} {flags : List Text}
    {report : Text → Job Unit} (hpath : request.path ≠ [])
    (hflags : request.staticOnly = .arr (flags.map .str))
    (hmap : ∀ m, request.map = some m → ∃ members, m = .obj members)
    (hreport : ∀ t, (report t).FailsOnly Failure.OfFile) :
    (transform request report).FailsOnly Failure.OfFile := by
  have hlanguage : moduleLanguage request.path request.map = .ok (.ofPath request.path) := by
    simp [moduleLanguage, hpath]
  have hset : textSet request.staticOnly = .ok flags := by rw [hflags, textSet_strings]
  unfold transform
  refine (Job.yields_lift id hset).failsOnly.bind fun staticOnly _ => ?_
  refine (Job.yields_lift id hlanguage).failsOnly.bind fun language _ => ?_
  refine Job.failsOnly_read.bind fun settings _ => ?_
  refine (Job.failsOnly_lift fun _ h => ofFile_of_parseModule h).bind fun program hprogram => ?_
  refine (Job.yields_forIn Job.yields_debug).failsOnly.bind fun _ _ => ?_
  have hfault := Node.fault_foldModule_of_wellTyped
    (parsed_of_parseModule (Job.eq_ok_of_mayYield_lift hprogram)).wellTyped
    request.features staticOnly request.path
  have hprint : ∀ folded : FoldedModule, (do
      let printed ← Job.lift id (folded.program.printChained request.path request.map)
      return ⟨printed.1, printed.2, folded.dynamic⟩ : Job Transformed).FailsOnly Failure.OfFile :=
    fun folded => (Job.failsOnly_lift fun _ h => ofFile_of_printChained hmap h).bind
      fun printed _ => Job.failsOnly_pure _
  dsimp only
  rw [hfault]
  dsimp only
  split
  case isTrue => exact (hreport _).bind fun _ _ => hprint _
  case isFalse => exact hprint _

/-! ## The work on a file -/

namespace Command

theorem failsOnly_readMap (path : Text) : (readMap path).FailsOnly Failure.OfFile := by
  unfold readMap
  dsimp only
  refine Job.failsOnly_get.bind fun w _ => ?_
  split
  case isTrue => exact Job.failsOnly_pure _
  case isFalse =>
    refine ((Job.failsOnly_readText _).tryCatch fun failure hfailure => ?_).bind
      fun document _ => ?_
    · split
      case h_1 => exact Job.failsOnly_throw (.inl rfl)
      case h_2 => exact Job.failsOnly_throw (.inl rfl)
      case h_3 => exact Job.failsOnly_throw hfailure
    · refine Job.failsOnly_read.bind fun settings _ => ?_
      split
      case h_1 fault _ =>
        split
        case isTrue => exact Job.failsOnly_throw (.inl rfl)
        case isFalse hjson =>
          exact Job.failsOnly_throw (.inr (by simpa [Failure.endsRun] using hjson))
      case h_2 => exact (Job.yields_debug _).failsOnly.bind fun _ _ => Job.failsOnly_pure _
      case h_3 => exact Job.failsOnly_throw (.inl rfl)

/-- A map that `readMap` gives is an object. -/
theorem exists_of_readMap {path : Text} {m : Json} (h : (readMap path).MayYield (some m)) :
    ∃ members, m = .obj members := by
  unfold readMap at h
  dsimp only at h
  obtain ⟨w, -, h⟩ := h.exists_of_bind
  split at h
  case isTrue => cases Job.eq_of_mayYield_pure h
  case isFalse =>
    obtain ⟨document, -, h⟩ := h.exists_of_bind
    obtain ⟨settings, -, h⟩ := h.exists_of_bind
    split at h
    case h_1 => exact absurd h (Job.not_mayYield_throw _ _)
    case h_2 members _ =>
      obtain ⟨_, -, h⟩ := h.exists_of_bind
      cases Job.eq_of_mayYield_pure h
      exact ⟨members, rfl⟩
    case h_3 => exact absurd h (Job.not_mayYield_throw _ _)

theorem failsOnly_produceFrom (task : FileTask) {path : Text} (hpath : path ≠ []) (source : Text)
    {map : Option Json} (hmap : ∀ m, map = some m → ∃ members, m = .obj members)
    (report : FileReport) : (produceFrom task path source map report).FailsOnly Failure.OfFile := by
  unfold produceFrom
  split
  case isTrue =>
    have hsay : ∀ t, ((if task.outputPath.isNone then Job.writeErr else Job.writeOut) t).FailsOnly
        Failure.OfFile := by
      intro t
      split
      · exact (Job.yields_writeErr t).failsOnly
      · exact Job.failsOnly_writeOut t
    generalize (if task.outputPath.isNone then Job.writeErr else Job.writeOut) = say at hsay ⊢
    refine Job.failsOnly_read.bind fun settings _ => ?_
    dsimp only
    split
    case isTrue =>
      exact (Job.failsOnly_throw (.inr rfl)).bind fun _ h => absurd h (Job.not_mayYield_throw _ _)
    case isFalse =>
      exact (failsOnly_transform hpath rfl hmap hsay).bind fun _ _ => Job.failsOnly_pure _
  case isFalse => exact (Job.yields_debug _).failsOnly.bind fun _ _ => Job.failsOnly_pure _

theorem failsOnly_produce (task : FileTask) {path : Text} (hpath : path ≠ [])
    (report : FileReport) : (produce task path report).FailsOnly Failure.OfFile := by
  unfold produce
  refine (Job.failsOnly_readText path).bind fun source _ => ?_
  dsimp only
  split
  case isTrue =>
    refine (failsOnly_readMap path).bind fun map hmap => ?_
    refine failsOnly_produceFrom task hpath source ?_ report
    rintro m rfl
    exact exists_of_readMap hmap
  case isFalse =>
    refine (Job.failsOnly_pure _).bind fun map hmap => ?_
    refine failsOnly_produceFrom task hpath source ?_ report
    rintro m rfl
    cases Job.eq_of_mayYield_pure hmap

theorem failsOnly_deliver (task : FileTask) (code : Text) (map : Option Json) :
    (deliver task code map).FailsOnly Failure.OfFile := by
  unfold deliver
  split
  case h_1 => exact Job.failsOnly_writeOut code
  case h_2 output _ =>
    unfold writeOutput
    refine (Job.failsOnly_makeDirectory _).bind fun _ _ => ?_
    refine (Job.failsOnly_writeText output code).bind fun _ _ => ?_
    split
    case h_1 => exact Job.failsOnly_writeJson _ _
    case h_2 => exact Job.failsOnly_pure _

end Command
end FlagFold
