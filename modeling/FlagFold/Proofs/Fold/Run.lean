/-
  FlagFold.Proofs.Fold.Run

  What the work on one module comes to: the program in the source, with both passes
  done, printed.  For a given source it can be computed from the edits of the folded
  program.
-/

import FlagFold.Fold.Transform
import FlagFold.Proofs.Print.Copies
import FlagFold.Proofs.Print.Program
import FlagFold.Proofs.Tree.OfConcrete
import FlagFold.Proofs.World.Job

namespace FlagFold

/-! ## The program in a source -/

/-- `parseModule` gives a program that keeps `source` and spans all of it. -/
theorem program_of_parseModule {trees : List (Text × Concrete)} {source name file : Text}
    {program : Node} (h : parseModule trees source name file = .ok program) :
    program.source = source ∧ program.info.stop = source.length := by
  obtain ⟨language, -, h⟩ := exists_of_bind_eq_ok h
  split at h
  case h_1 => cases h
  case h_2 root known _ =>
    split at h
    case isTrue => cases h
    case isFalse =>
      cases hroot : root.toProgram source with
      | error fault =>
        rw [hroot] at h
        cases h
      | ok made =>
        rw [hroot] at h
        cases h
        obtain ⟨body, -, hprogram⟩ := exists_of_bind_eq_ok hroot
        cases hprogram
        exact ⟨rfl, rfl⟩

/-- The program that `parseModule` gives is `Parsed` from `source`. -/
theorem parsed_of_parseModule {trees : List (Text × Concrete)} {source name file : Text}
    {program : Node} (h : parseModule trees source name file = .ok program) :
    program.Parsed source := by
  obtain ⟨language, -, h⟩ := exists_of_bind_eq_ok h
  split at h
  case h_1 => cases h
  case h_2 root known _ =>
    split at h
    case isTrue => cases h
    case isFalse => exact Concrete.toProgram_ensures source root program (eq_ok_of_mapError h)

/-- `request` is read as `program`, with the flags `staticOnly` left alone: `textSet` gives these
flags, `moduleLanguage` a language, and `parseModule` the program in that language. -/
structure TransformRequest.Reads (request : TransformRequest) (settings : Settings)
    (program : Node) (staticOnly : List Text) : Prop where
  staticOnly : textSet request.staticOnly = .ok staticOnly
  program : ∃ language, moduleLanguage request.path request.map = .ok language ∧
    parseModule settings.trees request.source language.name request.path = .ok program

/-- `request` with `code` as its source and without a map. -/
def TransformRequest.again (request : TransformRequest) (code : Text) : TransformRequest :=
  { request with source := code, map := none }

/-! ## The work on a module -/

/-- What `request` comes to before anything is printed. -/
def TransformRequest.folded (request : TransformRequest) (settings : Settings) :
    Except Failure FoldedModule := do
  let staticOnly ← textSet request.staticOnly
  let language ← moduleLanguage request.path request.map
  let program ← parseModule settings.trees request.source language.name request.path
  let folded := program.foldModule request.features staticOnly request.path
  if let some fault := folded.fault then throw (.shape fault)
  return folded

/-- The outcome of a job that goes on with `f` from a step `x` that may fail. -/
theorem Job.outcome_lift_bind {α β : Type} {x : Except Failure α} {f : α → Job β}
    {g : α → Except Failure β} {settings : Settings} {w : World}
    (h : ∀ a, ((f a).run settings w).1 = g a) :
    ((Job.lift id x >>= f).run settings w).1 = x >>= g := by
  rw [Job.run_bind, Job.run_lift]
  cases x with
  | error failure => rfl
  | ok a => exact h a

/-- What it comes to that dynamic flags are reported, where to report a text `t` comes to `said
t`. -/
def FoldedModule.reported (folded : FoldedModule) (said : Text → Except Failure Unit) :
    Except Failure Unit :=
  let found := dynamicReport folded.dynamic
  if found.isEmpty then .ok () else said found

/-- If `report` comes to `said` whatever has been written before, the outcome of `transform` is the
folded program printed, once its dynamic flags are reported. -/
theorem run_transform_of_said (request : TransformRequest) (settings : Settings)
    {report : Text → Job Unit} {said : Text → Except Failure Unit}
    (hsaid : ∀ t w, ((report t).run settings w).1 = said t) (w : World) :
    ((transform request report).run settings w).1 = (do
      let folded ← request.folded settings
      folded.reported said
      let printed ← folded.program.printChained request.path request.map
      return ⟨printed.1, printed.2, folded.dynamic⟩) := by
  have hprint : ∀ (folded : FoldedModule) (w : World), ((do
      let printed ← Job.lift id (folded.program.printChained request.path request.map)
      return ⟨printed.1, printed.2, folded.dynamic⟩ : Job Transformed).run settings w).1 = (do
      let printed ← folded.program.printChained request.path request.map
      return ⟨printed.1, printed.2, folded.dynamic⟩) :=
    fun folded w => Job.outcome_lift_bind fun printed => rfl
  simp only [transform, TransformRequest.folded, bind_assoc]
  refine Job.outcome_lift_bind fun staticOnly => Job.outcome_lift_bind fun language => ?_
  rw [Job.run_read_bind]
  refine Job.outcome_lift_bind fun program => ?_
  rw [(Job.yields_forIn Job.yields_debug).run_bind]
  cases (program.foldModule request.features staticOnly request.path).fault with
  | some fault => rfl
  | none =>
    generalize program.foldModule request.features staticOnly request.path = folded
    simp only [pure_bind, FoldedModule.reported]
    -- Whether or not there is something to report, the program is printed then.
    cases (dynamicReport folded.dynamic).isEmpty with
    | true => exact hprint _ _
    | false =>
      have hreport := hsaid (dynamicReport folded.dynamic)
      simp only [Bool.not_false, if_true, Bool.false_eq_true, if_false]
      rw [Job.run_bind]
      generalize (forIn folded.notes PUnit.unit fun note _ => do
        Job.debug note
        pure (ForInStep.yield PUnit.unit) : Job PUnit).run settings w = noted
      rw [← hreport noted.2]
      rcases (report (dynamicReport folded.dynamic)).run settings noted.2 with ⟨failure | _, left⟩
      · rfl
      · exact hprint folded left

/-- With `Job.write` for its report, the outcome of `transform` is the folded program printed. -/
theorem run_transform_eq (request : TransformRequest) (settings : Settings) (w : World) :
    ((transform request Job.write).run settings w).1 = (do
      let folded ← request.folded settings
      let printed ← folded.program.printChained request.path request.map
      return ⟨printed.1, printed.2, folded.dynamic⟩) := by
  have hsaid : ∀ t w, ((Job.write t).run settings w).1 = .ok () := fun _ _ => rfl
  have hreported : ∀ folded : FoldedModule, folded.reported (fun _ => .ok ()) = .ok () :=
    fun folded => ite_self _
  rw [run_transform_of_said request settings hsaid]
  simp only [hreported]
  rfl

theorem TransformRequest.Reads.folded_eq {request : TransformRequest} {settings : Settings}
    {program : Node} {staticOnly : List Text} (h : request.Reads settings program staticOnly)
    (hfault : (program.foldModule request.features staticOnly request.path).fault = none) :
    request.folded settings =
      .ok (program.foldModule request.features staticOnly request.path) := by
  obtain ⟨hstatic, language, hlanguage, hparse⟩ := h
  simp only [TransformRequest.folded, hstatic, hlanguage, hparse, bind, Except.bind, hfault]
  rfl

/-- Without a fault, the outcome of a request that `Reads` as `program` is the folded program
printed. -/
theorem run_transform {request : TransformRequest} {settings : Settings} {program : Node}
    {staticOnly : List Text} (h : request.Reads settings program staticOnly) (w : World) :
    let folded := program.foldModule request.features staticOnly request.path
    folded.fault = none →
      ((transform request Job.write).run settings w).1 =
        (folded.program.printChained request.path request.map).map fun printed =>
          ⟨printed.1, printed.2, folded.dynamic⟩ := by
  intro folded hfault
  rw [run_transform_eq, h.folded_eq hfault]
  show (folded.program.printChained request.path request.map >>= _) = _
  cases folded.program.printChained request.path request.map <;> rfl

/-- The result of `transform` is the folded program printed, with the flags that it found. -/
theorem printChained_of_run_transform {request : TransformRequest} {settings : Settings}
    {program : Node} {staticOnly : List Text} (h : request.Reads settings program staticOnly)
    {w : World} {result : Transformed}
    (hresult : ((transform request Job.write).run settings w).1 = .ok result) :
    let folded := program.foldModule request.features staticOnly request.path
    folded.fault = none →
      folded.program.printChained request.path request.map = .ok (result.code, result.map) ∧
        folded.dynamic = result.dynamic := by
  intro folded hfault
  rw [run_transform h w hfault] at hresult
  cases hprinted : folded.program.printChained request.path request.map with
  | error failure =>
    rw [hprinted] at hresult
    cases hresult
  | ok printed =>
    rw [hprinted] at hresult
    cases hresult
    exact ⟨rfl, rfl⟩

/-- `mapName` gives a name for every object. -/
theorem exists_mapName_obj (members : Table Json) (path : Text) :
    ∃ name, mapName path (.obj members) = .ok name := by
  have hfile : mapFile (.obj members) =
      .ok (((Json.obj members).member? (text "file")).getD .null) := rfl
  unfold mapName
  rw [hfile]
  simp only [bind, Except.bind]
  split
  · split <;> exact ⟨_, rfl⟩
  · exact ⟨_, rfl⟩

/-- With a map or without one, the code of `printChained` is that of `print`. -/
theorem Node.print_of_printChained {program : Node} {path : Text} {map : Option Json}
    {code : Text} {chained : Option SourceMap}
    (h : program.printChained path map = .ok (code, chained)) : program.print = .ok code := by
  unfold printChained at h
  split at h
  case h_1 =>
    obtain ⟨t, ht, h⟩ := exists_of_bind_eq_ok h
    cases h
    exact eq_ok_of_mapError ht
  case h_2 =>
    obtain ⟨name, -, h⟩ := exists_of_bind_eq_ok h
    obtain ⟨printed, hprinted, h⟩ := exists_of_bind_eq_ok h
    obtain ⟨map, -, h⟩ := exists_of_bind_eq_ok h
    cases h
    obtain ⟨chunks, hchunks, h⟩ := exists_of_bind_eq_ok (eq_ok_of_mapError hprinted)
    cases h
    rw [print, hchunks]
    rfl

/-! ## What a result says -/

/-- If a job has a result, its first step `x` has not failed. -/
theorem Job.exists_of_run_lift_bind {ε α β : Type} {wrap : ε → Failure} {x : Except ε α}
    {f : α → Job β} {settings : Settings} {w : World} {b : β}
    (h : ((Job.lift wrap x >>= f).run settings w).1 = .ok b) :
    ∃ a, x = .ok a ∧ ((f a).run settings w).1 = .ok b := by
  rw [Job.run_bind, Job.run_lift] at h
  cases x with
  | error e => cases h
  | ok a => exact ⟨a, rfl, h⟩

/-- If `transform` has a result, the request `Reads` as some program, and `foldModule` meets no
fault. -/
theorem TransformRequest.reads_of_run {request : TransformRequest} {settings : Settings}
    {w : World} {result : Transformed}
    (h : ((transform request Job.write).run settings w).1 = .ok result) :
    ∃ program staticOnly, request.Reads settings program staticOnly ∧
      (program.foldModule request.features staticOnly request.path).fault = none := by
  rw [transform] at h
  obtain ⟨staticOnly, hstatic, h⟩ := Job.exists_of_run_lift_bind h
  obtain ⟨language, hlanguage, h⟩ := Job.exists_of_run_lift_bind h
  rw [Job.run_read_bind] at h
  obtain ⟨program, hparse, h⟩ := Job.exists_of_run_lift_bind h
  refine ⟨program, staticOnly, ⟨hstatic, language, hlanguage, hparse⟩, ?_⟩
  rw [(Job.yields_forIn Job.yields_debug).run_bind] at h
  dsimp only at h
  cases hfault : (program.foldModule request.features staticOnly request.path).fault with
  | none => rfl
  | some fault =>
    rw [hfault] at h
    cases h

/-- A request `Reads` as one program only, with one list of flags. -/
theorem TransformRequest.Reads.unique {request : TransformRequest} {settings : Settings}
    {program program' : Node} {staticOnly staticOnly' : List Text}
    (h : request.Reads settings program staticOnly)
    (h' : request.Reads settings program' staticOnly') :
    program' = program ∧ staticOnly' = staticOnly := by
  obtain ⟨hstatic, language, hlanguage, hparse⟩ := h
  obtain ⟨hstatic', language', hlanguage', hparse'⟩ := h'
  cases hstatic.symm.trans hstatic'
  cases hlanguage.symm.trans hlanguage'
  cases hparse.symm.trans hparse'
  exact ⟨rfl, rfl⟩

/-- If `transform` has a result, `foldModule` meets no fault. -/
theorem fault_of_run_transform {request : TransformRequest} {settings : Settings}
    {program : Node} {staticOnly : List Text} (h : request.Reads settings program staticOnly)
    {w : World} {result : Transformed}
    (hresult : ((transform request Job.write).run settings w).1 = .ok result) :
    (program.foldModule request.features staticOnly request.path).fault = none := by
  obtain ⟨program', staticOnly', hreads, hfault⟩ := TransformRequest.reads_of_run hresult
  obtain ⟨rfl, rfl⟩ := h.unique hreads
  exact hfault

/-! ## Given sources -/

/-- A decidable property of the result of `x`, from a run of `x`. -/
theorem exists_of_any {ε α : Type} {x : Except ε α} {P : α → Prop} [DecidablePred P]
    (h : x.toOption.any fun a => P a) : ∃ a, x = .ok a ∧ P a := by
  cases x with
  | error e => cases h
  | ok a => exact ⟨a, rfl, by simpa [Except.toOption] using h⟩

/-- Plain code `Reads` as a program with a decidable property, from a run of `parseModule`. -/
theorem TransformRequest.exists_reads (source : Text) (features : FeatureMap) {P : Node → Prop}
    [DecidablePred P]
    (h : (parseModule [] source (text "javascript") []).toOption.any fun program => P program) :
    ∃ program, ({ source, features } : TransformRequest).Reads {} program [] ∧ P program := by
  obtain ⟨program, hparse, hprogram⟩ := exists_of_any h
  exact ⟨program, ⟨rfl, .javascript, rfl, hparse⟩, hprogram⟩

/-- `foldModule` leaves `program` with its source, to be printed with `edits`, and reports
`dynamic`. -/
structure Node.FoldsWith (features : FeatureMap) (edits : List Edit) (dynamic : List Text)
    (program : Node) : Prop where
  fault : (program.foldModule features [] []).fault = none
  dynamic : (program.foldModule features [] []).dynamic = dynamic
  source : (program.foldModule features [] []).program.source = program.source
  edits : (program.foldModule features [] []).program.programEdits = .ok edits

instance (features : FeatureMap) (edits : List Edit) (dynamic : List Text) (program : Node) :
    Decidable (program.FoldsWith features edits dynamic) :=
  decidable_of_iff ((program.foldModule features [] []).fault = none ∧
      (program.foldModule features [] []).dynamic = dynamic ∧
      (program.foldModule features [] []).program.source = program.source ∧
      (program.foldModule features [] []).program.programEdits = .ok edits)
    ⟨fun ⟨fault, dynamic, source, edits⟩ => ⟨fault, dynamic, source, edits⟩,
    fun h => ⟨h.fault, h.dynamic, h.source, h.edits⟩⟩

/-- If the `edits` come one behind the other, the outcome for plain code is the code with their
texts in the places of their spans. -/
theorem run_transform_of_edits {source : Text} {features : FeatureMap} {program : Node}
    {edits : List Edit} {dynamic : List Text} {code : Text}
    (h : ({ source, features } : TransformRequest).Reads {} program [])
    (hfolds : program.FoldsWith features edits dynamic)
    (hspan : ∀ e ∈ edits, e.start ≤ e.stop ∧ e.ownLine = false)
    (hordered : edits.Pairwise (·.stop ≤ ·.start))
    (hcode : source.replaceFrom source.length 0 edits = code) (w : World) :
    ((transform { source, features } Job.write).run {} w).1 = .ok ⟨code, none, dynamic⟩ := by
  obtain ⟨hfault, hdynamic, hsource, hedits⟩ := hfolds
  obtain ⟨language, -, hparse⟩ := h.program
  have hprogram : program.source = source := (program_of_parseModule hparse).1
  have hprint := Node.print_of_ordered hedits (fun e he => (hspan e he).1) hordered
    fun e he => (hspan e he).2
  rw [run_transform h w hfault]
  simp only [Node.printChained, hprint, hsource, hprogram, hdynamic, hcode]
  rfl

/-- If the `edits` come one behind the other, the code consists of their `chunks`. -/
theorem printChunks_of_edits {source : Text} {features : FeatureMap} {program : Node}
    {edits : List Edit} {dynamic : List Text} {chunks : List Chunk}
    (h : ({ source, features } : TransformRequest).Reads {} program [])
    (hfolds : program.FoldsWith features edits dynamic)
    (hspan : ∀ e ∈ edits, e.start ≤ e.stop ∧ e.ownLine = false)
    (hordered : edits.Pairwise (·.stop ≤ ·.start))
    (hchunks : (Sheet.ofSource source).spliceFrom source.length [] 0 edits = .ok chunks) :
    (program.foldModule features [] []).program.printChunks = .ok chunks := by
  obtain ⟨language, -, hparse⟩ := h.program
  have hsource : (program.foldModule features [] []).program.source = source :=
    hfolds.source.trans (program_of_parseModule hparse).1
  rw [Node.printChunks_of_ordered hfolds.edits (fun e he => (hspan e he).1) hordered, Node.sheet,
    hsource, hchunks]

end FlagFold
