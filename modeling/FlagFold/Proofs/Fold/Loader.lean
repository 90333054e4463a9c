/-
  FlagFold.Proofs.Fold.Loader

  A step of a bundler that is given a map and has no callback for it.  The map is
  dropped in the end, but it has been chained to that of the printed program before:
  the code is the same as without the map, and a map that cannot be chained makes the
  step fail.
-/

import FlagFold.Proofs.Feature.Resolution
import FlagFold.Proofs.Fold.Run
import FlagFold.Proofs.SourceMap.Malformed

namespace FlagFold

/-! ## Feature sets, whatever has been written -/

namespace FeatureStore

open Job

/-- `load` does not depend on what has been written to the channels. -/
theorem ignoresChannels_load (name : Text) (base : Option Text) :
    (load name base).IgnoresChannels := by
  intro settings w out err
  obtain ⟨left, hrun, hleft, hloaded⟩ := run_load_gained settings w base name
  obtain ⟨left', hrun', hleft', hloaded'⟩ := run_load_gained settings { w with out, err } base name
  have hfiles : left'.files = left.files := hleft'.files.trans hleft.files.symm
  have hsame : left'.loaded = left.loaded := hloaded'.trans hloaded.symm
  have hworld : left' = { left with out := left'.out, err := left'.err } := by
    rw [← hfiles, ← hsame]
  exact ⟨left'.out, left'.err, hrun'.trans (by rw [hrun]; exact Prod.ext rfl hworld)⟩

theorem ignoresChannels_loadNamed (name : Json) (base : Option Text) :
    (loadNamed name base).IgnoresChannels := by
  unfold loadNamed
  split <;> try split
  all_goals first
    | exact ignoresChannels_load _ base
    | exact ignoresChannels_pure _
    | exact ignoresChannels_throw _

theorem ignoresChannels_resolveNames (names : List Json) (base : Option Text) :
    (resolveNames names base).IgnoresChannels := by
  unfold resolveNames
  refine (ignoresChannels_mapM fun name => ignoresChannels_loadNamed name base).bind fun maps => ?_
  dsimp only
  split
  · exact (ignoresChannels_debug _).bind fun _ => ignoresChannels_pure _
  · exact ignoresChannels_pure _

theorem ignoresChannels_resolve (request : Json) (base : Option Text) :
    (resolve request base).IgnoresChannels := by
  have hresolved : ∀ names, (resolveListed names base).IgnoresChannels := by
    intro names
    refine (ignoresChannels_resolveNames names base).bind fun resolved => ?_
    split <;> exact ignoresChannels_pure _
  unfold resolve
  split
  · exact ignoresChannels_pure _
  · dsimp only
    split
    · exact ignoresChannels_pure _
    · split
      case h_1 | h_2 => exact (ignoresChannels_pure _).bind fun names => hresolved names
      case h_3 => exact (ignoresChannels_throw _).bind fun names => hresolved names

theorem ignoresChannels_resolveOrWarn (request : Json) (base : Option Text) :
    (resolveOrWarn request base).IgnoresChannels := by
  unfold resolveOrWarn
  refine (ignoresChannels_resolve request base).bind fun resolution => ?_
  exact (ignoresChannels_forIn fun _ _ => (ignoresChannels_warn _).bind
    fun _ => ignoresChannels_pure _).bind fun _ => ignoresChannels_pure _

end FeatureStore

/-! ## Maps that cannot be chained -/

/-- `printMapped` gives the code of `print`. -/
theorem Node.map_code_printMapped (program : Node) (name : Option Text) :
    (program.printMapped name).map (·.code) = program.print := by
  rw [printMapped, print]
  cases program.printChunks <;> rfl

namespace SourceMap

/-- Why `m` cannot be chained to the map of a printed program, if it cannot. -/
def obstacle? (m : Json) : Option Failure :=
  match m with
  | .obj _ =>
    match check .input m with
    | .error fault => some (.ofCompose (.fault fault))
    | .ok _ => (unlisted? m).map fun value => .ofCompose (.notAList value)
  | _ => some .noMembers

theorem compose_of_obstacle? {program : Node} {name : Option Text} {printed : Printed}
    (h : program.printMapped name = .ok printed) (members : Table Json) :
    match obstacle? (.obj members) with
    | none => ∃ composed, compose (.obj members) printed.map.toJson = .ok composed
    | some failure => (compose (.obj members) printed.map.toJson).mapError .ofCompose =
        .error failure := by
  obtain ⟨edited, hedited, -⟩ := check_printMapped h
  unfold obstacle?
  dsimp only
  cases hcheck : check .input (.obj members) with
  | error fault =>
    rw [compose_of_check_error hcheck]
    rfl
  | ok input =>
    obtain ⟨hnone, composed, hcompose, -⟩ | ⟨value, hvalue, hcompose⟩ :=
      compose_cases hcheck hedited
    · rw [hnone]
      exact ⟨composed, hcompose⟩
    · rw [hvalue, hcompose]
      rfl

/-- What becomes of an outcome when the map `m` comes with it. A map without an `obstacle?` changes
nothing, and what has failed before the map is looked at fails as before. What is no object stops
the work before the program is printed, any other obstacle when that is done. -/
inductive Hindered {α : Type} (m : Json) : Except Failure α → Except Failure α → Prop where
  | same {outcome : Except Failure α} (h : obstacle? m = none) : Hindered m outcome outcome
  | failed (failure : Failure) : Hindered m (.error failure) (.error failure)
  | stopped {failure : Failure} (h : obstacle? m = some failure) (a : α) :
      Hindered m (.ok a) (.error failure)
  | stoppedBefore (h : obstacle? m = some .noMembers) (failure : Failure) :
      Hindered m (.error failure) (.error .noMembers)

section

variable {α β : Type} {m : Json}

theorem Hindered.map {plain hindered : Except Failure α} (h : Hindered m plain hindered)
    (f : α → β) : Hindered m (plain.map f) (hindered.map f) := by
  cases h with
  | same h => exact .same h
  | failed failure => exact .failed failure
  | stopped h a => exact .stopped h (f a)
  | stoppedBefore h failure => exact .stoppedBefore h failure

theorem hindered_bind (x : Except Failure α) {f g : α → Except Failure β}
    (h : ∀ a, Hindered m (f a) (g a)) : Hindered m (x >>= f) (x >>= g) := by
  cases x with
  | ok a => exact h a
  | error failure => exact .failed failure

end

theorem obstacle?_of_not_object {m : Json} (h : ∀ members, m ≠ .obj members) :
    obstacle? m = some .noMembers := by
  cases m with
  | obj members => exact absurd rfl (h members)
  | _ => rfl

theorem mapName_of_not_object {m : Json} (h : ∀ members, m ≠ .obj members) (path : Text) :
    mapName path m = .error .noMembers := by
  cases m with
  | obj members => exact absurd rfl (h members)
  | _ => rfl

/-- `printChained` with the map `m` is `Hindered` by it, and has the same code otherwise. -/
theorem hindered_printChained (program : Node) (path : Text) (m : Json) :
    Hindered m ((program.printChained path none).map (·.1))
      ((program.printChained path (some m)).map (·.1)) := by
  by_cases hobject : ∃ members, m = .obj members
  · obtain ⟨members, rfl⟩ := hobject
    obtain ⟨name, hname⟩ := exists_mapName_obj members path
    have hcode := program.map_code_printMapped (some name)
    simp only [Node.printChained, hname, bind, Except.bind, Except.mapError]
    cases hprinted : program.printMapped (some name) with
    | error fault =>
      rw [hprinted] at hcode
      rw [← hcode]
      exact .failed (.print fault)
    | ok printed =>
      have hcompose := compose_of_obstacle? hprinted members
      rw [hprinted] at hcode
      rw [← hcode]
      -- The program is printed in any case. What is left is to chain the map.
      cases hobstacle : obstacle? (.obj members) with
      | none =>
        rw [hobstacle] at hcompose
        obtain ⟨composed, hcomposed⟩ := hcompose
        simp only [hcomposed]
        exact .same hobstacle
      | some failure =>
        rw [hobstacle] at hcompose
        simp only [Except.mapError] at hcompose
        simp only [hcompose]
        exact .stopped hobstacle printed.code
  · have hnone : ∀ members, m ≠ .obj members := fun members h => hobject ⟨members, h⟩
    have hobstacle := obstacle?_of_not_object hnone
    simp only [Node.printChained, mapName_of_not_object hnone]
    cases program.print with
    | error fault => exact .stoppedBefore hobstacle (.print fault)
    | ok code => exact .stopped hobstacle code

end SourceMap

/-! ## The step of a bundler -/

section

variable {source path : Text} {options : LoaderOptions}

/-- The request for a module, once its `features` are known. -/
def LoaderOptions.request (options : LoaderOptions) (source path : Text) (map : Option Json)
    (features : Table Json) : TransformRequest where
  source := source
  features := .ofJson features
  map := map
  path := path
  staticOnly := options.staticOnly

/-- The code for a module, once its `features` are known. -/
def LoaderOptions.codeFor (options : LoaderOptions) (settings : Settings) (source path : Text)
    (map : Option Json) (features : Table Json) : Except Failure Text := do
  let folded ← (options.request source path none features).folded settings
  folded.reported (Job.outcomeOut settings.host)
  (folded.program.printChained path map).map (·.1)

/-- With a path, `folded` does not depend on the map of the request. -/
theorem LoaderOptions.folded_request (hne : path ≠ []) (settings : Settings) (map : Option Json)
    (features : Table Json) : (options.request source path map features).folded settings =
      (options.request source path none features).folded settings := by
  have hlanguage : ∀ map, moduleLanguage path map = .ok (.ofPath path) := by
    intro map
    simp [moduleLanguage, hne]
  simp only [TransformRequest.folded, request, hlanguage]

theorem run_transform_code (hne : path ≠ []) (map : Option Json) (features : Table Json)
    (settings : Settings) (w : World) :
    ((transform (options.request source path map features) Job.writeOut >>= fun result =>
      pure (Delivery.returned result.code)).run settings w).1 =
      (options.codeFor settings source path map features).map .returned := by
  rw [bind_pure_comp, Job.run_map,
    run_transform_of_said _ settings fun t w => Job.run_writeOut t settings w,
    LoaderOptions.folded_request hne, LoaderOptions.codeFor]
  cases (options.request source path none features).folded settings with
  | error failure => rfl
  | ok folded =>
    show Except.map _ (folded.reported _ >>= fun _ => folded.program.printChained path map >>= _) =
      Except.map _ (folded.reported _ >>= fun _ =>
        Except.map _ (folded.program.printChained path map))
    cases folded.reported (Job.outcomeOut settings.host) with
    | error failure => rfl
    | ok _ => cases folded.program.printChained path map <;> rfl

/-- Without a callback the outcome of `loaderStep` is `codeFor` the features that are resolved. The
warning about a map makes no difference to these. -/
theorem run_loaderStep (hpath : options.path = .str path) (hne : path ≠ [])
    (hfold : needsFolding source (some path) = true) (map : Option Json) (settings : Settings)
    (w : World) :
    ((loaderStep source map options false).run settings w).1 =
      (((FeatureStore.resolveOrWarn options.features none).run settings w).1 >>=
        options.codeFor settings source path map).map .returned := by
  let work : Job Delivery := do
    let features ← FeatureStore.resolveOrWarn options.features none
    let result ← transform (options.request source path map features) Job.writeOut
    return .returned result.code
  have hwork : ∀ w, (work.run settings w).1 =
      (((FeatureStore.resolveOrWarn options.features none).run settings w).1 >>=
        options.codeFor settings source path map).map .returned := by
    intro w
    rw [Job.run_bind]
    generalize (FeatureStore.resolveOrWarn options.features none).run settings w = ran
    obtain ⟨failure | features, mid⟩ := ran
    · rfl
    · exact run_transform_code hne map features settings mid
  unfold loaderStep
  simp only [hpath, pure_bind, hfold]
  cases map with
  | none => exact hwork w
  | some m =>
    -- The warning changes what is on `err`, of which the rest of the work makes nothing.
    let warning := text "Source map given without a callback: the composed map is dropped"
    obtain ⟨err, hwarn⟩ : ∃ err, (Job.warn warning).run settings w = (.ok (), { w with err }) :=
      ⟨_, rfl⟩
    obtain ⟨out', err', hrun⟩ :=
      FeatureStore.ignoresChannels_resolveOrWarn options.features none settings w w.out err
    show ((Job.warn warning >>= fun _ => work).run settings w).1 = _
    rw [Job.run_bind, hwarn]
    exact (hwork { w with err }).trans (by rw [hrun])

/-- Where nothing needs folding, `loaderStep` returns `source` and does not look at the map. -/
theorem loaderStep_of_not_needsFolding (hpath : options.path = .str path)
    (hfold : needsFolding source (some path) = false) (map : Option Json) :
    loaderStep source map options false = pure (.returned source) := by
  unfold loaderStep
  simp only [hpath, pure_bind, hfold, Bool.not_false, if_true, Bool.false_eq_true, if_false]
  cases map <;> rfl

theorem hindered_loaderStep (hpath : options.path = .str path) (hne : path ≠ [])
    (hfold : needsFolding source (some path) = true) (m : Json) (settings : Settings) (w : World) :
    SourceMap.Hindered m ((loaderStep source none options false).run settings w).1
      ((loaderStep source (some m) options false).run settings w).1 := by
  rw [run_loaderStep hpath hne hfold, run_loaderStep hpath hne hfold]
  refine (SourceMap.hindered_bind _ fun features => ?_).map _
  refine SourceMap.hindered_bind _ fun folded => SourceMap.hindered_bind _ fun _ => ?_
  exact SourceMap.hindered_printChained folded.program path m

/-- `loaderStep` with a map `m`, any JSON value, and no callback, for a module with a path. If there
is nothing to fold, or `m` has no `obstacle?`, it comes to the same as without the map: to the same
code, or to the same failure. Otherwise there is no code. The step fails with the obstacle where it
has code without the map, and where it fails without it, it fails for the same reason, or because
the map is no object. -/
theorem loaderStep_dropped (hpath : options.path = .str path) (hne : path ≠ []) (source : Text)
    (m : Json) (settings : Settings) (w : World) :
    let without := ((loaderStep source none options false).run settings w).1
    let withMap := ((loaderStep source (some m) options false).run settings w).1
    (needsFolding source (some path) = false ∨ SourceMap.obstacle? m = none → withMap = without) ∧
    ∀ failure, needsFolding source (some path) = true → SourceMap.obstacle? m = some failure →
      (∀ delivery, without = .ok delivery → withMap = .error failure) ∧
      ∀ other, without = .error other →
        withMap = .error other ∨ failure = .noMembers ∧ withMap = .error failure := by
  intro without withMap
  cases hfold : needsFolding source (some path) with
  | false =>
    have hsource : ∀ map, loaderStep source map options false = pure (.returned source) :=
      fun map => loaderStep_of_not_needsFolding hpath hfold map
    refine ⟨fun _ => ?_, nofun⟩
    show ((loaderStep source (some m) options false).run settings w).1 =
      ((loaderStep source none options false).run settings w).1
    rw [hsource, hsource]
  | true =>
    have hhindered : SourceMap.Hindered m without withMap :=
      hindered_loaderStep hpath hne hfold m settings w
    generalize without = plain at hhindered ⊢
    generalize withMap = hindered at hhindered ⊢
    cases hhindered with
    | same h => simp [h]
    | failed failure => simp
    | stopped h delivery => simp [h]
    | stoppedBefore h failure => simp [h]

end

/-- Without a map, `loaderStep` for a program that is printed as it was returns `source`. -/
theorem run_loaderStep_unedited {source path : Text} {members : Table Json} (hne : path ≠ [])
    (hfold : needsFolding source (some path) = true)
    (h : ((LoaderOptions.request { path := .str path } source path none members).folded
      {}).toOption.any fun folded =>
        folded.program.programEdits = .ok [] ∧ folded.program.source = source) (w : World) :
    ((loaderStep source none { features := .obj members, path := .str path } false).run {} w).1 =
      .ok (.returned source) := by
  obtain ⟨folded, hfolded, hedits, rfl⟩ := exists_of_any h
  have hprint : folded.program.print = .ok folded.program.source := by
    rw [Node.print_of_ordered hedits (by simp) (by simp) (by simp)]
    simp [Text.replaceFrom, Text.slice]
  have hcode : LoaderOptions.codeFor { path := .str path } {} folded.program.source path none
      members = .ok folded.program.source := by
    have hreported : folded.reported (Job.outcomeOut {}) = .ok () := ite_self _
    unfold LoaderOptions.codeFor
    rw [hfolded]
    show (folded.reported (Job.outcomeOut {}) >>= fun _ =>
      (folded.program.printChained path none).map (·.1)) = _
    rw [hreported, Node.printChained, hprint]
    rfl
  rw [run_loaderStep rfl hne hfold]
  exact congrArg (Except.map Delivery.returned) hcode

set_option maxRecDepth 100000 in
/-- A map of the second revision stops the step, one of the third changes nothing. -/
theorem loaderStep_dropped_revisions :
    let path := text "a.js"
    let source := text "has('x');\n"
    let options : LoaderOptions := { features := .obj [(text "x", .bool true)], path := .str path }
    let revision (n : Int) : Json := .obj [(text "version", .int n), (text "mappings", .str [])]
    let run (map : Option Json) := ((loaderStep source map options false).run {} {}).1
    run none = .ok (.returned source) ∧ run (some (revision 3)) = .ok (.returned source) ∧
      run (some (revision 2)) =
        .error (.ofCompose (.fault (.unsupportedVersion .input (.int 2)))) := by
  intro path source options revision run
  have hfold : needsFolding source (some path) = true := by decide +kernel
  have hplain : run none = .ok (.returned source) :=
    run_loaderStep_unedited (by decide) hfold (by decide +kernel) {}
  have hpath : options.path = .str path := rfl
  have hdropped (n : Int) := loaderStep_dropped hpath (by decide) source (revision n) {} {}
  obtain ⟨hsame, -⟩ := hdropped 3
  obtain ⟨-, hstops⟩ := hdropped 2
  refine ⟨hplain, (hsame (.inr ?_)).trans hplain, (hstops _ hfold ?_).1 _ hplain⟩
  · exact Option.isNone_iff_eq_none.mp (by decide +kernel)
  · rfl

set_option maxRecDepth 100000 in
/-- A map that is dropped can make the step fail. -/
theorem not_forall_loaderStep_dropped :
    ¬ ∀ (source path : Text) (options : LoaderOptions) (m : Json) (settings : Settings) (w : World),
      options.path = .str path → path ≠ [] →
        ((loaderStep source (some m) options false).run settings w).1 =
          ((loaderStep source none options false).run settings w).1 := by
  intro h
  let options : LoaderOptions :=
    { features := .obj [(text "x", .bool true)], path := .str (text "a.js") }
  have hfold : needsFolding (text "has('x');\n") (some (text "a.js")) = true := by decide +kernel
  have hplain : ((loaderStep (text "has('x');\n") none options false).run {} {}).1 = _ :=
    run_loaderStep_unedited (by decide) hfold (by decide +kernel) {}
  have hsame := h (text "has('x');\n") (text "a.js") options (.obj [(text "version", .int 2)]) {} {}
    rfl (by decide)
  have hpath : options.path = .str (text "a.js") := rfl
  have hhindered := hindered_loaderStep hpath (by decide) hfold
    (.obj [(text "version", .int 2)]) {} {}
  rw [hsame, hplain] at hhindered
  cases hhindered with
  | same hnone => cases hnone

end FlagFold
