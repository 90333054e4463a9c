/-
  FlagFold.Proofs.Feature.Lookup

  What a name of a feature set comes to in a world (`lookUp`): what has been loaded
  under it, or else the preset or the file of that name.  A load finds just this.  It
  fails for a path that is none to the system and for a document that is JSON but is
  not read (`Obstructs`), and what it remembers changes nothing about what any name
  comes to (`Agrees`), so that loads can be done in turn.
-/

import FlagFold.Feature.Store
import FlagFold.Proofs.World.Job

namespace FlagFold

/-- What has been loaded under `key`. -/
def World.loaded? (w : World) (key : FeatureSetKey) : Option FeatureMap :=
  (w.loaded.find? (·.1 = key)).map (·.2)

theorem World.loaded?_of_remembered {w left : World} {new : FeatureSetKey} {m : FeatureMap}
    (key : FeatureSetKey) (h : left.loaded = (new, m) :: w.loaded) :
    left.loaded? key = if new = key then some m else w.loaded? key := by
  rw [World.loaded?, h, List.find?_cons]
  by_cases hkey : new = key
  · simp [hkey]
  · simp [hkey, World.loaded?]

namespace FeatureStore

/-- The base that is meant: the one given, or else that of the `settings`. -/
def baseFor (settings : Settings) (base : Option Text) : Option Text :=
  (base <|> settings.featuresBase).map PathText.normalize

/-- What the file at `path` stands for: the feature map in it, or nothing if it cannot be read or
holds no object of truth values. A document that is JSON but is not read is a failure. -/
def setIn (host : Host) (files : Files) (path : Text) : Except Failure (Option FeatureMap) :=
  match Job.textIn host files path with
  | .error _ => .ok none
  | .ok document =>
    match Json.parse document host.room with
    | .ok value => .ok (FeatureMap.ofTruthValues? value)
    | .error fault => if fault.isViolation then .ok none else .error (.json document fault)

/-- The feature set that is stored under `name`: without a base a preset, else that in the file. -/
def stored (host : Host) (files : Files) (base : Option Text) (name : Text) :
    Except Failure (Option FeatureMap) :=
  match base with
  | none => .ok (Presets.all.find? name)
  | some _ => setIn host files (filePath base name)

/-- What a load finds under `name` if nothing has been loaded for it: nothing if it cannot be the
name of a set, a failure if its path is none to the system, and else what is `stored`. -/
def asStored (host : Host) (files : Files) (base : Option Text) (name : Text) :
    Except Failure (Option FeatureMap) :=
  if isSetName name then
    match Job.pathFault? (filePath base name) with
    | some failure => .error failure
    | none => stored host files base name
  else .ok none

/-- What `name` comes to in the world `w`. -/
def lookUp (host : Host) (w : World) (base : Option Text) (name : Text) :
    Except Failure (Option FeatureMap) :=
  match w.loaded? ⟨base, name⟩ with
  | some m => .ok (some m)
  | none => asStored host w.files base name

/-- What `name` stands for in the world `w`, if `lookUp` does not fail. -/
def found? (host : Host) (w : World) (base : Option Text) (name : Text) : Option FeatureMap :=
  (lookUp host w base name).toOption.join

/-- Why `lookUp` fails for `name`. -/
def refusal? (host : Host) (w : World) (base : Option Text) (name : Text) : Option Failure :=
  match lookUp host w base name with
  | .error failure => some failure
  | .ok _ => none

/-- `left` has the files and the output of `w`, and its diagnostics unless remarks are asked for. -/
structure Remarked (settings : Settings) (w left : World) : Prop where
  files : left.files = w.files
  out : left.out = w.out
  err : settings.debug = false → left.err = w.err

theorem Remarked.refl (settings : Settings) (w : World) : Remarked settings w w :=
  ⟨rfl, rfl, fun _ => rfl⟩

theorem Remarked.trans {settings : Settings} {w mid left : World} (h : Remarked settings w mid)
    (h' : Remarked settings mid left) : Remarked settings w left where
  files := h'.files.trans h.files
  out := h'.out.trans h.out
  err hdebug := (h'.err hdebug).trans (h.err hdebug)

/-- Every name comes to the same in `left` as in `w`. -/
def Agrees (host : Host) (w left : World) : Prop :=
  ∀ base name, lookUp host left base name = lookUp host w base name

theorem agrees_of_same {host : Host} {w left : World} (hloaded : left.loaded = w.loaded)
    (hfiles : left.files = w.files) : Agrees host w left := by
  intro base name
  simp only [lookUp, World.loaded?, hloaded, hfiles]

theorem Agrees.refusal {host : Host} {w left : World} (h : Agrees host w left)
    (base : Option Text) : refusal? host left base = refusal? host w base := by
  funext name
  rw [refusal?, refusal?, h base name]

theorem Agrees.found {host : Host} {w left : World} (h : Agrees host w left)
    (base : Option Text) : found? host left base = found? host w base := by
  funext name
  rw [found?, found?, h base name]

/-- To remember what `name` stands for does not change what any name comes to. -/
theorem agrees_of_remembered {host : Host} {w left : World} {base : Option Text} {name : Text}
    {m : FeatureMap} (hfound : lookUp host w base name = .ok (some m))
    (hloaded : left.loaded = (⟨base, name⟩, m) :: w.loaded) (hfiles : left.files = w.files) :
    Agrees host w left := by
  intro base' name'
  have hcases := World.loaded?_of_remembered ⟨base', name'⟩ hloaded
  by_cases hkey : (⟨base, name⟩ : FeatureSetKey) = ⟨base', name'⟩
  · cases hkey
    rw [hfound, lookUp, hcases, if_pos rfl]
  · rw [lookUp, lookUp, hcases, if_neg hkey, hfiles]

/-! ## Looking up -/

variable {settings : Settings} {w : World}

theorem run_debug (settings : Settings) (w : World) (t : Text) :
    ∃ left, (Job.debug t).run settings w = (.ok (), left) ∧ Remarked settings w left ∧
      left.loaded = w.loaded := by
  obtain ⟨debug, colors, base, trees, host⟩ := settings
  cases debug
  · exact ⟨w, rfl, .refl _ w, rfl⟩
  · exact ⟨_, rfl, ⟨rfl, rfl, nofun⟩, rfl⟩

/-- What cannot be loaded is remarked on and found nowhere. -/
theorem run_remark (settings : Settings) (w : World) (t : Text) :
    ∃ left, (do Job.debug t; return none : Job (Option FeatureMap)).run settings w =
      (.ok none, left) ∧ Remarked settings w left ∧ left.loaded = w.loaded := by
  obtain ⟨left, hrun, hleft⟩ := run_debug settings w t
  refine ⟨left, ?_, hleft⟩
  rw [Job.run_bind, hrun]
  rfl

theorem run_readSet (settings : Settings) (w : World) (base : Option Text) (name : Text) :
    ∃ left, (readSet base name).run settings w =
      (match Job.pathFault? (filePath base name) with
        | some failure => .error failure
        | none => stored settings.host w.files base name, left) ∧
      Remarked settings w left ∧ left.loaded = w.loaded := by
  unfold readSet
  simp only [Job.run_bind, Job.run_checkPath]
  cases hfault : Job.pathFault? (filePath base name) with
  | some failure => exact ⟨w, rfl, .refl settings w, rfl⟩
  | none =>
    simp only
    cases base with
    | none =>
      simp only [stored]
      cases Presets.all.find? name with
      | some preset => exact ⟨w, rfl, .refl settings w, rfl⟩
      | none => exact run_remark settings w _
    | some b =>
      simp only [Job.run_bind, Job.run_tryCatch, Job.run_map, Job.run_readText, hfault, stored,
        setIn]
      cases htext : Job.textIn settings.host w.files (filePath (some b) name) with
      | error failure =>
        -- Whatever keeps the file from being read or decoded, the set counts as missing.
        obtain ⟨left, hrun, hleft⟩ := run_debug settings w (text "Feature set " ++
          filePath (some b) name ++ text " not loaded: " ++ failure.message)
        refine ⟨left, ?_, hleft⟩
        obtain ⟨fault, rfl⟩ | ⟨fault, rfl⟩ := Job.of_textIn_eq_error htext
        all_goals
          simp only [Except.map, Job.run_bind, hrun]
          rfl
      | ok document =>
        simp only [Except.map, Job.run_read_bind]
        cases Json.parse document settings.host.room with
        | error fault =>
          simp only
          cases fault.isViolation with
          | true => exact run_remark settings w _
          | false => exact ⟨w, rfl, .refl settings w, rfl⟩
        | ok value =>
          simp only
          cases FeatureMap.ofTruthValues? value with
          | none => exact run_remark settings w _
          | some m => exact ⟨w, rfl, .refl settings w, rfl⟩

theorem run_baseOr (settings : Settings) (w : World) (base : Option Text) :
    (baseOr base).run settings w = (.ok (baseFor settings base), w) := by
  cases base <;> rfl

/-- What a load of `name` adds to the sets that have been loaded. -/
def gained? (host : Host) (w : World) (base : Option Text) (name : Text) : Option FeatureMap :=
  match w.loaded? ⟨base, name⟩ with
  | some _ => none
  | none => (lookUp host w base name).toOption.join

/-- `load` comes to what `lookUp` says. A set that comes from its file or from the presets is
remembered. -/
theorem run_load_gained (settings : Settings) (w : World) (base : Option Text) (name : Text) :
    ∃ left, (load name base).run settings w =
      (lookUp settings.host w (baseFor settings base) name, left) ∧
      Remarked settings w left ∧
      left.loaded = ((gained? settings.host w (baseFor settings base) name).map
        (⟨baseFor settings base, name⟩, ·)).toList ++ w.loaded := by
  unfold load
  generalize hb : baseFor settings base = b
  simp only [Job.run_bind, run_baseOr, Job.run_get, hb]
  cases hfind : w.loaded.find? (·.1 = ⟨b, name⟩) with
  | some entry =>
    have hloaded : w.loaded? ⟨b, name⟩ = some entry.2 := by rw [World.loaded?, hfind]; rfl
    -- A set that is remembered is answered as it was, whatever the files hold now.
    refine ⟨w, ?_, .refl settings w, ?_⟩
    · simp only [lookUp, hloaded]
      rfl
    · simp only [gained?, hloaded]
      rfl
  | none =>
    have hloaded : w.loaded? ⟨b, name⟩ = none := by rw [World.loaded?, hfind]; rfl
    cases hname : isSetName name with
    | false =>
      -- What is no name of a set leads to no file.
      refine ⟨w, ?_, .refl settings w, ?_⟩
      · simp only [lookUp, asStored, hloaded, hname]
        rfl
      · simp only [gained?, lookUp, asStored, hloaded, hname]
        rfl
    | true =>
      obtain ⟨mid, hrun, hmid, hkept⟩ := run_readSet settings w b name
      have hlookUp : (match Job.pathFault? (filePath b name) with
          | some failure => .error failure
          | none => stored settings.host w.files b name) = lookUp settings.host w b name := by
        simp only [lookUp, asStored, hloaded, hname, if_true]
      rw [hlookUp] at hrun
      simp only [gained?, hloaded, Bool.not_true, Bool.false_eq_true, if_false, Job.run_bind, hrun]
      cases lookUp settings.host w b name with
      | error failure => exact ⟨mid, rfl, hmid, hkept⟩
      | ok found =>
        cases found with
        | none => exact ⟨mid, rfl, hmid, hkept⟩
        | some m =>
          -- Only a set that was read is remembered, and it comes before those of the past.
          exact ⟨{ mid with loaded := (⟨b, name⟩, m) :: mid.loaded }, rfl,
            ⟨hmid.files, hmid.out, hmid.err⟩, congrArg _ hkept⟩

theorem of_gained? {host : Host} {base : Option Text} {name : Text} {m : FeatureMap}
    (h : gained? host w base name = some m) :
    w.loaded? ⟨base, name⟩ = none ∧ lookUp host w base name = .ok (some m) := by
  unfold gained? at h
  cases hloaded : w.loaded? ⟨base, name⟩ with
  | some m => simp [hloaded] at h
  | none =>
    refine ⟨rfl, ?_⟩
    simp only [hloaded] at h
    cases hlookUp : lookUp host w base name with
    | error failure => simp [hlookUp, Except.toOption] at h
    | ok found =>
      rw [hlookUp] at h
      exact congrArg Except.ok h

/-- `load` comes to what `lookUp` says, and what it remembers makes no difference to any name. -/
theorem run_load (settings : Settings) (w : World) (base : Option Text) (name : Text) :
    ∃ left, (load name base).run settings w =
      (lookUp settings.host w (baseFor settings base) name, left) ∧
      Remarked settings w left ∧ Agrees settings.host w left ∧
      ∀ entry ∈ left.loaded, entry ∈ w.loaded ∨ isSetName entry.1.name := by
  obtain ⟨left, hrun, hleft, hloaded⟩ := run_load_gained settings w base name
  refine ⟨left, hrun, hleft, ?_⟩
  cases hgained : gained? settings.host w (baseFor settings base) name with
  | none =>
    rw [hgained] at hloaded
    exact ⟨agrees_of_same hloaded hleft.files, fun _ => hloaded ▸ .inl⟩
  | some m =>
    rw [hgained] at hloaded
    obtain ⟨hnew, hfound⟩ := of_gained? hgained
    refine ⟨agrees_of_remembered hfound hloaded hleft.files, fun entry hentry => ?_⟩
    rw [hloaded] at hentry
    obtain rfl | hold := List.mem_cons.mp hentry
    · right
      by_contra hname
      rw [lookUp, hnew] at hfound
      simp only [asStored, hname] at hfound
      cases hfound
    · exact .inl hold

/-! ## Worlds that loads lead to -/

/-- The worlds to which `load` leads from nothing loaded, whatever is done to the files and the
channels before, between and after. -/
inductive Reached : World → Prop where
  | start (files : Files) (out err : Text) : Reached ⟨files, [], out, err⟩
  | change {w : World} (h : Reached w) (files : Files) (out err : Text) :
      Reached ⟨files, w.loaded, out, err⟩
  | load {w : World} (h : Reached w) (settings : Settings) (name : Text) (base : Option Text) :
      Reached ((load name base).run settings w).2

/-- In a `Reached` world only what `isSetName` accepts has been loaded. -/
theorem Reached.isSetName (h : Reached w) : ∀ entry ∈ w.loaded, isSetName entry.1.name := by
  induction h with
  | start files out err => exact fun _ => nofun
  | change _ files out err ih => exact ih
  | load _ settings name base ih =>
    obtain ⟨left, hrun, -, -, hloaded⟩ := run_load settings _ base name
    rw [hrun]
    intro entry hentry
    exact (hloaded entry hentry).elim (ih entry) id

end FeatureStore
end FlagFold
