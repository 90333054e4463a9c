/-
  FlagFold.Proofs.World.Job

  Jobs run step by step: each step is run on the world that the step before has
  left, and the first failure ends the job unless a handler goes on from it; which
  values a job can come to, what it leaves as it is, and for what it can fail.
-/

import FlagFold.Proofs.World.Steps
import FlagFold.World.Job

namespace FlagFold.Job

variable {α β : Type}

/-- What `x >>= f` comes to in the world `w`: the failure of `x`, or what `f` comes to in the world
that `x` has left. -/
theorem run_bind (x : Job α) (f : α → Job β) (settings : Settings) (w : World) :
    (x >>= f).run settings w =
      match x.run settings w with
      | (.ok a, w) => (f a).run settings w
      | (.error failure, w) => (.error failure, w) := by
  simp only [run, ReaderT.run, bind, ReaderT.bind, ExceptT.bind, ExceptT.run, ExceptT.mk,
    StateT.bind, StateT.run]
  rcases x settings w with ⟨a | a, w⟩ <;> rfl

theorem run_get (settings : Settings) (w : World) :
    (get : Job World).run settings w = (.ok w, w) := rfl

theorem run_map (f : α → β) (x : Job α) (settings : Settings) (w : World) :
    (f <$> x).run settings w = ((x.run settings w).1.map f, (x.run settings w).2) := by
  rw [map_eq_pure_bind, run_bind]
  rcases x.run settings w with ⟨a | a, w⟩ <;> rfl

/-- After a failure of `x` the `handler` goes on, in the world that `x` has left. -/
theorem run_tryCatch (x : Job α) (handler : Failure → Job α) (settings : Settings) (w : World) :
    (tryCatch x handler).run settings w =
      match x.run settings w with
      | (.ok a, w) => (.ok a, w)
      | (.error failure, w) => (handler failure).run settings w := by
  simp only [run, ReaderT.run, tryCatch, tryCatchThe, MonadExcept.tryCatch,
    MonadExceptOf.tryCatch, ExceptT.tryCatch, ExceptT.run, ExceptT.mk, StateT.bind, StateT.run,
    bind]
  rcases x settings w with ⟨a | a, w⟩ <;> rfl

theorem run_lift {ε : Type} (wrap : ε → Failure) (x : Except ε α) (settings : Settings)
    (w : World) : (lift wrap x).run settings w = (x.mapError wrap, w) := by
  cases x <;> rfl

/-- Where `x >>= f` has not failed, neither `x` nor `f` has. -/
theorem exists_of_run_bind {x : Job α} {f : α → Job β} {b : β} {settings : Settings}
    {w left : World} (h : (x >>= f).run settings w = (.ok b, left)) :
    ∃ a mid, x.run settings w = (.ok a, mid) ∧ (f a).run settings mid = (.ok b, left) := by
  rw [run_bind] at h
  split at h
  case h_1 a mid hx => exact ⟨a, mid, hx, h⟩
  case h_2 => cases h

theorem of_run_lift {ε : Type} {wrap : ε → Failure} {x : Except ε α} {a : α}
    {settings : Settings} {w left : World}
    (h : (lift wrap x).run settings w = (.ok a, left)) : x = .ok a ∧ left = w := by
  rw [run_lift] at h
  cases x <;> cases h
  exact ⟨rfl, rfl⟩

theorem run_read_bind (f : Settings → Job β) (settings : Settings) (w : World) :
    (read >>= f : Job β).run settings w = (f settings).run settings w := by
  rw [run_bind]
  rfl

/-- The failure of `Job.checkPath` for a `path` that is none to the system. -/
def pathFault? (path : Text) : Option Failure :=
  if !PathText.isEncodable path then some .loneSurrogate
  else if PathText.hasNul path then some .nulInPath else none

theorem run_checkPath (path : Text) (settings : Settings) (w : World) :
    (checkPath path).run settings w =
      (match pathFault? path with | some failure => .error failure | none => .ok (), w) := by
  unfold checkPath pathFault?
  cases PathText.isEncodable path <;> cases PathText.hasNul path <;> rfl

theorem run_allow (act : FileAct) (path : Text) (settings : Settings) (w : World) :
    (allow act path).run settings w =
      (match settings.host.refusal? act path with
        | some refusal => .error (.file (.refused refusal))
        | none => .ok (), w) := by
  unfold allow
  rw [run_read_bind]
  cases settings.host.refusal? act path <;> rfl

/-- What `writeOut t` comes to, whatever has been written before. -/
def outcomeOut (host : Host) (t : Text) : Except Failure Unit :=
  if host.utf8Out && t.utf8?.isNone then .error .loneSurrogate
  else match host.outShortfall? t with
    | none => .ok ()
    | some (_, refusal) => .error (.file (.refused refusal))

theorem run_writeOut (t : Text) (settings : Settings) (w : World) :
    ((writeOut t).run settings w).1 = outcomeOut settings.host t := by
  unfold writeOut outcomeOut
  rw [run_read_bind]
  cases settings.host.utf8Out && t.utf8?.isNone with
  | true => rfl
  | false =>
    show ((read >>= fun settings => _ : Job Unit).run settings w).1 = _
    rw [run_read_bind]
    cases settings.host.outShortfall? t <;> rfl

/-- The text in the file at `path`, line terminators made one, or why `host` gives none. -/
def textIn (host : Host) (files : Files) (path : Text) : Except Failure Text := do
  let bytes ← (files.read path).mapError .file
  if let some refusal := host.refusal? .read path then throw (.file (.refused refusal))
  let t ← (Utf8.decode bytes).mapError .notUtf8
  return t.unifyNewlines

theorem run_readText (path : Text) (settings : Settings) (w : World) :
    (readText path).run settings w =
      (match pathFault? path with
        | some failure => .error failure
        | none => textIn settings.host w.files path, w) := by
  unfold readText textIn
  simp only [run_bind, run_checkPath]
  cases pathFault? path with
  | some failure => rfl
  | none =>
    simp only [run_get, run_lift]
    cases w.files.read path with
    | error fault => rfl
    | ok bytes =>
      simp only [Except.mapError, run_allow, bind, Except.bind]
      cases settings.host.refusal? .read path with
      | some refusal => rfl
      | none => cases Utf8.decode bytes <;> rfl

/-- `textIn` fails only where no file can be read, or where its bytes are no UTF-8. -/
theorem of_textIn_eq_error {host : Host} {files : Files} {path : Text} {failure : Failure}
    (h : textIn host files path = .error failure) :
    (∃ fault, failure = .file fault) ∨ ∃ fault, failure = .notUtf8 fault := by
  unfold textIn at h
  obtain h | ⟨bytes, -, h⟩ := of_bind_eq_error h
  · obtain ⟨fault, -, rfl⟩ := exists_of_mapError_eq_error h
    exact .inl ⟨fault, rfl⟩
  · split at h
    case h_1 refusal _ =>
      cases h
      exact .inl ⟨.refused refusal, rfl⟩
    case h_2 =>
      obtain h | ⟨t, -, h⟩ := of_bind_eq_error h
      · obtain ⟨fault, -, rfl⟩ := exists_of_mapError_eq_error h
        exact .inr ⟨fault, rfl⟩
      · cases h

/-- What `textIn` gives is told by what is read at `path`. -/
theorem textIn_congr {host : Host} {files files' : Files} {path : Text}
    (h : files.read path = files'.read path) :
    textIn host files path = textIn host files' path := by
  rw [textIn, textIn, h]

/-! ## Jobs that do not fail -/

/-- The job `x` never fails, and comes to `a` in every world. -/
def Yields (x : Job α) (a : α) : Prop := ∀ settings w, (x.run settings w).1 = .ok a

theorem yields_pure (a : α) : Yields (pure a) a := fun _ _ => rfl

/-- Behind a job `x` that does not fail `f` decides. -/
theorem Yields.run_bind {x : Job α} {a : α} (hx : x.Yields a) (f : α → Job β)
    (settings : Settings) (w : World) :
    (x >>= f).run settings w = (f a).run settings (x.run settings w).2 := by
  have hrun := hx settings w
  rw [Job.run_bind]
  generalize x.run settings w = ran at hrun
  obtain ⟨r, w'⟩ := ran
  cases hrun
  rfl

theorem Yields.bind {x : Job α} {f : α → Job β} {a : α} {b : β} (hx : x.Yields a)
    (hf : (f a).Yields b) : (x >>= f).Yields b := by
  intro settings w
  rw [hx.run_bind]
  exact hf settings _

theorem yields_lift {ε : Type} (wrap : ε → Failure) {x : Except ε α} {a : α} (h : x = .ok a) :
    (lift wrap x).Yields a := by
  intro settings w
  rw [run_lift, h]
  rfl

theorem yields_writeErr (t : Text) : (writeErr t).Yields () := fun _ _ => rfl

theorem yields_debug (t : Text) : (debug t).Yields () := by
  rintro ⟨_ | _, _, _, _, _⟩ w <;> rfl

/-- Where `job item` does not fail for any item, neither does the loop over `items`. -/
theorem yields_forIn {items : List β} {job : β → Job Unit} (h : ∀ item, (job item).Yields ()) :
    (forIn items PUnit.unit fun item _ => do
      job item
      pure (ForInStep.yield PUnit.unit)).Yields PUnit.unit := by
  induction items with
  | nil => exact yields_pure _
  | cons item rest ih =>
    rw [List.forIn_cons]
    have hitem : (do job item; pure (ForInStep.yield PUnit.unit)).Yields (.yield PUnit.unit) :=
      (h item).bind (yields_pure _)
    exact hitem.bind ih

/-! ## Jobs that leave the files as they are -/

/-- The job `x` neither writes nor takes away files. -/
def KeepsFiles (x : Job α) : Prop := ∀ settings w, (x.run settings w).2.files = w.files

theorem keepsFiles_pure (a : α) : (pure a : Job α).KeepsFiles := fun _ _ => rfl

theorem keepsFiles_get : (get : Job World).KeepsFiles := fun _ _ => rfl

theorem keepsFiles_error (t : Text) : (error t).KeepsFiles := fun _ _ => rfl

theorem keepsFiles_debug (t : Text) : (debug t).KeepsFiles := by
  rintro ⟨_ | _, _, _, _, _⟩ w <;> rfl

theorem keepsFiles_throw (failure : Failure) : (throw failure : Job α).KeepsFiles := fun _ _ => rfl

theorem keepsFiles_read : (read : Job Settings).KeepsFiles := fun _ _ => rfl

theorem keepsFiles_lift {ε : Type} (wrap : ε → Failure) (x : Except ε α) :
    (lift wrap x).KeepsFiles := by
  intro settings w
  rw [run_lift]

theorem keepsFiles_writeOut (t : Text) : (writeOut t).KeepsFiles := by
  intro settings w
  unfold writeOut
  rw [run_read_bind]
  cases settings.host.utf8Out && t.utf8?.isNone with
  | true => rfl
  | false =>
    show ((read >>= fun settings => _ : Job Unit).run settings w).2.files = _
    rw [run_read_bind]
    cases settings.host.outShortfall? t <;> rfl

theorem keepsFiles_writeErr (t : Text) : (writeErr t).KeepsFiles := fun _ _ => rfl

theorem keepsFiles_info (t : Text) : (info t).KeepsFiles := fun _ _ => rfl

theorem keepsFiles_warn (t : Text) : (warn t).KeepsFiles := fun _ _ => rfl

theorem KeepsFiles.bind {x : Job α} {f : α → Job β} (hx : x.KeepsFiles)
    (hf : ∀ a, (f a).KeepsFiles) : (x >>= f).KeepsFiles := by
  intro settings w
  have hmid := hx settings w
  rw [run_bind]
  generalize x.run settings w = ran at hmid ⊢
  obtain ⟨_ | a, mid⟩ := ran
  · exact hmid
  · exact (hf a settings mid).trans hmid

theorem KeepsFiles.map {x : Job α} (hx : x.KeepsFiles) (f : α → β) : (f <$> x).KeepsFiles := by
  intro settings w
  rw [run_map]
  exact hx settings w

theorem KeepsFiles.tryCatch {x : Job α} {handler : Failure → Job α} (hx : x.KeepsFiles)
    (hhandler : ∀ failure, (handler failure).KeepsFiles) : (tryCatch x handler).KeepsFiles := by
  intro settings w
  have hmid := hx settings w
  rw [run_tryCatch]
  generalize x.run settings w = ran at hmid ⊢
  obtain ⟨failure | a, mid⟩ := ran
  · exact (hhandler failure settings mid).trans hmid
  · exact hmid

theorem keepsFiles_forIn {items : List β} {start : α} {step : β → α → Job (ForInStep α)}
    (h : ∀ item a, (step item a).KeepsFiles) : (forIn items start step).KeepsFiles := by
  induction items generalizing start with
  | nil => exact keepsFiles_pure start
  | cons item rest ih =>
    rw [List.forIn_cons]
    refine (h item start).bind fun next => ?_
    cases next with
    | done a => exact keepsFiles_pure a
    | yield a => exact ih

theorem keepsFiles_mapM {items : List β} {job : β → Job α} (h : ∀ item, (job item).KeepsFiles) :
    (items.mapM job).KeepsFiles := by
  induction items with
  | nil => exact keepsFiles_pure []
  | cons item rest ih =>
    rw [List.mapM_cons]
    exact (h item).bind fun _ => ih.bind fun _ => keepsFiles_pure _

theorem keepsFiles_checkPath (path : Text) : (checkPath path).KeepsFiles := by
  intro settings w
  rw [run_checkPath]

theorem keepsFiles_readText (path : Text) : (readText path).KeepsFiles := by
  intro settings w
  rw [run_readText]

/-! ## What a job looks at -/

section DependsOn

variable {agree : Files → Files → Prop}

/-- The job `x` leaves the files as they are, and comes to the same in worlds whose files `agree` on
what it looks at. -/
structure DependsOn (x : Job α) (agree : Files → Files → Prop) : Prop where
  same : ∀ settings {w w' : World}, agree w.files w'.files →
    (x.run settings w).1 = (x.run settings w').1
  keeps : x.KeepsFiles

theorem Yields.dependsOn {x : Job α} {a : α} (h : x.Yields a) (hkeeps : x.KeepsFiles) :
    x.DependsOn agree where
  same settings _ _ _ := (h settings _).trans (h settings _).symm
  keeps := hkeeps

theorem dependsOn_pure (a : α) : (pure a : Job α).DependsOn agree :=
  (yields_pure a).dependsOn (keepsFiles_pure a)

theorem dependsOn_throw (failure : Failure) : (throw failure : Job α).DependsOn agree where
  same _ _ _ _ := rfl
  keeps := keepsFiles_throw failure

theorem dependsOn_read : (read : Job Settings).DependsOn agree where
  same _ _ _ _ := rfl
  keeps := keepsFiles_read

theorem dependsOn_lift {ε : Type} (wrap : ε → Failure) (x : Except ε α) :
    (lift wrap x).DependsOn agree where
  same settings _ _ _ := by rw [run_lift, run_lift]
  keeps := keepsFiles_lift wrap x

theorem DependsOn.bind {x : Job α} {f : α → Job β} (hx : x.DependsOn agree)
    (hf : ∀ a, (f a).DependsOn agree) : (x >>= f).DependsOn agree where
  same settings w w' hagree := by
    have hfirst := hx.same settings hagree
    have hleft := hx.keeps settings w
    have hleft' := hx.keeps settings w'
    rw [run_bind, run_bind]
    generalize x.run settings w = ran at hfirst hleft ⊢
    generalize x.run settings w' = ran' at hfirst hleft' ⊢
    obtain ⟨r, mid⟩ := ran
    obtain ⟨r', mid'⟩ := ran'
    simp only at hfirst hleft hleft'
    subst hfirst
    cases r with
    | error failure => rfl
    | ok a => exact (hf a).same settings (by rwa [hleft, hleft'])
  keeps := hx.keeps.bind fun a => (hf a).keeps

theorem DependsOn.tryCatch {x : Job α} {handler : Failure → Job α} (hx : x.DependsOn agree)
    (hhandler : ∀ failure, (handler failure).DependsOn agree) :
    (tryCatch x handler).DependsOn agree where
  same settings w w' hagree := by
    have hfirst := hx.same settings hagree
    have hleft := hx.keeps settings w
    have hleft' := hx.keeps settings w'
    rw [run_tryCatch, run_tryCatch]
    generalize x.run settings w = ran at hfirst hleft ⊢
    generalize x.run settings w' = ran' at hfirst hleft' ⊢
    obtain ⟨r, mid⟩ := ran
    obtain ⟨r', mid'⟩ := ran'
    simp only at hfirst hleft hleft'
    subst hfirst
    cases r with
    | error failure => exact (hhandler failure).same settings (by rwa [hleft, hleft'])
    | ok a => rfl
  keeps := hx.keeps.tryCatch fun failure => (hhandler failure).keeps

theorem dependsOn_writeOut (t : Text) : (writeOut t).DependsOn agree where
  same settings _ _ _ := by rw [run_writeOut, run_writeOut]
  keeps := keepsFiles_writeOut t

/-- `readText path` depends on what can be read at `path`. -/
theorem dependsOn_readText (path : Text) :
    (readText path).DependsOn fun files files' => files.read path = files'.read path where
  same settings w w' hagree := by
    simp only [run_readText]
    rw [textIn_congr hagree]
  keeps := keepsFiles_readText path

end DependsOn

/-! ## Jobs for which it does not matter what has been written -/

/-- Whatever has been written to the channels before, the job `x` comes to the same and leaves the
same, beside what has been written. -/
def IgnoresChannels (x : Job α) : Prop :=
  ∀ settings (w : World) (out err : Text), ∃ out' err',
    x.run settings { w with out, err } =
      ((x.run settings w).1, { (x.run settings w).2 with out := out', err := err' })

theorem ignoresChannels_pure (a : α) : (pure a : Job α).IgnoresChannels :=
  fun _ _ out err => ⟨out, err, rfl⟩

theorem ignoresChannels_throw (failure : Failure) : (throw failure : Job α).IgnoresChannels :=
  fun _ _ out err => ⟨out, err, rfl⟩

theorem ignoresChannels_writeErr (t : Text) : (writeErr t).IgnoresChannels :=
  fun _ _ out err => ⟨out, err ++ t, rfl⟩

theorem ignoresChannels_warn (t : Text) : (warn t).IgnoresChannels := ignoresChannels_writeErr _

theorem ignoresChannels_debug (t : Text) : (debug t).IgnoresChannels := by
  rintro ⟨_ | _, _, _, _, _⟩ w out err
  · exact ⟨out, err, rfl⟩
  · exact ⟨out, _, rfl⟩

theorem IgnoresChannels.bind {x : Job α} {f : α → Job β} (hx : x.IgnoresChannels)
    (hf : ∀ a, (f a).IgnoresChannels) : (x >>= f).IgnoresChannels := by
  intro settings w out err
  obtain ⟨out', err', hrun⟩ := hx settings w out err
  rw [run_bind, run_bind, hrun]
  generalize x.run settings w = ran
  obtain ⟨_ | a, mid⟩ := ran
  · exact ⟨out', err', rfl⟩
  · exact hf a settings mid out' err'

theorem ignoresChannels_forIn {items : List β} {start : α} {step : β → α → Job (ForInStep α)}
    (h : ∀ item a, (step item a).IgnoresChannels) : (forIn items start step).IgnoresChannels := by
  induction items generalizing start with
  | nil => exact ignoresChannels_pure start
  | cons item rest ih =>
    rw [List.forIn_cons]
    refine (h item start).bind fun next => ?_
    cases next with
    | done a => exact ignoresChannels_pure a
    | yield a => exact ih

theorem ignoresChannels_mapM {items : List β} {job : β → Job α}
    (h : ∀ item, (job item).IgnoresChannels) : (items.mapM job).IgnoresChannels := by
  induction items with
  | nil => exact ignoresChannels_pure []
  | cons item rest ih =>
    rw [List.mapM_cons]
    exact (h item).bind fun _ => ih.bind fun _ => ignoresChannels_pure _

/-! ## What a job comes to -/

/-- Some run of the job `x` comes to `a`. -/
def MayYield (x : Job α) (a : α) : Prop :=
  ∃ settings w left, x.run settings w = (.ok a, left)

theorem mayYield_of_run {x : Job α} {a : α} {settings : Settings} {w left : World}
    (h : x.run settings w = (.ok a, left)) : x.MayYield a := ⟨settings, w, left, h⟩

theorem eq_of_mayYield_pure {a b : α} (h : (pure a : Job α).MayYield b) : b = a := by
  obtain ⟨settings, w, left, h⟩ := h
  cases h
  rfl

theorem not_mayYield_throw (failure : Failure) (a : α) :
    ¬ (throw failure : Job α).MayYield a := by
  rintro ⟨settings, w, left, h⟩
  cases h

theorem eq_ok_of_mayYield_lift {ε : Type} {wrap : ε → Failure} {x : Except ε α} {a : α}
    (h : (lift wrap x).MayYield a) : x = .ok a := by
  obtain ⟨settings, w, left, h⟩ := h
  exact (of_run_lift h).1

/-- `x >>= f` comes to what `f` does after some value of `x`. -/
theorem MayYield.exists_of_bind {x : Job α} {f : α → Job β} {b : β}
    (h : (x >>= f).MayYield b) : ∃ a, x.MayYield a ∧ (f a).MayYield b := by
  obtain ⟨settings, w, left, h⟩ := h
  obtain ⟨a, mid, hx, hf⟩ := exists_of_run_bind h
  exact ⟨a, mayYield_of_run hx, mayYield_of_run hf⟩

/-! ## What a job fails for -/

section FailsOnly

variable {P : Failure → Prop}

/-- The job `x` fails only for reasons of which `P` holds. -/
def FailsOnly (x : Job α) (P : Failure → Prop) : Prop :=
  ∀ settings w failure left, x.run settings w = (.error failure, left) → P failure

theorem failsOnly_pure (a : α) : (pure a : Job α).FailsOnly P := by
  intro settings w failure left h
  cases h

theorem failsOnly_throw {failure : Failure} (h : P failure) :
    (throw failure : Job α).FailsOnly P := by
  intro settings w other left hrun
  cases hrun
  exact h

theorem failsOnly_get : (get : Job World).FailsOnly P := by
  intro settings w failure left h
  cases h

theorem failsOnly_read : (read : Job Settings).FailsOnly P := by
  intro settings w failure left h
  cases h

theorem failsOnly_modify (f : World → World) : (modify f : Job Unit).FailsOnly P := by
  intro settings w failure left h
  cases h

theorem Yields.failsOnly {x : Job α} {a : α} (h : x.Yields a) : x.FailsOnly P := by
  intro settings w failure left hrun
  have hok := h settings w
  rw [hrun] at hok
  cases hok

theorem failsOnly_lift {ε : Type} {wrap : ε → Failure} {x : Except ε α}
    (h : ∀ e, x = .error e → P (wrap e)) : (lift wrap x).FailsOnly P := by
  intro settings w failure left hrun
  rw [run_lift] at hrun
  cases x with
  | ok a => cases hrun
  | error e =>
    cases hrun
    exact h e rfl

/-- Of `f` only what it does after values that `x` may yield matters to how `x >>= f` fails. -/
theorem FailsOnly.bind {x : Job α} {f : α → Job β} (hx : x.FailsOnly P)
    (hf : ∀ a, x.MayYield a → (f a).FailsOnly P) : (x >>= f).FailsOnly P := by
  intro settings w failure left h
  rw [run_bind] at h
  split at h
  case h_1 a mid hrun => exact hf a (mayYield_of_run hrun) settings mid failure left h
  case h_2 other mid hrun =>
    cases h
    exact hx settings w failure left hrun

/-- The `handler` decides for what `tryCatch x handler` fails. -/
theorem FailsOnly.tryCatch {Q : Failure → Prop} {x : Job α} {handler : Failure → Job α}
    (hx : x.FailsOnly Q) (hhandler : ∀ failure, Q failure → (handler failure).FailsOnly P) :
    (tryCatch x handler).FailsOnly P := by
  intro settings w failure left h
  rw [run_tryCatch] at h
  split at h
  case h_1 => cases h
  case h_2 other mid hrun =>
    exact hhandler other (hx settings w other mid hrun) settings mid failure left h

end FailsOnly

end FlagFold.Job
