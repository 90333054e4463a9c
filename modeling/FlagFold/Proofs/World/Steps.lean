/-
  FlagFold.Proofs.World.Steps

  Steps that may fail: what a result says about the steps that led to it, and
  properties that every result has, or every result and every fault.
-/

import Mathlib.Data.List.Basic

namespace FlagFold

variable {ε α β : Type}

/-! ## What led to a result -/

/-- `x >>= f` has the result `b` only if `x` has a result from which `f` comes to `b`. -/
theorem exists_of_bind_eq_ok {x : Except ε α} {f : α → Except ε β} {b : β}
    (h : x >>= f = .ok b) : ∃ a, x = .ok a ∧ f a = .ok b := by
  cases x with
  | error e => cases h
  | ok a => exact ⟨a, rfl, h⟩

/-- A step `x` whose fault is put in other words by `wrap` has the same result. -/
theorem eq_ok_of_mapError {ε' : Type} {x : Except ε α} {wrap : ε → ε'} {a : α}
    (h : x.mapError wrap = .ok a) : x = .ok a := by
  cases x <;> cases h
  rfl

/-! ## What led to a fault -/

/-- A fault `e` of `x >>= f` is one of `x`, or one of `f` behind it. -/
theorem of_bind_eq_error {x : Except ε α} {f : α → Except ε β} {e : ε}
    (h : x >>= f = .error e) : x = .error e ∨ ∃ a, x = .ok a ∧ f a = .error e := by
  cases x with
  | error e' =>
    cases h
    exact .inl rfl
  | ok a => exact .inr ⟨a, rfl, h⟩

theorem exists_of_mapError_eq_error {ε' : Type} {x : Except ε α} {wrap : ε → ε'} {e' : ε'}
    (h : x.mapError wrap = .error e') : ∃ e, x = .error e ∧ wrap e = e' := by
  cases x with
  | error e =>
    cases h
    exact ⟨e, rfl, rfl⟩
  | ok a => cases h

/-! ## What every result has -/

/-- Every result of the step `x` has the property `P`. -/
def Ensures (x : Except ε α) (P : α → Prop) : Prop := ∀ a, x = .ok a → P a

theorem ensures_ok {P : α → Prop} {a : α} (h : P a) : Ensures (.ok a : Except ε α) P := by
  intro b hb
  cases hb
  exact h

theorem ensures_self (x : Except ε α) : Ensures x fun a => x = .ok a := fun _ h => h

theorem Ensures.bind {x : Except ε α} {f : α → Except ε β} {P : α → Prop} {Q : β → Prop}
    (hx : Ensures x P) (hf : ∀ a, P a → Ensures (f a) Q) : Ensures (x >>= f) Q := by
  intro b hb
  cases x with
  | error e => cases hb
  | ok a => exact hf a (hx a rfl) b hb

theorem Ensures.and {x : Except ε α} {P Q : α → Prop} (hP : Ensures x P) (hQ : Ensures x Q) :
    Ensures x fun a => P a ∧ Q a :=
  fun a ha => ⟨hP a ha, hQ a ha⟩

theorem ensures_mapM {f : α → Except ε β} {P : β → Prop} {xs : List α}
    (h : ∀ x ∈ xs, Ensures (f x) P) : Ensures (xs.mapM f) fun ys => ∀ y ∈ ys, P y := by
  induction xs with
  | nil => exact ensures_ok (by simp)
  | cons x rest ih =>
    rw [List.forall_mem_cons] at h
    rw [List.mapM_cons]
    refine h.1.bind fun y hy => (ih h.2).bind fun ys hys => ensures_ok ?_
    exact List.forall_mem_cons.mpr ⟨hy, hys⟩

/-! ## What every outcome has -/

/-- The step `x` has a result of which `P` holds, or a fault of which `Q` holds. -/
def Outcome (x : Except ε α) (P : α → Prop) (Q : ε → Prop) : Prop :=
  match x with
  | .ok a => P a
  | .error e => Q e

section

variable {x : Except ε α} {P P' : α → Prop} {Q Q' : ε → Prop}

theorem outcome_ok {a : α} (h : P a) : Outcome (.ok a : Except ε α) P Q := h

theorem Outcome.imp (h : Outcome x P Q) (hP : ∀ a, P a → P' a) (hQ : ∀ e, Q e → Q' e) :
    Outcome x P' Q' := by
  cases x with
  | error e => exact hQ e h
  | ok a => exact hP a h

theorem Outcome.bind {f : α → Except ε β} {R : β → Prop} (hx : Outcome x P Q)
    (hf : ∀ a, P a → Outcome (f a) R Q) : Outcome (x >>= f) R Q := by
  cases x with
  | error e => exact hx
  | ok a => exact hf a hx

theorem outcome_mapM {f : β → Except ε α} {ys : List β} (h : ∀ y ∈ ys, Outcome (f y) P Q) :
    Outcome (ys.mapM f) (fun as => ∀ a ∈ as, P a) Q := by
  induction ys with
  | nil => exact List.forall_mem_nil P
  | cons y rest ih =>
    rw [List.forall_mem_cons] at h
    rw [List.mapM_cons]
    refine h.1.bind fun a ha => (ih h.2).bind fun as has => ?_
    exact List.forall_mem_cons.mpr ⟨ha, has⟩

end

end FlagFold
