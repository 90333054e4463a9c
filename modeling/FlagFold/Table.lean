/-
  FlagFold.Table

  Tables from texts to values that remember the order in which their keys were
  first set.
-/

import FlagFold.Text.Basic

namespace FlagFold

/-- Keys with their values, in order of first setting; a key occurs once. -/
abbrev Table (α : Type) := List (Text × α)

namespace Table

variable {α : Type}

/-- The value of a key. -/
def find? (table : Table α) (key : Text) : Option α :=
  match table with
  | [] => none
  | (k, v) :: rest => if k = key then some v else find? rest key

/-- Does the table hold the key? -/
def hasKey (table : Table α) (key : Text) : Bool := (table.find? key).isSome

/-- Sets the value of a key, which keeps its place or else comes last. -/
def set (table : Table α) (key : Text) (value : α) : Table α :=
  match table with
  | [] => [(key, value)]
  | (k, v) :: rest => if k = key then (k, value) :: rest else (k, v) :: set rest key value

/-- Takes a key out. -/
def erase (table : Table α) (key : Text) : Table α := table.filter (·.1 ≠ key)

/-- The keys in order. -/
def keys (table : Table α) : List Text := table.map (·.1)

/-- Sets every key of `other`, in its order. -/
def update (table other : Table α) : Table α :=
  other.foldl (fun acc (key, value) => acc.set key value) table

/-! ## What the operations do to look-ups -/

theorem find?_set (table : Table α) (key other : Text) (value : α) :
    (table.set key value).find? other = if key = other then some value else table.find? other := by
  induction table with
  | nil => simp [set, find?]
  | cons entry rest ih =>
    obtain ⟨k, v⟩ := entry
    by_cases hk : k = key
    · subst hk
      by_cases ho : k = other <;> simp [set, find?, ho]
    · by_cases ho : k = other
      · subst ho
        simp [set, find?, hk, Ne.symm hk]
      · simp [set, find?, hk, ho, ih]

theorem find?_erase (table : Table α) (key other : Text) :
    (table.erase key).find? other = if key = other then none else table.find? other := by
  induction table with
  | nil => simp [erase, find?]
  | cons entry rest ih =>
    obtain ⟨k, v⟩ := entry
    unfold erase at ih ⊢
    by_cases hk : k = key
    · subst hk
      by_cases ho : k = other <;> simp_all [find?]
    · by_cases ho : k = other
      · subst ho
        simp_all [find?, eq_comm]
      · simp_all [find?]

end Table
end FlagFold
