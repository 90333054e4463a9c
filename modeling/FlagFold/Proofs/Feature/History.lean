/-
  FlagFold.Proofs.Feature.History

  Feature sets over the life of a process.  Files change, sets are loaded, and callers
  alter the maps they were given.  A process here has its maps in cells, so that a
  change to a map reaches all that refer to the same cell.  No cell of a set that is
  kept is one that a caller has (`Sound`), and so a set stays as it was first loaded,
  whatever happens later.
-/

import FlagFold.Proofs.Feature.Lookup

namespace FlagFold.FeatureStore

/-- A process with its maps in `cells`. What is `kept` and what callers have been `given` refers to
cells. -/
structure Process where
  files : Files := {}
  out : Text := []
  err : Text := []
  cells : List FeatureMap := []
  kept : List (FeatureSetKey × Nat) := []
  given : List Nat := []

/-- What can happen in a process: the files become others, a set is loaded, and one of the maps
given so far, told by its number, is altered by whoever has it. -/
inductive Event where
  | change (files : Files)
  | load (name : Text) (base : Option Text)
  | alter (nth : Nat) (m : FeatureMap)

namespace Process

/-- The map in the cell `cell` of `p`. -/
def content (p : Process) (cell : Nat) : FeatureMap := p.cells[cell]?.getD []

/-- The world that a load in `p` sees. -/
def world (p : Process) : World where
  files := p.files
  loaded := p.kept.map fun (key, cell) => (key, p.content cell)
  out := p.out
  err := p.err

/-- Keeps the set of `entry`, in a cell of its own. -/
def keep (entry : FeatureSetKey × FeatureMap) (p : Process) : Process :=
  { p with cells := p.cells ++ [entry.2], kept := (entry.1, p.cells.length) :: p.kept }

/-- Gives a copy of `m` to a caller, in a cell of its own. -/
def give (p : Process) (m : FeatureMap) : Process :=
  { p with cells := p.cells ++ [m], given := p.given ++ [p.cells.length] }

/-- Loads a set: what `FeatureStore.load` has remembered is kept, and the caller has a copy, told by
its cell. -/
def load (settings : Settings) (p : Process) (name : Text) (base : Option Text) :
    Except Failure (Option Nat) × Process :=
  let (answer, left) := (FeatureStore.load name base).run settings p.world
  let remembered := left.loaded.take (left.loaded.length - p.kept.length)
  let p := remembered.foldr keep { p with files := left.files, out := left.out, err := left.err }
  match answer with
  | .error failure => (.error failure, p)
  | .ok none => (.ok none, p)
  | .ok (some m) => (.ok (some p.cells.length), p.give m)

/-- A caller puts `m` in the cell of the `nth` map that was given. -/
def alter (p : Process) (nth : Nat) (m : FeatureMap) : Process :=
  match p.given[nth]? with
  | some cell => { p with cells := p.cells.set cell m }
  | none => p

def step (settings : Settings) (p : Process) : Event → Process
  | .change files => { p with files }
  | .load name base => (p.load settings name base).2
  | .alter nth m => p.alter nth m

/-- The process `p` after `history`. -/
def after (settings : Settings) (p : Process) (history : List Event) : Process :=
  history.foldl (step settings) p

/-- The answer to a load: the map that the caller finds in the cell it was given. -/
def answer (settings : Settings) (p : Process) (name : Text) (base : Option Text) :
    Except Failure (Option FeatureMap) :=
  let (cell, left) := p.load settings name base
  cell.map (Option.map left.content)

variable {settings : Settings} {p : Process}

/-- The process that keeps what a load has remembered, and has written `out` and `err`. -/
def remembering (settings : Settings) (p : Process) (name : Text) (base : Option Text)
    (out err : Text) : Process :=
  let key := ⟨baseFor settings base, name⟩
  ((gained? settings.host p.world key.base name).map (key, ·)).toList.foldr keep { p with out, err }

/-- `load` fails if `lookUp` does, and else gives what that finds, in a process `remembering` the
set. -/
theorem exists_load (settings : Settings) (p : Process) (name : Text) (base : Option Text) :
    ∃ out err, p.load settings name base =
      match lookUp settings.host p.world (baseFor settings base) name with
      | .error failure => (.error failure, p.remembering settings name base out err)
      | .ok none => (.ok none, p.remembering settings name base out err)
      | .ok (some m) => (.ok (some (p.remembering settings name base out err).cells.length),
          (p.remembering settings name base out err).give m) := by
  obtain ⟨left, hrun, hleft, hloaded⟩ := run_load_gained settings p.world base name
  have hnew : left.loaded.take (left.loaded.length - p.kept.length) =
      ((gained? settings.host p.world (baseFor settings base) name).map
        (⟨baseFor settings base, name⟩, ·)).toList := by
    have hlength : p.world.loaded.length = p.kept.length := List.length_map ..
    rw [hloaded, List.length_append, hlength, Nat.add_sub_cancel, List.take_left']
    rfl
  refine ⟨left.out, left.err, ?_⟩
  simp only [load, hrun, hnew, hleft.files]
  obtain _ | _ | _ := lookUp settings.host p.world (baseFor settings base) name <;> rfl

/-- What is `kept` and what callers are `given` are cells of the process, and no cell is both. -/
structure Sound (p : Process) : Prop where
  kept : ∀ entry ∈ p.kept, entry.2 < p.cells.length
  given : ∀ cell ∈ p.given, cell < p.cells.length
  apart : ∀ entry ∈ p.kept, entry.2 ∉ p.given

theorem Sound.keep (h : p.Sound) (entry : FeatureSetKey × FeatureMap) : (p.keep entry).Sound where
  kept := by
    intro other hother
    show other.2 < (p.cells ++ [entry.2]).length
    rw [List.length_append]
    obtain rfl | hold := List.mem_cons.mp hother
    · exact Nat.lt_succ_self _
    · exact Nat.lt_succ_of_lt (h.kept other hold)
  given := by
    intro cell hcell
    show cell < (p.cells ++ [entry.2]).length
    rw [List.length_append]
    exact Nat.lt_succ_of_lt (h.given cell hcell)
  apart := by
    intro other hother
    obtain rfl | hold := List.mem_cons.mp hother
    · -- The new cell lies behind all that callers have.
      exact fun hgiven => Nat.lt_irrefl _ (h.given _ hgiven)
    · exact h.apart other hold

theorem Sound.give (h : p.Sound) (m : FeatureMap) : (p.give m).Sound where
  kept := by
    intro entry hentry
    show entry.2 < (p.cells ++ [m]).length
    rw [List.length_append]
    exact Nat.lt_succ_of_lt (h.kept entry hentry)
  given := by
    intro cell hcell
    show cell < (p.cells ++ [m]).length
    rw [List.length_append]
    obtain hold | hnew := List.mem_append.mp hcell
    · exact Nat.lt_succ_of_lt (h.given cell hold)
    · exact List.mem_singleton.mp hnew ▸ Nat.lt_succ_self _
  apart := by
    intro entry hentry hgiven
    obtain hold | hnew := List.mem_append.mp hgiven
    · exact h.apart entry hentry hold
    · have hlt := h.kept entry hentry
      rw [List.mem_singleton.mp hnew] at hlt
      exact Nat.lt_irrefl _ hlt

theorem Sound.remembering (h : p.Sound) (settings : Settings) (name : Text) (base : Option Text)
    (out err : Text) : (p.remembering settings name base out err).Sound := by
  have hstart : ({ p with out, err } : Process).Sound := ⟨h.kept, h.given, h.apart⟩
  unfold Process.remembering
  dsimp only
  cases gained? settings.host p.world (baseFor settings base) name with
  | none => exact hstart
  | some m => exact hstart.keep _

theorem Sound.step (h : p.Sound) (event : Event) : (p.step settings event).Sound := by
  cases event with
  | change files => exact ⟨h.kept, h.given, h.apart⟩
  | load name base =>
    obtain ⟨out, err, hload⟩ := exists_load settings p name base
    have hleft := h.remembering settings name base out err
    rw [Process.step, hload]
    obtain failure | _ | m := lookUp settings.host p.world (baseFor settings base) name
    · exact hleft
    · exact hleft
    · exact hleft.give m
  | alter nth m =>
    show (p.alter nth m).Sound
    unfold alter
    split
    case h_1 cell _ =>
      refine ⟨fun entry hentry => ?_, fun other hother => ?_, h.apart⟩
      · exact (List.length_set ..).symm ▸ h.kept entry hentry
      · exact (List.length_set ..).symm ▸ h.given other hother
    case h_2 => exact h

theorem Sound.after (h : p.Sound) (settings : Settings) (history : List Event) :
    (p.after settings history).Sound := by
  induction history generalizing p with
  | nil => exact h
  | cons event rest ih => exact ih (h.step event)

/-! ## The sets that a process knows -/

/-- `p` and `q` have the same files, cells and references to them; what has been written may
differ. -/
def SameMaps (p q : Process) : Prop := ∃ out err, q = { p with out, err }

theorem SameMaps.give {q : Process} (h : SameMaps p q) (m : FeatureMap) :
    SameMaps (p.give m) (q.give m) := by
  obtain ⟨out, err, rfl⟩ := h
  exact ⟨out, err, rfl⟩

theorem sameMaps_remembering (name : Text) (base : Option Text) (out err out' err' : Text) :
    SameMaps (p.remembering settings name base out err)
      (p.remembering settings name base out' err') := by
  refine ⟨out', err', ?_⟩
  unfold remembering
  dsimp only
  cases gained? settings.host p.world (baseFor settings base) name <;> rfl

theorem SameMaps.step {q : Process} (h : SameMaps p q) (event : Event) :
    SameMaps (p.step settings event) (q.step settings event) := by
  obtain ⟨out, err, rfl⟩ := h
  cases event with
  | change files => exact ⟨out, err, rfl⟩
  | alter nth m =>
    refine ⟨out, err, ?_⟩
    show Process.alter _ nth m = { p.alter nth m with out, err }
    unfold alter
    dsimp only
    split <;> rfl
  | load name base =>
    obtain ⟨out₁, err₁, hload⟩ := exists_load settings p name base
    obtain ⟨out₂, err₂, hload'⟩ := exists_load settings { p with out, err } name base
    -- What a name stands for is told by the files and the sets that are kept.
    have hleft : SameMaps (p.remembering settings name base out₁ err₁)
        (({ p with out, err } : Process).remembering settings name base out₂ err₂) :=
      sameMaps_remembering name base out₁ err₁ out₂ err₂
    have hlookUp : lookUp settings.host ({ p with out, err } : Process).world
        (baseFor settings base) name = lookUp settings.host p.world (baseFor settings base) name :=
      rfl
    rw [hlookUp] at hload'
    show SameMaps (p.load settings name base).2
      (({ p with out, err } : Process).load settings name base).2
    rw [hload, hload']
    obtain failure | _ | m := lookUp settings.host p.world (baseFor settings base) name
    · exact hleft
    · exact hleft
    · exact hleft.give m

theorem SameMaps.after {q : Process} (h : SameMaps p q) (settings : Settings)
    (history : List Event) :
    SameMaps (p.after settings history) (q.after settings history) := by
  induction history generalizing p q with
  | nil => exact h
  | cons event rest ih => exact ih (h.step event)

end Process
end FlagFold.FeatureStore
