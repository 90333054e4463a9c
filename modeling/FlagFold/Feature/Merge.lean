/-
  FlagFold.Feature.Merge

  The largest table on whose values several tables agree.
-/

import FlagFold.Table

namespace FlagFold.Table

variable {α : Type}

/-- What has been merged so far, and the keys on which tables disagree. -/
structure Merge (α : Type) where
  merged : Table α := []
  conflicted : List Text := []

/-- Takes in one key. A key with two values is left out for good. -/
def Merge.add [BEq α] (m : Merge α) (key : Text) (value : α) : Merge α :=
  if m.conflicted.contains key then m
  else match m.merged.find? key with
    | none => { m with merged := m.merged.set key value }
    | some old =>
      if old == value then m
      else { merged := m.merged.erase key, conflicted := key :: m.conflicted }

/-- Takes in a table. -/
def Merge.addTable [BEq α] (m : Merge α) (table : Table α) : Merge α :=
  table.foldl (fun m (key, value) => m.add key value) m

/-- The keys of several tables, as far as the tables agree on their values. -/
def merge [BEq α] (tables : List (Table α)) : Table α :=
  (tables.foldl Merge.addTable {}).merged

end FlagFold.Table
