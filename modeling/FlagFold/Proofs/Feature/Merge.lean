/-
  FlagFold.Proofs.Feature.Merge

  What the merge of several tables holds, said without the order in which the tables
  come: the keys on whose values all tables agree that have them.

  The merge takes in entry by entry, keeps what it holds so far, and remembers the keys
  on which it has seen two values. `Merge.Knows` says what both have to do with the
  entries taken in up to then; one entry keeps it (`Knows.add`), and so do all.
-/

import FlagFold.Feature.Merge
import FlagFold.Fold.Pragma
import Mathlib.Data.List.Nodup

namespace FlagFold.Table

variable {α : Type}

/-! ## Keys -/

/-- If `table` has each key once, `find?` finds just its entries. -/
theorem find?_eq_some_iff {table : Table α} (h : table.keys.Nodup) {key : Text} {value : α} :
    table.find? key = some value ↔ (key, value) ∈ table := by
  induction table with
  | nil => simp [find?]
  | cons entry rest ih =>
    obtain ⟨k, v⟩ := entry
    simp only [keys, List.map_cons, List.nodup_cons] at h
    by_cases hk : k = key
    · subst hk
      have hrest : (k, value) ∉ rest := fun hmem => h.1 (List.mem_map_of_mem (f := (·.1)) hmem)
      simp [find?, hrest, eq_comm]
    · simp [find?, hk, Ne.symm hk, ih h.2]

theorem mem_keys_set {table : Table α} {key other : Text} {value : α} :
    other ∈ (Table.set table key value).keys ↔ other = key ∨ other ∈ table.keys := by
  induction table with
  | nil => simp [set, keys]
  | cons entry rest ih =>
    obtain ⟨k, v⟩ := entry
    by_cases hk : k = key
    · subst hk
      simp [set, keys]
    · rw [set, if_neg hk]
      simp only [keys, List.map_cons, List.mem_cons] at ih ⊢
      rw [ih]
      exact or_left_comm

theorem nodup_keys_set {table : Table α} (h : table.keys.Nodup) (key : Text) (value : α) :
    (Table.set table key value).keys.Nodup := by
  induction table with
  | nil => simp [set, keys]
  | cons entry rest ih =>
    obtain ⟨k, v⟩ := entry
    obtain ⟨hnot, hrest⟩ := List.nodup_cons.mp h
    by_cases hk : k = key
    · rw [set, if_pos hk]
      exact h
    · rw [set, if_neg hk]
      refine List.nodup_cons.mpr ⟨fun hmem => ?_, ih hrest⟩
      exact (mem_keys_set.mp hmem).elim hk hnot

theorem nodup_keys_erase {table : Table α} (h : table.keys.Nodup) (key : Text) :
    (table.erase key).keys.Nodup :=
  h.sublist (List.filter_sublist.map _)

/-! ## What has been taken in -/

/-- Some entry has `key` with `value`, and none has it with another value. -/
def Agree (entries : List (Text × α)) (key : Text) (value : α) : Prop :=
  (key, value) ∈ entries ∧ ∀ other, (key, other) ∈ entries → other = value

/-- `key` stands in `entries` with two values. -/
def Conflict (entries : List (Text × α)) (key : Text) : Prop :=
  ∃ v w, (key, v) ∈ entries ∧ (key, w) ∈ entries ∧ v ≠ w

section

variable {entries : List (Text × α)} {key other : Text} {value w : α}

theorem Agree.not_conflict (h : Agree entries key value) : ¬ Conflict entries key := by
  rintro ⟨v, w, hv, hw, hne⟩
  exact hne ((h.2 v hv).trans (h.2 w hw).symm)

theorem Conflict.mono {more : List (Text × α)} (h : Conflict entries key)
    (hsubset : entries ⊆ more) : Conflict more key := by
  obtain ⟨v, w, hv, hw, hne⟩ := h
  exact ⟨v, w, hsubset hv, hsubset hw, hne⟩

/-- A key with an entry has a value on which all `Agree`, or is in `Conflict`. -/
theorem agree_of_not_conflict (hmem : (key, value) ∈ entries) (h : ¬ Conflict entries key) :
    Agree entries key value := by
  refine ⟨hmem, fun other hother => ?_⟩
  by_contra hne
  exact h ⟨other, value, hother, hmem, hne⟩

theorem agree_concat_of_ne (h : other ≠ key) :
    Agree (entries ++ [(key, value)]) other w ↔ Agree entries other w := by
  simp [Agree, h]

theorem agree_concat_self :
    Agree (entries ++ [(key, value)]) key w ↔
      w = value ∧ ∀ old, (key, old) ∈ entries → old = value := by
  simp only [Agree, List.mem_append, List.mem_singleton, Prod.mk.injEq, true_and]
  constructor
  · rintro ⟨-, hall⟩
    obtain rfl : value = w := hall value (.inr rfl)
    exact ⟨rfl, fun old hold => hall old (.inl hold)⟩
  · rintro ⟨rfl, hall⟩
    exact ⟨.inr rfl, fun old hold => hold.elim (hall old) id⟩

theorem conflict_concat_of_ne (h : other ≠ key) :
    Conflict (entries ++ [(key, value)]) other ↔ Conflict entries other := by
  simp [Conflict, h]

theorem conflict_concat_self :
    Conflict (entries ++ [(key, value)]) key ↔
      Conflict entries key ∨ ∃ old, (key, old) ∈ entries ∧ old ≠ value := by
  simp only [Conflict, List.mem_append, List.mem_singleton, Prod.mk.injEq, true_and]
  constructor
  · rintro ⟨v, w, hv | rfl, hw | rfl, hne⟩
    · exact .inl ⟨v, w, hv, hw, hne⟩
    · exact .inr ⟨v, hv, hne⟩
    · exact .inr ⟨w, hw, hne.symm⟩
    · exact absurd rfl hne
  · rintro (⟨v, w, hv, hw, hne⟩ | ⟨old, hold, hne⟩)
    · exact ⟨v, w, .inl hv, .inl hw, hne⟩
    · exact ⟨old, value, .inl hold, .inr rfl, hne⟩

end

namespace Merge

/-- `m` is what comes of merging `entries`: it has merged the keys on which they `Agree`, and keeps
out those in `Conflict`. -/
structure Knows (m : Merge α) (entries : List (Text × α)) : Prop where
  nodup : m.merged.keys.Nodup
  merged : ∀ key value, m.merged.find? key = some value ↔ Agree entries key value
  conflicted : ∀ key, key ∈ m.conflicted ↔ Conflict entries key

theorem knows_nil : Knows ({} : Merge α) [] where
  nodup := List.nodup_nil
  merged key value := by simp [find?, Agree]
  conflicted key := by simp [Conflict]

section

variable {m : Merge α} {entries : List (Text × α)} {key : Text} {value : α}

/-- A conflicted key is not merged. -/
theorem Knows.find?_of_conflicted (h : m.Knows entries) (hkey : key ∈ m.conflicted) :
    m.merged.find? key = none := by
  rw [Option.eq_none_iff_forall_ne_some]
  intro value hvalue
  exact ((h.merged key value).mp hvalue).not_conflict ((h.conflicted key).mp hkey)

/-- A key that is neither merged nor conflicted is in none of `entries`. -/
theorem Knows.not_mem (h : m.Knows entries) (hkey : key ∉ m.conflicted)
    (hfind : m.merged.find? key = none) (value : α) : (key, value) ∉ entries := by
  intro hmem
  rw [h.conflicted] at hkey
  have hfound := (h.merged key value).mpr (agree_of_not_conflict hmem hkey)
  rw [hfind] at hfound
  cases hfound

/-- If `m'` differs from `m` at `key` only, and is right about that after the entry `(key, value)`,
it knows one entry more. -/
theorem Knows.concat {m' : Merge α} (h : m.Knows entries) (hnodup : m'.merged.keys.Nodup)
    (hfind : ∀ other ≠ key, m'.merged.find? other = m.merged.find? other)
    (hout : ∀ other ≠ key, other ∈ m'.conflicted ↔ other ∈ m.conflicted)
    (hmerged : ∀ w, m'.merged.find? key = some w ↔ Agree (entries ++ [(key, value)]) key w)
    (hconflicted : key ∈ m'.conflicted ↔ Conflict (entries ++ [(key, value)]) key) :
    m'.Knows (entries ++ [(key, value)]) where
  nodup := hnodup
  merged other w := by
    by_cases hother : other = key
    · exact hother ▸ hmerged w
    · rw [hfind other hother, h.merged, agree_concat_of_ne hother]
  conflicted other := by
    by_cases hother : other = key
    · exact hother ▸ hconflicted
    · rw [hout other hother, h.conflicted, conflict_concat_of_ne hother]

end

variable [BEq α] [LawfulBEq α]

/-- `Merge.add` takes in an entry: its key was kept out before, is new, has the value that is
merged, or has two values from now on. -/
theorem Knows.add {m : Merge α} {entries : List (Text × α)} (h : m.Knows entries) (key : Text)
    (value : α) : (m.add key value).Knows (entries ++ [(key, value)]) := by
  unfold Merge.add
  split
  case isTrue hkey =>
    rw [List.contains_iff_mem] at hkey
    have hconflict : Conflict (entries ++ [(key, value)]) key :=
      ((h.conflicted key).mp hkey).mono (List.subset_append_left _ _)
    refine h.concat h.nodup (fun _ _ => rfl) (fun _ _ => Iff.rfl) (fun w => ?_)
      (iff_of_true hkey hconflict)
    rw [h.find?_of_conflicted hkey]
    exact iff_of_false nofun fun hagree => hagree.not_conflict hconflict
  case isFalse hkey =>
    rw [List.contains_iff_mem] at hkey
    have hno : ¬ Conflict entries key := (h.conflicted key).not.mp hkey
    split
    case h_1 hfind =>
      have hnew := h.not_mem hkey hfind
      refine h.concat (nodup_keys_set h.nodup key value) (fun other hother => ?_)
        (fun _ _ => Iff.rfl) (fun w => ?_) ?_
      · rw [find?_set, if_neg hother.symm]
      · rw [find?_set, if_pos rfl, agree_concat_self]
        simp [hnew, eq_comm]
      · rw [conflict_concat_self]
        simp [hkey, hno, hnew]
    case h_2 old hfind =>
      have hagree := (h.merged key old).mp hfind
      split
      case isTrue hsame =>
        obtain rfl : old = value := eq_of_beq hsame
        refine h.concat h.nodup (fun _ _ => rfl) (fun _ _ => Iff.rfl) (fun w => ?_) ?_
        · rw [hfind, agree_concat_self, Option.some.injEq]
          exact ⟨fun hw => ⟨hw.symm, hagree.2⟩, fun hw => hw.1.symm⟩
        · rw [conflict_concat_self]
          simpa [hkey, hno] using hagree.2
      case isFalse hdiffers =>
        have hne : old ≠ value := fun heq => hdiffers (beq_iff_eq.mpr heq)
        have hconflict : Conflict (entries ++ [(key, value)]) key :=
          conflict_concat_self.mpr (.inr ⟨old, hagree.1, hne⟩)
        refine h.concat (nodup_keys_erase h.nodup key) (fun other hother => ?_)
          (fun other hother => ?_) (fun w => ?_) (iff_of_true List.mem_cons_self hconflict)
        · rw [find?_erase, if_neg hother.symm]
        · simp [hother]
        · rw [find?_erase, if_pos rfl]
          exact iff_of_false nofun fun hagree => hagree.not_conflict hconflict

/-- `Merge.addTable` takes in the entries of `table`. -/
theorem Knows.addTable {m : Merge α} {entries : List (Text × α)} (h : m.Knows entries)
    (table : Table α) : (m.addTable table).Knows (entries ++ table) := by
  induction table generalizing m entries with
  | nil =>
    rw [List.append_nil]
    exact h
  | cons entry rest ih =>
    have hrest := ih (h.add entry.1 entry.2)
    rwa [List.append_assoc] at hrest

/-- Folding `addTable` over `tables` takes in all their entries. -/
theorem knows_foldl {m : Merge α} {entries : List (Text × α)} (h : m.Knows entries)
    (tables : List (Table α)) :
    (tables.foldl Merge.addTable m).Knows (entries ++ tables.flatten) := by
  induction tables generalizing m entries with
  | nil =>
    rw [List.flatten_nil, List.append_nil]
    exact h
  | cons table rest ih =>
    have hrest := ih (h.addTable table)
    rwa [List.append_assoc] at hrest

end Merge

/-! ## The merge -/

section

variable [BEq α] [LawfulBEq α]

theorem nodup_keys_merge (tables : List (Table α)) : (merge tables).keys.Nodup :=
  (Merge.knows_foldl Merge.knows_nil tables).nodup

/-- `merge` has the values on which all entries of all `tables` agree. -/
theorem find?_merge (tables : List (Table α)) (key : Text) (value : α) :
    (merge tables).find? key = some value ↔ Agree tables.flatten key value :=
  (Merge.knows_foldl Merge.knows_nil tables).merged key value

end

/-- Tables that have each key once `Agree` on a key if one of them has it, and all that have it have
it with one value. -/
theorem agree_flatten_iff {tables : List (Table α)} (h : ∀ t ∈ tables, (keys t).Nodup) {key : Text}
    {value : α} : Agree tables.flatten key value ↔
      (∃ t ∈ tables, hasKey t key) ∧ ∀ t ∈ tables, hasKey t key → find? t key = some value := by
  have hmem : ∀ w, (key, w) ∈ tables.flatten ↔ ∃ t ∈ tables, find? t key = some w := by
    intro w
    rw [List.mem_flatten]
    exact exists_congr fun t => and_congr_right fun ht => (find?_eq_some_iff (h t ht)).symm
  simp only [Agree, hmem, hasKey, Option.isSome_iff_exists]
  constructor
  · rintro ⟨⟨t, ht, hfind⟩, hall⟩
    refine ⟨⟨t, ht, value, hfind⟩, fun u hu ⟨w, hw⟩ => ?_⟩
    exact hall w ⟨u, hu, hw⟩ ▸ hw
  · rintro ⟨⟨t, ht, hkey⟩, hall⟩
    refine ⟨⟨t, ht, hall t ht hkey⟩, fun w ⟨u, hu, hw⟩ => ?_⟩
    exact Option.some.inj (hw.symm.trans (hall u hu ⟨w, hw⟩))

/-- `merge maps` has each flag once. It has a flag with a value just where one of `maps` has the
flag and all that have it give it that value. So it makes no difference in what order the maps come
and how often each does; and a flag that two of the maps disagree on is not in the merge, whatever
maps come behind them. -/
theorem find?_merge_iff {maps : List FeatureMap} (h : ∀ m ∈ maps, (keys m).Nodup) :
    (merge maps).keys.Nodup ∧
    (∀ flag value, (merge maps).find? flag = some value ↔
      (∃ m ∈ maps, hasKey m flag) ∧ ∀ m ∈ maps, hasKey m flag → find? m flag = some value) ∧
    (∀ others : List FeatureMap, (∀ m, m ∈ others ↔ m ∈ maps) →
      ∀ flag, (merge others).find? flag = (merge maps).find? flag) ∧
    (∀ earlier later, maps = earlier ++ later → ∀ flag,
      (∃ m ∈ earlier, ∃ n ∈ earlier, hasKey m flag ∧ hasKey n flag ∧
        find? m flag ≠ find? n flag) →
      (merge maps).find? flag = none) := by
  have hfind : ∀ flag value, (merge maps).find? flag = some value ↔
      (∃ m ∈ maps, hasKey m flag) ∧ ∀ m ∈ maps, hasKey m flag → find? m flag = some value :=
    fun flag value => (find?_merge maps flag value).trans (agree_flatten_iff h)
  refine ⟨nodup_keys_merge maps, hfind, fun others hothers flag => ?_, ?_⟩
  · have hothersNodup : ∀ m ∈ others, (keys m).Nodup := fun m hm => h m ((hothers m).mp hm)
    apply Option.ext
    intro value
    rw [hfind, find?_merge, agree_flatten_iff hothersNodup]
    simp only [hothers]
  · rintro earlier later rfl flag ⟨m, hm, n, hn, hmkey, hnkey, hne⟩
    rw [Option.eq_none_iff_forall_ne_some]
    intro value hvalue
    have hall := ((hfind flag value).mp hvalue).2
    have hmvalue := hall m (List.mem_append_left _ hm) hmkey
    have hnvalue := hall n (List.mem_append_left _ hn) hnkey
    exact hne (hmvalue.trans hnvalue.symm)

/-- Of four maps the second disagrees with the first on one flag; that the others are of one mind
about it comes too late. -/
theorem find?_merge_iff_conflictThenAgreement :
    let maps : List FeatureMap := [[(text "a", true), (text "b", true)], [(text "a", false)],
      [(text "a", true), (text "c", false)], [(text "c", false), (text "a", true)]]
    (∀ m ∈ maps, (keys m).Nodup) ∧
      merge maps = [(text "b", true), (text "c", false)] ∧
      (merge maps).find? (text "a") = none ∧
      (merge maps.reverse).find? (text "c") = some false := by
  intro maps
  have hnodup : ∀ m ∈ maps, (keys m).Nodup := by decide
  obtain ⟨-, hfind, horder, hconflict⟩ := find?_merge_iff hnodup
  have hmerge : merge maps = [(text "b", true), (text "c", false)] := by decide
  refine ⟨hnodup, hmerge, ?_, ?_⟩
  · exact hconflict (maps.take 2) (maps.drop 2) rfl (text "a") (by decide)
  · rw [horder maps.reverse (fun m => List.mem_reverse), hfind]
    decide

end FlagFold.Table
