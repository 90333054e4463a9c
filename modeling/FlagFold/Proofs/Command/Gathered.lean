/-
  FlagFold.Proofs.Command.Gathered

  The files that are gathered in a directory, and where their output goes: a file at
  the steps `r` below the input directory has its output at the same steps below the
  output directory.  Where no links lead elsewhere, two files never share their output,
  and the map of one is no source.
-/

import FlagFold.Proofs.Command.Reading
import FlagFold.Proofs.World.Paths

namespace FlagFold

open PathText

/-! ## Endings -/

namespace Sources

/-- What ends with `.map` is no source. -/
theorem isSource_map (name : Text) : isSource (name ++ text ".map") = false := by
  have hlast : ∀ e ∈ endings, ∃ c, e.getLast? = some c ∧ c ≠ CodePoint.ofChar 'p' := by decide
  have hendings : endings.any (·.isSuffixOf (name ++ text ".map")) = false := by
    rw [List.any_eq_false]
    intro e he hsuffix
    obtain ⟨c, hc, hne⟩ := hlast e he
    obtain ⟨front, hfront⟩ := List.isSuffixOf_iff_suffix.mp hsuffix
    have hend : (name ++ text ".map").getLast? = some (CodePoint.ofChar 'p') := by
      rw [List.getLast?_append]
      rfl
    rw [← hfront, List.getLast?_append, hc, Option.some_or, Option.some.injEq] at hend
    exact hne hend
  rw [isSource, hendings, Bool.and_false]

end Sources

/-- The steps `r` are names, and the last one is that of a source file. -/
structure IsSourcePath (r : List Text) : Prop where
  names : ∀ s ∈ r, IsName s
  source : Sources.isSource (r.getLastD [])

namespace IsSourcePath

variable {r r' : List Text}

theorem ne_nil (h : IsSourcePath r) : r ≠ [] := by
  rintro rfl
  exact absurd h.source (by decide)

theorem names_map (h : IsSourcePath r) : ∀ s ∈ mapSteps r, IsName s :=
  isName_of_mem_mapSteps h.ne_nil h.names

/-- No source is where the map of a file is. -/
theorem append_ne_append_map (h : IsSourcePath r) (here there : List Text) :
    here ++ r ≠ there ++ mapSteps r' := by
  obtain ⟨front, name, rfl⟩ : ∃ front name, r = front ++ [name] :=
    ⟨_, _, (List.dropLast_concat_getLast h.ne_nil).symm⟩
  have hsource := h.source
  rw [List.getLastD_concat] at hsource
  intro hsame
  rw [mapSteps, ← List.append_assoc, ← List.append_assoc] at hsame
  have hname := List.singleton_inj.mp (List.append_inj' hsame rfl).2
  rw [hname, Sources.isSource_map] at hsource
  cases hsource

/-- The maps at `mapSteps r` and `mapSteps r'` are at one place only if the files are. -/
theorem append_eq_append_of_map (h : IsSourcePath r) (h' : IsSourcePath r') {here there : List Text}
    (hsame : here ++ mapSteps r = there ++ mapSteps r') : here ++ r = there ++ r' := by
  obtain ⟨front, name, rfl⟩ : ∃ front name, r = front ++ [name] :=
    ⟨_, _, (List.dropLast_concat_getLast h.ne_nil).symm⟩
  obtain ⟨front', name', rfl⟩ : ∃ front name, r' = front ++ [name] :=
    ⟨_, _, (List.dropLast_concat_getLast h'.ne_nil).symm⟩
  rw [mapSteps_concat, mapSteps_concat, ← List.append_assoc, ← List.append_assoc] at hsame
  obtain ⟨hfront, hname⟩ := List.append_inj' hsame rfl
  rw [List.singleton_inj, List.append_left_inj] at hname
  rw [← List.append_assoc, ← List.append_assoc, hfront, hname]

end IsSourcePath

/-- `place` is that of the file at the steps `r` from `here`, or of the map beside it. -/
def IsSpot (here r place : List Text) : Prop := place = here ++ r ∨ place = here ++ mapSteps r

/-- Two source files that share a spot are one. -/
theorem IsSpot.append_eq {here there r r' place : List Text} (hr : IsSourcePath r)
    (hr' : IsSourcePath r') (h : IsSpot here r place) (h' : IsSpot there r' place) :
    here ++ r = there ++ r' := by
  rcases h with rfl | rfl
  · exact h'.resolve_right (hr.append_ne_append_map here there)
  · rcases h' with hfile | hmap
    · exact absurd hfile.symm (hr'.append_ne_append_map there here)
    · exact hr.append_eq_append_of_map hr' hmap

/-- Where the directory at `base` is `Unlinked`, the places of a source file in it, and of the map
beside that, are its spots. -/
theorem Files.IsPlaceOf.isSpot {files : Files} {withMap : Bool} {base : Text} {r place : List Text}
    (hunlinked : files.Unlinked (files.resolve base)) (hr : IsSourcePath r)
    (h : files.IsPlaceOf withMap (PathText.below base (ofSteps false r)) place) :
    IsSpot (files.resolve base) r place := by
  rcases h with rfl | ⟨-, rfl⟩
  · left
    rw [Files.resolve_below files base hr.names, Files.foldl_next_of_unlinked hunlinked hr.names]
  · right
    rw [below_append_map base hr.ne_nil hr.names, Files.resolve_below files base hr.names_map,
      Files.foldl_next_of_unlinked hunlinked hr.names_map]

/-! ## The input directory -/

/-- `files` as a disk has them: no place is that of two files or links, and the steps below
`directory` are names. -/
structure Files.Proper (files : Files) (directory : List Text) : Prop where
  once : files.places.Nodup
  names : ∀ place ∈ files.places, directory <+: place → ∀ s ∈ place.drop directory.length, IsName s

instance (files : Files) (directory : List Text) : Decidable (files.Proper directory) :=
  decidable_of_iff (files.places.Nodup ∧ ∀ place ∈ files.places, directory <+: place →
      ∀ s ∈ place.drop directory.length, IsName s)
    ⟨fun ⟨once, names⟩ => ⟨once, names⟩, fun h => ⟨h.once, h.names⟩⟩

/-- The path `input` leads to the directory at `d`. -/
structure Files.IsInput (files : Files) (input : Text) (d : List Text) : Prop where
  place : files.locate (normalize input) = some d
  free : files.bytesAt? d = none
  directory : files.hasDirectory d

theorem Files.IsInput.resolve_eq {files : Files} {input : Text} {d : List Text}
    (h : files.IsInput input d) : files.resolve (normalize input) = d :=
  Files.resolve_of_locate h.place

/-- `input` still leads to `d` when files are put somewhere. -/
theorem Files.IsInput.filled {P : List Text → Prop} {files files' : Files} {input : Text}
    {d : List Text} (h : files.IsInput input d) (hfilled : Filled P files files') :
    files'.IsInput input d where
  place := hfilled.grows.locate h.place
  free := by rw [hfilled.bytesAt?_of_hasDirectory h.directory, h.free]
  directory := hfilled.grows.directory _ h.directory

namespace Sources

variable {files files' : Files} {input dir path : Text} {d r : List Text}

/-- What is gathered `below` a directory is a file or a link there, with the name of a source. -/
theorem mem_places_of_mem_below (h : r ∈ below files d) :
    d ++ r ∈ files.places ∧ isSource (r.getLastD []) := by
  obtain ⟨place, hplace, hr⟩ := List.mem_filterMap.mp h
  obtain ⟨hmem, hlisted⟩ := List.mem_filter.mp hplace
  dsimp only at hr
  split_ifs at hr with hskipped hsource
  cases hr
  obtain ⟨rest, rfl⟩ := List.isPrefixOf_iff_prefix.mp (Bool.and_eq_true_iff.mp hlisted).1
  rw [List.drop_left] at hsource ⊢
  exact ⟨hmem, hsource⟩

theorem isSourcePath_of_mem_below (hproper : files.Proper d) (h : r ∈ below files d) :
    IsSourcePath r := by
  obtain ⟨hmem, hsource⟩ := mem_places_of_mem_below h
  have hnames := hproper.names _ hmem (List.prefix_append d r)
  rw [List.drop_left] at hnames
  exact ⟨hnames, hsource⟩

/-- In a `Proper` tree each file is gathered once. -/
theorem nodup_below (hproper : files.Proper d) : (below files d).Nodup := by
  rw [below, listed, List.Nodup, List.pairwise_filterMap, List.pairwise_filter]
  refine hproper.once.imp fun {place place'} hne hlisted hlisted' r hr r' hr' hsame => hne ?_
  obtain ⟨rest, rfl⟩ := List.isPrefixOf_iff_prefix.mp (Bool.and_eq_true_iff.mp hlisted).1
  obtain ⟨rest', rfl⟩ := List.isPrefixOf_iff_prefix.mp (Bool.and_eq_true_iff.mp hlisted').1
  dsimp only at hr hr'
  rw [List.drop_left] at hr hr'
  split_ifs at hr hr'
  cases hr
  cases hr'
  rw [hsame]

/-! ## The paths that are gathered -/

/-- The steps of `path` below `input`. -/
def inner (input path : Text) : List Text := (steps path).drop (steps input).length

/-- `path` is that of a source file below `input`. -/
structure IsGathered (input path : Text) : Prop where
  source : IsSourcePath (inner input path)
  shown : PathText.below (normalize input) (ofSteps false (inner input path)) = path

theorem collect_perm (h : files.IsInput input d) :
    (collect files input).Perm ((below files d).map fun r =>
      PathText.below (normalize input) (ofSteps false r)) := by
  unfold collect
  simp only [h.place, h.free, h.directory, Option.isSome_none, Bool.false_eq_true, if_false,
    if_true]
  exact List.mergeSort_perm _ _

theorem inner_below (input : Text) (hr : IsSourcePath r) :
    inner input (PathText.below (normalize input) (ofSteps false r)) = r := by
  rw [inner, steps_below _ fun s hs => (hr.names s hs).1, steps_normalize, List.drop_left]

theorem nodup_collect (h : files.IsInput input d) (hproper : files.Proper d) :
    (collect files input).Nodup := by
  refine (collect_perm h).nodup_iff.mpr (List.pairwise_map.mpr ?_)
  refine (nodup_below hproper).imp_of_mem fun {r r'} hr hr' hne hsame => hne ?_
  rw [← inner_below input (isSourcePath_of_mem_below hproper hr), hsame,
    inner_below input (isSourcePath_of_mem_below hproper hr')]

theorem inner_mem_below (h : files.IsInput input d) (hproper : files.Proper d)
    (hpath : path ∈ collect files input) :
    inner input path ∈ below files d ∧ IsGathered input path := by
  obtain ⟨r, hr, rfl⟩ := List.mem_map.mp ((collect_perm h).mem_iff.mp hpath)
  have hsource := isSourcePath_of_mem_below hproper hr
  have hinner := inner_below input hsource
  exact ⟨hinner.symm ▸ hr, hinner.symm ▸ hsource, congrArg _ (congrArg _ hinner)⟩

/-! ## Where they lead -/

theorem IsGathered.exists_locate (hpath : IsGathered input path) (h : files.IsInput input d) :
    ∃ place, files.locate path = some place := by
  rw [← hpath.shown, Files.locate_below files (normalize_ne_nil input) hpath.source.names, h.place]
  exact ⟨_, rfl⟩

theorem IsGathered.exists_locate_map (hpath : IsGathered input path) (h : files.IsInput input d) :
    ∃ place, files.locate (path ++ text ".map") = some place := by
  rw [← hpath.shown, below_append_map _ hpath.source.ne_nil hpath.source.names,
    Files.locate_below files (normalize_ne_nil input) hpath.source.names_map, h.place]
  exact ⟨_, rfl⟩

/-- Where `d` is `Unlinked`, a gathered path leads to the place that it names. -/
theorem IsGathered.resolve_eq (hpath : IsGathered input path) (h : files.IsInput input d)
    (hunlinked : files.Unlinked d) : files.resolve path = d ++ inner input path := by
  rw [← hpath.shown, Files.resolve_below files _ hpath.source.names, h.resolve_eq,
    Files.foldl_next_of_unlinked hunlinked hpath.source.names, hpath.shown]

/-- Where `d` is `Unlinked`, what is gathered there can be read. -/
theorem exists_read (h : files.IsInput input d) (hproper : files.Proper d)
    (hunlinked : files.Unlinked d) (hpath : path ∈ collect files input) :
    ∃ bytes, files.read path = .ok bytes := by
  obtain ⟨hbelow, hgathered⟩ := inner_mem_below h hproper hpath
  obtain ⟨hmem, -⟩ := mem_places_of_mem_below hbelow
  obtain ⟨place, hplace⟩ := hgathered.exists_locate h
  obtain rfl : d ++ inner input path = place :=
    (hgathered.resolve_eq h hunlinked).symm.trans (Files.resolve_of_locate hplace)
  have hentry : d ++ inner input path ∈ files.entries.map (·.steps) := by
    refine (List.mem_append.mp hmem).resolve_right fun hlink => ?_
    obtain ⟨link, hlink, hsteps⟩ := List.mem_map.mp hlink
    exact hunlinked link hlink (hsteps ▸ List.prefix_append _ _)
  obtain ⟨f, hf, hsteps⟩ := List.mem_map.mp hentry
  have hthere : (files.bytesAt? (d ++ inner input path)).isSome := by
    rw [Files.bytesAt?, Option.isSome_map, List.find?_isSome]
    exact ⟨f, hf, by simpa using hsteps⟩
  obtain ⟨bytes, hbytes⟩ := Option.isSome_iff_exists.mp hthere
  exact ⟨bytes, Files.read_eq_ok_iff.mpr ⟨_, hplace, hbytes⟩⟩

/-- The input directory is no file. -/
theorem isFile_input (h : files.IsInput input d) : files.isFile input = false := by
  by_cases hinput : input = []
  · rw [hinput]
    rfl
  · rw [Files.isFile, ← Files.locate_normalize hinput, h.place, Option.bind_some, h.free]
    rfl

/-- The path at the same steps below `dir` as `path` has below `input`. -/
def mirrored (input dir path : Text) : Text := PathText.below dir (ofSteps false (inner input path))

/-- `outputPath` is `mirrored` for a path below an input directory. -/
theorem outputPath_eq (h : files.IsInput input d) (path dir : Text) :
    outputPath files path input dir = mirrored input dir path := by
  rw [outputPath, isFile_input h, if_neg Bool.false_ne_true]
  rfl

end Sources

end FlagFold
