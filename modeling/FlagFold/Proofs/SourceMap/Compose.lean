/-
  FlagFold.Proofs.SourceMap.Compose

  What looking up a place in a chain of two maps comes to.  Segments of the edited
  text from which no way leads on to the sources are left out of the chain, so a
  place there is taken for one of the segment before it on its line that leads on,
  if there is one; everywhere else looking up in the chain is looking up in one map
  after the other.
-/

import FlagFold.Proofs.Print.Copies
import FlagFold.Proofs.Print.MapExact
import FlagFold.SourceMap.Compose

namespace FlagFold

namespace Mappings

/-! ## Looking up -/

/-- The segments of `m` on the given generated line; none before the first line and behind the
last. -/
def lineAt (m : Mappings) (line : Int) : List Segment :=
  if line < 0 then [] else (m[line.toNat]?).getD []

/-- The segments of `m` on `line` at or before `column`. -/
def upTo (m : Mappings) (line column : Int) : List Segment :=
  (m.lineAt line).filter (·.column ≤ column)

theorem lookup_eq_lineAt (m : Mappings) (line column : Int) :
    m.lookup line column = (segmentAt (m.lineAt line) column).bind (·.target) := by
  unfold lookup lineAt
  split
  · rfl
  · cases m[line.toNat]? <;> rfl

/-- `lineAt` has its segments in order if all lines of `m` have. -/
theorem pairwise_lineAt {m : Mappings} (h : ∀ line ∈ m, line.Pairwise (·.column ≤ ·.column))
    (line : Int) : (m.lineAt line).Pairwise (·.column ≤ ·.column) := by
  unfold lineAt
  split
  · exact .nil
  · cases hline : m[line.toNat]? with
    | none => exact .nil
    | some segments => exact h segments (List.mem_of_getElem? hline)

/-- In a `line` in order, `segmentAt` finds the last segment at or before `column`. -/
theorem segmentAt_eq_getLast? {line : List Segment} (h : line.Pairwise (·.column ≤ ·.column))
    (column : Int) : segmentAt line column = (line.filter (·.column ≤ column)).getLast? := by
  have hprefix : line.takeWhile (·.column ≤ column) = line.filter (·.column ≤ column) := by
    induction line with
    | nil => rfl
    | cons s rest ih =>
      rw [List.pairwise_cons] at h
      by_cases hs : s.column ≤ column
      · rw [List.takeWhile_cons_of_pos (by simpa using hs),
          List.filter_cons_of_pos (by simpa using hs), ih h.2]
      · -- All that follow start later still.
        have hnone : ∀ t ∈ rest, ¬ t.column ≤ column := fun t ht => by
          have := h.1 t ht
          omega
        rw [List.takeWhile_cons_of_neg (by simpa using hs),
          List.filter_cons_of_neg (by simpa using hs),
          List.filter_eq_nil_iff.mpr (by simpa using hnone)]
  rw [segmentAt, hprefix]

theorem lookup_eq_getLast? {m : Mappings} (h : ∀ line ∈ m, line.Pairwise (·.column ≤ ·.column))
    (line column : Int) :
    m.lookup line column = (m.upTo line column).getLast?.bind (·.target) := by
  rw [lookup_eq_lineAt, segmentAt_eq_getLast? (pairwise_lineAt h line), upTo]

/-- `lookup` in `edits`, and from the place found there in `input`. -/
def lookupThrough (input edits : Mappings) (line column : Int) : Option Target :=
  (edits.lookup line column).bind fun t => input.lookup t.line t.column

/-- What `input` gives for the place to which the segment `s` leads. -/
def comesFrom (input : Mappings) (s : Segment) : Option Target :=
  s.target.bind fun t => input.lookup t.line t.column

/-! ## Mappings of anchors -/

/-- The mappings of `anchors` in order are read back as they are encoded. -/
theorem decode_ofAnchors {source output : Text} {anchors : List (Nat × Nat)}
    (h : anchors.Pairwise (·.1 ≤ ·.1)) :
    decode (ofAnchors source output anchors).encode = .ok (ofAnchors source output anchors) := by
  apply decode_encode
  · simp [ofAnchors_eq, Text.lineStarts]
  · intro line hline
    exact (mem_ofAnchors_pairwise source output h line hline).imp fun hlt => Int.le_of_lt hlt

end Mappings

/-! ## Chaining mappings -/

namespace SourceMap

variable {input edits : Mappings}

/-- `chain` leaves a segment in its column. -/
theorem column_of_chain {s t : Segment} (h : chain input s = some t) : t.column = s.column := by
  unfold chain at h
  split at h
  · cases h
  · obtain ⟨target, -, rfl⟩ := Option.map_eq_some_iff.mp h
    rfl

/-- The target of a segment that `chain` leads on is what it `comesFrom`. -/
theorem target_of_chain (input : Mappings) (s : Segment) :
    (chain input s).bind (·.target) = input.comesFrom s := by
  unfold chain Mappings.comesFrom
  cases s.target with
  | none => rfl
  | some t => simp [Option.bind_map]

/-- `chain` commutes with cutting a line off at `column`. -/
theorem filter_filterMap_chain (input : Mappings) (line : List Segment) (column : Int) :
    (line.filterMap (chain input)).filter (·.column ≤ column) =
      (line.filter (·.column ≤ column)).filterMap (chain input) := by
  rw [List.filter_filterMap, List.filterMap_filter]
  apply List.filterMap_congr
  intro s _
  cases hs : chain input s with
  | none => simp
  | some t =>
    rw [Option.filter_some, column_of_chain hs]

theorem pairwise_filterMap_chain (input : Mappings) {line : List Segment}
    (h : line.Pairwise (·.column ≤ ·.column)) :
    (line.filterMap (chain input)).Pairwise (·.column ≤ ·.column) := by
  rw [List.pairwise_filterMap]
  apply h.imp
  intro s t hst s' hs' t' ht'
  rw [column_of_chain hs', column_of_chain ht']
  exact hst

/-- The segments of each line of `chainMappings` are in order if those of `edits` are. -/
theorem pairwise_chainMappings (input : Mappings)
    (h : ∀ line ∈ edits, line.Pairwise (·.column ≤ ·.column)) :
    ∀ line ∈ chainMappings input edits, line.Pairwise (·.column ≤ ·.column) := by
  intro line hline
  obtain ⟨before, hbefore, rfl⟩ := List.mem_map.mp hline
  rw [chainLine, List.pairwise_reverse]
  have hpushed := (pairwise_foldl_push (pairwise_filterMap_chain input (h before hbefore))).1
  exact hpushed.imp fun hlt => Int.le_of_lt hlt

theorem lineAt_chainMappings (input edits : Mappings) (line : Int) :
    (chainMappings input edits).lineAt line = chainLine input (edits.lineAt line) := by
  unfold chainMappings Mappings.lineAt
  split
  · rfl
  · rw [List.getElem?_map]
    cases edits[line.toNat]? <;> rfl

/-- `lookup` in `chainMappings` gives the target of the last segment at or before the place that
`chain` leads on. -/
theorem lookup_chainMappings (input : Mappings)
    (h : ∀ line ∈ edits, line.Pairwise (·.column ≤ ·.column)) (line column : Int) :
    (chainMappings input edits).lookup line column =
      ((edits.upTo line column).filterMap (chain input)).getLast?.bind (·.target) := by
  rw [Mappings.lookup_eq_getLast? (pairwise_chainMappings input h), Mappings.upTo,
    lineAt_chainMappings, chainLine, List.filter_reverse, List.getLast?_reverse,
    List.head?_filter, find?_foldl_push, ← List.head?_filter, List.filter_reverse,
    List.head?_reverse, filter_filterMap_chain, Mappings.upTo]

/-- `lookupThrough` gives the target of the last segment at or before the place, if `chain` leads on
that one. -/
theorem lookupThrough_eq (input : Mappings)
    (h : ∀ line ∈ edits, line.Pairwise (·.column ≤ ·.column)) (line column : Int) :
    Mappings.lookupThrough input edits line column =
      (edits.upTo line column).getLast?.bind fun s => (chain input s).bind (·.target) := by
  simp only [Mappings.lookupThrough, Mappings.lookup_eq_getLast? h, Option.bind_assoc,
    target_of_chain, Mappings.comesFrom]

/-- The last segment that `chain` leads on: that of `last`, if it is led on, or one from
`before`. -/
theorem getLast?_filterMap_chain_concat (input : Mappings) (before : List Segment)
    (last : Segment) :
    ((before ++ [last]).filterMap (chain input)).getLast? =
      (chain input last).or (before.filterMap (chain input)).getLast? := by
  rw [List.filterMap_append, List.getLast?_append]
  cases h : chain input last <;> simp [h]

/-- A segment that `chain` has led on has a target. -/
theorem isSome_target_of_chain {s t : Segment} (h : chain input s = some t) :
    t.target.isSome := by
  unfold chain at h
  split at h
  · cases h
  · obtain ⟨target, -, rfl⟩ := Option.map_eq_some_iff.mp h
    rfl

/-- `lookup` in `chainMappings` gives what the last segment of `edits` at or before the place
`comesFrom` that comes from anything in `input`. -/
theorem lookup_chainMappings_eq_comesFrom (input : Mappings)
    (h : ∀ line ∈ edits, line.Pairwise (·.column ≤ ·.column)) (line column : Int) :
    (chainMappings input edits).lookup line column =
      ((edits.upTo line column).filterMap input.comesFrom).getLast? := by
  rw [lookup_chainMappings input h]
  induction edits.upTo line column using List.reverseRecOn with
  | nil => rfl
  | append_singleton before last ih =>
    rw [getLast?_filterMap_chain_concat, List.filterMap_append, List.getLast?_append, ← ih]
    have htarget := target_of_chain input last
    cases hchain : chain input last with
    | none =>
      rw [hchain, Option.bind_none] at htarget
      simp [← htarget]
    | some led =>
      obtain ⟨target, hled⟩ := Option.isSome_iff_exists.mp (isSome_target_of_chain hchain)
      rw [hchain, Option.bind_some, hled] at htarget
      simp [← htarget, hled]

/-- What `lookupThrough` finds, `lookup` in `chainMappings` gives. -/
theorem lookup_chainMappings_of_lookupThrough
    (h : ∀ line ∈ edits, line.Pairwise (·.column ≤ ·.column)) {line column : Int} {t : Target}
    (ht : Mappings.lookupThrough input edits line column = some t) :
    (chainMappings input edits).lookup line column = some t := by
  rw [lookupThrough_eq input h] at ht
  rw [lookup_chainMappings input h]
  obtain ⟨last, hlast, ht⟩ := Option.bind_eq_some_iff.mp ht
  obtain ⟨led, hled, ht⟩ := Option.bind_eq_some_iff.mp ht
  obtain ⟨before, hbefore⟩ := List.getLast?_eq_some_iff.mp hlast
  rw [hbefore, getLast?_filterMap_chain_concat, hled]
  exact ht

/-- `lookup` in `chainMappings` agrees with `lookupThrough` just where this finds something or no
segment up to the place is led on. -/
theorem lookup_chainMappings_eq_iff (input : Mappings)
    (h : ∀ line ∈ edits, line.Pairwise (·.column ≤ ·.column)) (line column : Int) :
    (chainMappings input edits).lookup line column =
        Mappings.lookupThrough input edits line column ↔
      (Mappings.lookupThrough input edits line column).isSome ∨
        ∀ s ∈ edits.upTo line column, chain input s = none := by
  cases hthrough : Mappings.lookupThrough input edits line column with
  | some t => simp [lookup_chainMappings_of_lookupThrough h hthrough]
  | none =>
    rw [lookup_chainMappings input h]
    simp only [Option.isSome_none, Bool.false_eq_true, false_or]
    constructor
    · intro hnone s hs
      by_contra hsome
      -- Some segment is led on, so one of those is the last, and it comes from somewhere.
      obtain ⟨led, hled⟩ := Option.ne_none_iff_exists'.mp hsome
      have hne : (edits.upTo line column).filterMap (chain input) ≠ [] :=
        List.ne_nil_of_mem (List.mem_filterMap.mpr ⟨s, hs, hled⟩)
      have hlast := List.getLast?_eq_some_getLast hne
      obtain ⟨last, -, hchain⟩ := List.mem_filterMap.mp (List.getLast_mem hne)
      rw [hlast, Option.bind_some] at hnone
      have hisSome := isSome_target_of_chain hchain
      rw [hnone] at hisSome
      cases hisSome
    · intro hnone
      rw [List.filterMap_eq_nil_iff.mpr hnone]
      rfl

/-! ## Chaining documents -/

/-- `check` of a written map gives its mappings. -/
@[simp] theorem check_toJson (role : MapRole) (m : SourceMap) :
    check role m.toJson = Mappings.decode m.mappings := by
  have hversion : (Json.int revision).isNumber revision = true := by decide
  have hmappings : ∀ name ∈ ["version", "file", "sources", "names"],
      text name ≠ text "mappings" := by decide
  have hsources : ∀ name ∈ ["version", "file"], text name ≠ text "sources" := by decide
  simp only [List.forall_mem_cons] at hmappings hsources
  simp [check, toJson, Table.find?, hversion, hmappings, hsources]

/-- The member `name` of `document` is a list, if it is there. -/
def MayList (name : String) (document : Json) : Prop :=
  ∀ v, document.member? (text name) = some v → ∃ items, v = .arr items

theorem exists_listMember {name : String} {document : Json} (h : MayList name document) :
    ∃ items, listMember name document = .ok items := by
  unfold listMember
  cases hv : document.member? (text name) with
  | none => exact ⟨[], rfl⟩
  | some v =>
    obtain ⟨items, rfl⟩ := h v hv
    exact ⟨items, rfl⟩

/-- What passes `check` has mappings that can be decoded, and its sources are a list. -/
theorem of_check {role : MapRole} {document : Json} {m : Mappings}
    (h : check role document = .ok m) :
    (∃ t, Mappings.decode t = .ok m) ∧ MayList "sources" document := by
  unfold check at h
  split at h
  case h_2 => cases h
  case h_1 members =>
    -- Whatever the version, what is left to check are the mappings and the sources.
    have hread : ∃ t, Mappings.decode t = .ok m ∧
        ∀ v, Table.find? members (text "sources") = some v → ∃ items, v = .arr items := by
      repeat' split at h
      all_goals simp_all [bind, Except.bind, throw, throwThe, MonadExceptOf.throw]
      all_goals exact ⟨_, h⟩
    obtain ⟨t, ht, hsources⟩ := hread
    exact ⟨⟨t, ht⟩, hsources⟩

/-- A written map has lists for `names` and `sourcesContent`. -/
theorem mayList_toJson (m : SourceMap) :
    MayList "names" m.toJson ∧ MayList "sourcesContent" m.toJson := by
  have hnames : ∀ name ∈ ["version", "file", "sources"], text name ≠ text "names" := by decide
  have hcontents : ∀ name ∈ ["version", "file", "sources", "names", "mappings", "sourceRoot"],
      text name ≠ text "sourcesContent" := by decide
  simp only [List.forall_mem_cons] at hnames hcontents
  constructor
  · intro v hv
    simp [toJson, Json.member?, Table.find?, hnames] at hv
    exact ⟨m.names, hv.symm⟩
  · intro v hv
    cases hroot : m.sourceRoot <;> cases hlist : m.sourcesContent <;>
      simp [toJson, Json.member?, Table.find?, hcontents, hroot, hlist] at hv
    all_goals exact ⟨_, hv.symm⟩

/-- If both maps pass `check`, and the first has lists where it has to have them, `compose` gives a
map with the mappings of `chainMappings`. -/
theorem exists_compose {original edits : Json} {input edited : Mappings}
    (horiginal : check .input original = .ok input) (hedits : check .generated edits = .ok edited)
    (hnames : MayList "names" original) (hcontents : MayList "sourcesContent" original) :
    ∃ composed, compose original edits = .ok composed ∧
      composed.mappings = (chainMappings input edited).encode := by
  obtain ⟨sources, hsources⟩ := exists_listMember (of_check horiginal).2
  obtain ⟨names, hnames⟩ := exists_listMember hnames
  unfold compose
  rw [horiginal, hedits, hsources, hnames]
  cases hv : original.member? (text "sourcesContent") with
  | none => exact ⟨_, rfl, rfl⟩
  | some v =>
    obtain ⟨items, rfl⟩ := hcontents v hv
    exact ⟨_, rfl, rfl⟩

/-- If `compose` succeeds, both maps pass `check`, and the result has the mappings of
`chainMappings`. -/
theorem of_compose {original edits : Json} {composed : SourceMap}
    (h : compose original edits = .ok composed) :
    ∃ input edited, check .input original = .ok input ∧ check .generated edits = .ok edited ∧
      composed.mappings = (chainMappings input edited).encode := by
  obtain ⟨input, hinput, h⟩ := exists_of_bind_eq_ok h
  obtain ⟨edited, hedited, h⟩ := exists_of_bind_eq_ok h
  refine ⟨input, edited, eq_ok_of_mapError hinput, eq_ok_of_mapError hedited, ?_⟩
  obtain ⟨sources, -, h⟩ := exists_of_bind_eq_ok h
  obtain ⟨names, -, h⟩ := exists_of_bind_eq_ok h
  cases hv : original.member? (text "sourcesContent") with
  | none =>
    simp only [hv] at h
    cases h
    rfl
  | some v =>
    simp only [hv] at h
    obtain ⟨contents, -, h⟩ := exists_of_bind_eq_ok h
    cases h
    rfl

/-- `check` of a composed map gives the mappings of `chainMappings`. -/
theorem check_chain {edits : Json} {edited : Mappings} {composed : SourceMap}
    (input : Mappings) (hedits : check .generated edits = .ok edited)
    (hcomposed : composed.mappings = (chainMappings input edited).encode) (role : MapRole) :
    check role composed.toJson = .ok (chainMappings input edited) := by
  obtain ⟨⟨t, ht⟩, -⟩ := of_check hedits
  obtain ⟨hlines, hsorted⟩ := Mappings.of_decode ht
  rw [check_toJson, hcomposed]
  apply Mappings.decode_encode
  · intro hnil
    exact hlines (List.map_eq_nil_iff.mp hnil)
  · exact pairwise_chainMappings input hsorted

/-- `lookup` in the map that `compose` gives. It agrees with `lookupThrough` just where this finds
something or no segment of the line up to the place is led on; everywhere it gives what the last of
those that are led on comes from. -/
theorem lookup_compose {original edits : Json} {input edited : Mappings}
    (horiginal : check .input original = .ok input) (hedits : check .generated edits = .ok edited)
    (hnames : MayList "names" original) (hcontents : MayList "sourcesContent" original) :
    ∃ composed chained, compose original edits = .ok composed ∧
      (∀ role, check role composed.toJson = .ok chained) ∧
      ∀ line column,
        (chained.lookup line column = Mappings.lookupThrough input edited line column ↔
          (Mappings.lookupThrough input edited line column).isSome ∨
            ∀ s ∈ edited.upTo line column, chain input s = none) ∧
        chained.lookup line column =
          ((edited.upTo line column).filterMap (chain input)).getLast?.bind (·.target) := by
  obtain ⟨composed, hcompose, hmappings⟩ :=
    exists_compose horiginal hedits hnames hcontents
  obtain ⟨⟨t, ht⟩, -⟩ := of_check hedits
  have hsorted := (Mappings.of_decode ht).2
  refine ⟨composed, chainMappings input edited, hcompose, check_chain input hedits hmappings,
    fun line column => ⟨?_, ?_⟩⟩
  · exact lookup_chainMappings_eq_iff input hsorted line column
  · exact lookup_chainMappings input hsorted line column

/-- The map of a text that comes from `a.ts`, all from its start. -/
def fromStart : SourceMap :=
  ofMappings [[⟨0, some ⟨0, 0, 0, none⟩⟩]] none (some (text "a.ts"))

/-- The map of a text of which four characters are copied and the rest is inserted. -/
def fourCopied : SourceMap :=
  ofMappings [[⟨0, some ⟨0, 0, 0, none⟩⟩, ⟨4, none⟩]] none (some (text "b.js"))

theorem check_fromStart :
    check .input fromStart.toJson = .ok [[⟨0, some ⟨0, 0, 0, none⟩⟩]] := by
  rw [check_toJson]
  exact Mappings.decode_encode (by decide) (by decide)

theorem check_fourCopied :
    check .generated fourCopied.toJson = .ok [[⟨0, some ⟨0, 0, 0, none⟩⟩, ⟨4, none⟩]] := by
  rw [check_toJson]
  exact Mappings.decode_encode (by decide) (by decide)

/-- On the copied characters of `fourCopied` the chain leads to `a.ts`. -/
theorem lookup_compose_copied :
    ∃ composed chained, compose fromStart.toJson fourCopied.toJson = .ok composed ∧
      check .input composed.toJson = .ok chained ∧
      chained.lookup 0 3 = some ⟨0, 0, 0, none⟩ := by
  obtain ⟨hnames, hcontents⟩ := mayList_toJson fromStart
  obtain ⟨composed, chained, hcompose, hchained, hlookup⟩ :=
    lookup_compose check_fromStart check_fourCopied hnames hcontents
  refine ⟨composed, chained, hcompose, hchained .input, ?_⟩
  rw [(hlookup 0 3).2]
  decide

/-- The segment that says that the rest is inserted is lost, so that the chain takes the rest for
`a.ts` as well. -/
theorem compose_loses_inserted :
    ∃ composed chained, compose fromStart.toJson fourCopied.toJson = .ok composed ∧
      check .input composed.toJson = .ok chained ∧
      check .generated fourCopied.toJson = .ok [[⟨0, some ⟨0, 0, 0, none⟩⟩, ⟨4, none⟩]] ∧
      Mappings.lookup [[⟨0, some ⟨0, 0, 0, none⟩⟩, ⟨4, none⟩]] 0 4 = none ∧
      chained.lookup 0 4 = some ⟨0, 0, 0, none⟩ := by
  obtain ⟨hnames, hcontents⟩ := mayList_toJson fromStart
  obtain ⟨composed, hcompose, hmappings⟩ :=
    exists_compose check_fromStart check_fourCopied hnames hcontents
  refine ⟨composed, _, hcompose, check_chain _ check_fourCopied hmappings .input,
    check_fourCopied, by decide, by decide⟩

end SourceMap

end FlagFold
