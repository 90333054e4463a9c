/-
  FlagFold.Proofs.Fold.Mapped

  Where the map that comes with the code of a module leads.  The map of the printer
  has one segment for each run, that is for each copied chunk and for each line that
  starts inside one, and one for each inserted text.  So a copied character is taken
  for what the caller's map gives for the start of its run, and no segment that the
  caller's map has inside a run is kept.  Where the caller's map gives nothing there,
  the segment before it on the line decides, be it that of another run or that of an
  inserted text.
-/

import FlagFold.Proofs.Fold.Settled
import FlagFold.Proofs.SourceMap.Compose

namespace FlagFold

/-! ## Runs -/

/-- Where the run of the character at `offset` starts in `source`: at the start of its line, as far
as its copied chunk goes. -/
def Chunk.runStart (source : Text) : List Chunk → Nat → Option Nat
  | [], _ => none
  | chunk :: rest, offset =>
    if offset < (chunk.output source).length then
      chunk.sourceStart?.map (· + (chunk.output source).lineStart offset)
    else runStart source rest (offset - (chunk.output source).length)

/-- The last anchor at or before a copied character is that of its `runStart`. -/
theorem Chunk.runStart_eq_lastAnchor {source : Text} {chunks : List Chunk} {o s : Nat}
    (h : origin source chunks o = some s) (offset : Nat) :
    ((anchorsFrom source offset chunks).filter (·.1 ≤ offset + o)).getLast?.map (·.2) =
      runStart source chunks o := by
  induction chunks generalizing o offset with
  | nil => simp [origin] at h
  | cons chunk rest ih =>
    rw [origin] at h
    rw [anchorsFrom_cons, List.filter_append, runStart]
    by_cases ho : o < (chunk.output source).length
    · rw [if_pos ho] at h
      rw [if_pos ho]
      cases chunk with
      | inserted => cases h
      | copied start stop =>
        -- The anchors of later chunks are all behind the character.
        have hlater : (anchorsFrom source (offset + ((copied start stop).output source).length)
            rest).filter (·.1 ≤ offset + o) = [] := by
          rw [List.filter_eq_nil_iff]
          intro p hp
          have := le_of_mem_anchorsFrom hp
          simp only [decide_eq_true_eq]
          omega
        rw [hlater, List.append_nil, lastOwnAnchor offset ho]
        rfl
    · rw [if_neg ho] at h
      rw [if_neg ho]
      have ho' : offset + (chunk.output source).length + (o - (chunk.output source).length) =
          offset + o := by omega
      have hrest := ih h (offset + (chunk.output source).length)
      rw [ho'] at hrest
      -- There is an anchor in the rest, so the last one is there.
      obtain ⟨a, b, hlast, -⟩ :=
        lastAnchor_of_origin h (offset + (chunk.output source).length)
      rw [ho'] at hlast
      rw [List.getLast?_append, hlast]
      rw [hlast] at hrest
      exact hrest

/-! ## Looking up offsets -/

namespace Mappings

/-- What the character at `offset` of `t` comes from by `m`. -/
def behind (m : Mappings) (t : Text) (offset : Nat) : Option Target :=
  m.lookup (t.position offset).line (t.position offset).column

/-- The segments of `m` on the line of the character at `offset` of `t`, up to that character. -/
def segmentsUpTo (m : Mappings) (t : Text) (offset : Nat) : List Segment :=
  m.upTo (t.position offset).line (t.position offset).column

/-- In a line with strictly increasing columns, `segmentAt` finds the segment `s` at `column`. -/
theorem segmentAt_of_isSegmentAt {line : List Segment} {column : Int} {s : Segment}
    (hsorted : line.Pairwise (·.column < ·.column)) (h : IsSegmentAt line column s) :
    segmentAt line column = some s := by
  obtain ⟨hs, hcolumn, hgreatest⟩ := h
  have hle : line.Pairwise (·.column ≤ ·.column) := hsorted.imp fun hlt => Int.le_of_lt hlt
  obtain ⟨before, after, rfl⟩ := List.append_of_mem hs
  rw [List.pairwise_append, List.pairwise_cons] at hsorted
  -- What stands behind it starts after the place.
  have hafter : ∀ t ∈ after, ¬ t.column ≤ column := by
    intro t ht hle'
    have hlt := hsorted.2.1.1 t ht
    have hmax := hgreatest t (by simp [ht]) hle'
    omega
  have hnone : after.filter (·.column ≤ column) = [] :=
    List.filter_eq_nil_iff.mpr (by simpa using hafter)
  rw [segmentAt_eq_getLast? hle, List.filter_append,
    List.filter_cons_of_pos (by simpa using hcolumn), hnone, List.getLast?_concat]

/-- If no segment of the line starts behind `a` up to `b`, `lookup` gives the same at both. -/
theorem lookup_congr {m : Mappings} (h : ∀ line ∈ m, line.Pairwise (·.column ≤ ·.column))
    {line a b : Int} (hab : a ≤ b)
    (hnone : ∀ s ∈ m.lineAt line, s.column ≤ a ∨ b < s.column) :
    m.lookup line a = m.lookup line b := by
  have hupTo : m.upTo line a = m.upTo line b := by
    apply List.filter_congr
    intro s hs
    have hcases := hnone s hs
    simp only [decide_eq_decide]
    omega
  rw [lookup_eq_getLast? h, lookup_eq_getLast? h, hupTo]

variable {source output : Text} {anchors : List (Nat × Nat)}

/-- If the last anchor `p` at or before `o` is on the line of `o`, the map of the anchors leads from
`o` to the place of `p.2`. -/
theorem behind_ofAnchors (h : anchors.Pairwise (·.1 ≤ ·.1)) {o : Nat} {p : Nat × Nat}
    (hp : (anchors.filter (·.1 ≤ o)).getLast? = some p)
    (hline : (output.position p.1).line = (output.position o).line) :
    (ofAnchors source output anchors).behind output o =
      some ⟨0, (source.position p.2).line, (source.position p.2).column, none⟩ := by
  obtain ⟨line, hget, hsegment⟩ := exists_segmentAt source h hp hline
  have hsorted := mem_ofAnchors_pairwise source output h line (List.mem_of_getElem? hget)
  have hlineAt : (ofAnchors source output anchors).lineAt (output.position o).line = line := by
    simp [lineAt, hget]
  rw [behind, lookup_eq_lineAt, hlineAt, segmentAt_of_isSegmentAt hsorted hsegment]
  rfl

end Mappings

/-! ## Both passes -/

namespace Node

/-- `elided` leaves a program its source. -/
@[simp] theorem source_elided (program : Node) (features : FeatureMap) (cs : List Comment) :
    (program.elided features cs).source = program.source := by
  cases program with
  | mk info shape => rw [elided_mk]; cases shape <;> rfl

/-- What the pragmas leave of `program`; the feature-query module itself is left as it is. -/
def withoutPragmas (program : Node) (features : FeatureMap) (path : Text) : Node :=
  if isQueryModulePath (some path) then program else program.elided features []

/-- Without a fault, `foldModule` is `withoutPragmas`, with its queries folded if a name is
bound. -/
theorem foldModule_cases {program : Node} {features : FeatureMap} {staticOnly : List Text}
    {path : Text} (h : (program.foldModule features staticOnly path).fault = none) :
    let left := program.withoutPragmas features path
    let folded := (program.foldModule features staticOnly path).program
    folded = left ∨
      folded = (left.foldQueries (program.foldContext features staticOnly path) []).1 := by
  intro left folded
  have hbound : (program.bindModule features path).2.fault = none →
      (program.bindModule features path).1 = left := by
    intro hfault
    simp only [left, withoutPragmas]
    unfold bindModule at hfault ⊢
    split at hfault <;> split
    case isTrue.isTrue => rfl
    case isFalse.isFalse => exact elide_eq_elided hfault
    all_goals contradiction
  simp only [folded]
  unfold foldContext
  unfold foldModule at h ⊢
  generalize program.bindModule features path = bound at h hbound ⊢
  obtain ⟨program', elision⟩ := bound
  simp only at h hbound ⊢
  cases hfault : elision.fault with
  | some fault => simp [hfault] at h
  | none =>
    obtain rfl := hbound hfault
    simp only [Option.isSome_none, Bool.false_eq_true, if_false]
    split
    · exact .inr rfl
    · exact .inl rfl

/-- `foldModule` leaves a program its source. -/
theorem source_foldModule {program : Node} {features : FeatureMap} {staticOnly : List Text}
    {path : Text} (h : (program.foldModule features staticOnly path).fault = none) :
    (program.foldModule features staticOnly path).program.source = program.source := by
  have hleft : (program.withoutPragmas features path).source = program.source := by
    unfold withoutPragmas
    split
    · rfl
    · exact source_elided program features []
  rcases foldModule_cases h with hfolded | hfolded
  · rw [hfolded, hleft]
  · rw [hfolded, source_foldQueries, hleft]

end Node

/-! ## The map that is returned -/

/-- The map of `printChained` chains the map of the printer to the map `m` that was given. -/
theorem Node.decode_of_printChained {program : Node} {path : Text} {m : Json} {code : Text}
    {map : Option SourceMap} (h : program.printChained path (some m) = .ok (code, map)) :
    ∃ chunks original composed, program.printChunks = .ok chunks ∧
      code = Chunk.outputs program.source chunks ∧ SourceMap.check .input m = .ok original ∧
      map = some composed ∧ Mappings.decode composed.mappings =
        .ok (SourceMap.chainMappings original (.ofAnchors program.source code
          (Chunk.anchorsFrom program.source 0 chunks))) := by
  obtain ⟨name, -, h⟩ := exists_of_bind_eq_ok h
  obtain ⟨printed, hprinted, h⟩ := exists_of_bind_eq_ok h
  obtain ⟨composed, hcomposed, h⟩ := exists_of_bind_eq_ok h
  cases h
  obtain ⟨chunks, hchunks, h⟩ := exists_of_bind_eq_ok (eq_ok_of_mapError hprinted)
  cases h
  have hsorted := Chunk.pairwise_anchorsFrom program.source 0 chunks
  obtain ⟨original, edited, horiginal, hedited, hmappings⟩ :=
    SourceMap.of_compose (eq_ok_of_mapError hcomposed)
  have hchecked := hedited
  rw [SourceMap.check_toJson, SourceMap.ofMappings, Mappings.decode_ofAnchors hsorted] at hchecked
  obtain rfl := Except.ok.inj hchecked
  refine ⟨chunks, original, composed, hchunks, rfl, horiginal, rfl, ?_⟩
  rw [← SourceMap.check_toJson .input]
  exact SourceMap.check_chain original hedited hmappings .input

/-- For a map that passes the `check`, `mapName` gives a name. -/
theorem exists_mapName {role : MapRole} {m : Json} {original : Mappings}
    (h : SourceMap.check role m = .ok original) (path : Text) :
    ∃ name, mapName path m = .ok name := by
  cases m with
  | obj members => exact exists_mapName_obj members path
  | _ => cases h

/-- With a well-formed map `m`, `printChained` succeeds whenever the program is printed without
one. -/
theorem Node.exists_printChained {program : Node} {m : Json} {original : Mappings}
    {chunks : List Chunk} (hchunks : program.printChunks = .ok chunks)
    (hcheck : SourceMap.check .input m = .ok original) (hnames : SourceMap.MayList "names" m)
    (hcontents : SourceMap.MayList "sourcesContent" m) (path : Text) :
    ∃ composed, program.printChained path (some m) =
        .ok (Chunk.outputs program.source chunks, some composed) ∧
      Mappings.decode composed.mappings = .ok (SourceMap.chainMappings original
        (.ofAnchors program.source (Chunk.outputs program.source chunks)
          (Chunk.anchorsFrom program.source 0 chunks))) := by
  obtain ⟨name, hname⟩ := exists_mapName hcheck path
  have hsorted := Chunk.pairwise_anchorsFrom program.source 0 chunks
  -- The map of the printer is well formed, so that it can be chained.
  set anchors := Chunk.anchorsFrom program.source 0 chunks
  set edited := Mappings.ofAnchors program.source (Chunk.outputs program.source chunks) anchors
  have hprinted : program.printMapped (some name) = .ok
      ⟨Chunk.outputs program.source chunks, .ofMappings edited (some name) (some name)⟩ := by
    rw [printMapped, hchunks]
    rfl
  have hedited : SourceMap.check .generated
      (SourceMap.ofMappings edited (some name) (some name)).toJson = .ok edited := by
    rw [SourceMap.check_toJson]
    exact Mappings.decode_ofAnchors hsorted
  obtain ⟨composed, hcompose, hmappings⟩ :=
    SourceMap.exists_compose hcheck hedited hnames hcontents
  refine ⟨composed, ?_, ?_⟩
  · rw [printChained]
    simp only [hname, hprinted, hcompose, bind, Except.bind, pure, Except.pure, Except.mapError]
  · rw [← SourceMap.check_toJson .input]
    exact SourceMap.check_chain original hedited hmappings .input

/-- What the characters of the code come from by the returned map.  The segments of the map of the
printer are those of the anchors of `chunks`, and inserted text has an anchor as a copied run has:
a character comes from what `original` gives for the last segment up to it for which it gives
anything, and from nothing just if it gives nothing for any of them.  A copied character comes from
what `original` gives for the `start` of its run, if it gives anything there; and that is what
`original` gives for the character itself if none of its segments starts inside the run up to
there. -/
theorem transform_mapped {request : TransformRequest} {settings : Settings} {program : Node}
    {staticOnly : List Text} (h : request.Reads settings program staticOnly) {m : Json}
    (hmap : request.map = some m) {w : World} {result : Transformed}
    (hresult : ((transform request Job.write).run settings w).1 = .ok result) :
    ∃ chunks original composed mapped,
      (program.foldModule request.features staticOnly request.path).program.printChunks =
        .ok chunks ∧
      result.code = Chunk.outputs request.source chunks ∧
      SourceMap.check .input m = .ok original ∧ result.map = some composed ∧
      Mappings.decode composed.mappings = .ok mapped ∧
      (∀ o, mapped.behind result.code o =
        (((Mappings.ofAnchors request.source result.code
          (Chunk.anchorsFrom request.source 0 chunks)).segmentsUpTo result.code o).filterMap
            original.comesFrom).getLast?) ∧
      ∀ o s, Chunk.origin request.source chunks o = some s →
        ∃ start ≤ s, Chunk.runStart request.source chunks o = some start ∧
          (request.source.position start).line = (request.source.position s).line ∧
          (∀ target, original.behind request.source start = some target →
            mapped.behind result.code o = some target) ∧
          ((∀ segment ∈ original.lineAt (request.source.position s).line,
              segment.column ≤ (request.source.position start).column ∨
                (request.source.position s).column < segment.column) →
            original.behind request.source start = original.behind request.source s) := by
  have hfault := fault_of_run_transform h hresult
  obtain ⟨hprinted, -⟩ := printChained_of_run_transform h hresult hfault
  obtain ⟨language, -, hparse⟩ := h.program
  have hsource : (program.foldModule request.features staticOnly request.path).program.source =
      request.source := (Node.source_foldModule hfault).trans (program_of_parseModule hparse).1
  rw [hmap] at hprinted
  obtain ⟨chunks, original, composed, hchunks, hcode, horiginal, hcomposed, hmapped⟩ :=
    Node.decode_of_printChained hprinted
  rw [hsource] at hcode hmapped
  have hanchors := Chunk.pairwise_anchorsFrom request.source 0 chunks
  have hedited : ∀ line ∈ Mappings.ofAnchors request.source result.code
      (Chunk.anchorsFrom request.source 0 chunks), line.Pairwise (·.column ≤ ·.column) := by
    intro line hline
    exact (Mappings.mem_ofAnchors_pairwise _ _ hanchors line hline).imp fun hlt =>
      Int.le_of_lt hlt
  refine ⟨chunks, original, composed, _, hchunks, hcode, horiginal, hcomposed, hmapped,
    fun o => SourceMap.lookup_chainMappings_eq_comesFrom original hedited _ _, ?_⟩
  intro o s horigin
  obtain ⟨⟨t, ht⟩, -⟩ := SourceMap.of_check horiginal
  have hinput := (Mappings.of_decode ht).2
  -- The last anchor at or before the character is that of its run.
  obtain ⟨a, start, hlast, ha, hs, hno, hslice⟩ := Chunk.lastAnchor_of_origin horigin 0
  have hstart := Chunk.runStart_eq_lastAnchor horigin 0
  simp only [Nat.zero_add] at hlast hstart
  rw [hlast] at hstart
  have hrun := Text.position_of_no_lineFeed (by omega : start ≤ s) hno
  rw [← hslice, ← hcode] at hno
  have houtput := Text.position_of_no_lineFeed ha hno
  have hbehind : (Mappings.ofAnchors request.source result.code _).behind result.code o = _ :=
    Mappings.behind_ofAnchors hanchors hlast (by rw [houtput])
  refine ⟨start, by omega, hstart.symm, by rw [hrun], ?_, ?_⟩
  · intro target htarget
    have hthrough : Mappings.lookupThrough original
        (.ofAnchors request.source result.code (Chunk.anchorsFrom request.source 0 chunks))
        (result.code.position o).line (result.code.position o).column = some target := by
      rw [Mappings.behind] at hbehind
      rw [Mappings.lookupThrough, hbehind]
      exact htarget
    exact SourceMap.lookup_chainMappings_of_lookupThrough hedited hthrough
  · intro heven
    rw [Mappings.behind, Mappings.behind, hrun]
    rw [hrun] at heven
    exact Mappings.lookup_congr hinput (Int.ofNat_le.mpr (Nat.le_add_right _ _)) heven

/-- With a well-formed map a module that can be folded and printed is returned with the code of its
`chunks` and a map that chains the map of the printer to the given one. -/
theorem run_transform_mapped {request : TransformRequest} {settings : Settings} {program : Node}
    {staticOnly : List Text} (h : request.Reads settings program staticOnly) {m : Json}
    (hmap : request.map = some m) {original : Mappings} {chunks : List Chunk}
    (hfault : (program.foldModule request.features staticOnly request.path).fault = none)
    (hchunks : (program.foldModule request.features staticOnly request.path).program.printChunks =
      .ok chunks)
    (hcheck : SourceMap.check .input m = .ok original) (hnames : SourceMap.MayList "names" m)
    (hcontents : SourceMap.MayList "sourcesContent" m) :
    ∃ composed, (∀ w, ((transform request Job.write).run settings w).1 =
        .ok ⟨Chunk.outputs request.source chunks, some composed,
          (program.foldModule request.features staticOnly request.path).dynamic⟩) ∧
      Mappings.decode composed.mappings = .ok (SourceMap.chainMappings original
        (.ofAnchors request.source (Chunk.outputs request.source chunks)
          (Chunk.anchorsFrom request.source 0 chunks))) := by
  obtain ⟨language, -, hparse⟩ := h.program
  have hsource : (program.foldModule request.features staticOnly request.path).program.source =
      request.source := (Node.source_foldModule hfault).trans (program_of_parseModule hparse).1
  obtain ⟨composed, hprinted, hdecode⟩ :=
    Node.exists_printChained hchunks hcheck hnames hcontents request.path
  rw [hsource] at hprinted hdecode
  refine ⟨composed, fun w => ?_, hdecode⟩
  rw [run_transform h w hfault, hmap, hprinted]
  rfl

/-- With a well-formed map, a program in plain code that `FoldsWith` the given `edits` is returned
with the output of their `chunks`. -/
theorem Node.FoldsWith.run_transform_mapped {request : TransformRequest} {program : Node}
    {edits : List Edit} (hfolds : program.FoldsWith request.features edits [])
    (hreads : request.Reads {} program []) (hpath : request.path = []) {map : SourceMap}
    (hmap : request.map = some map.toJson) {original : Mappings}
    (hcheck : SourceMap.check .input map.toJson = .ok original) {chunks : List Chunk}
    (hchunks : (Sheet.ofSource request.source).splice 0 request.source.length edits = .ok chunks) :
    (program.foldModule request.features [] []).program.printChunks = .ok chunks ∧
      ∃ composed, (∀ w, ((transform request Job.write).run {} w).1 =
          .ok ⟨Chunk.outputs request.source chunks, some composed, []⟩) ∧
        Mappings.decode composed.mappings = .ok (SourceMap.chainMappings original
          (.ofAnchors request.source (Chunk.outputs request.source chunks)
            (Chunk.anchorsFrom request.source 0 chunks))) := by
  obtain ⟨language, -, hparse⟩ := hreads.program
  have hprints : (program.foldModule request.features [] []).program.printChunks = .ok chunks := by
    rw [printChunks, hfolds.edits, sheet, hfolds.source, (program_of_parseModule hparse).1]
    exact hchunks
  refine ⟨hprints, ?_⟩
  obtain ⟨hnames, hcontents⟩ := SourceMap.mayList_toJson map
  have hfault := hfolds.fault
  rw [← hpath] at hprints hfault
  rw [← hfolds.dynamic, ← hpath]
  exact FlagFold.run_transform_mapped hreads hmap hfault hprints hcheck hnames hcontents

/-- The map of a line of `a.ts` whose text from the fifth character on has moved. -/
def movedTail : SourceMap :=
  .ofMappings [[⟨0, some ⟨0, 0, 0, none⟩⟩, ⟨4, some ⟨0, 0, 8, none⟩⟩]] none (some (text "a.ts"))

/-- A line without flags, with the map `movedTail` that has a segment inside it. -/
def assignment : TransformRequest where
  source := text "a = b;\n"
  map := some movedTail.toJson

theorem check_movedTail : SourceMap.check .input movedTail.toJson =
    .ok [[⟨0, some ⟨0, 0, 0, none⟩⟩, ⟨4, some ⟨0, 0, 8, none⟩⟩]] := by
  rw [SourceMap.check_toJson]
  exact Mappings.decode_encode (by decide) (by decide)

set_option maxRecDepth 100000 in
/-- `assignment` is one run, for which the returned map has one segment. -/
theorem run_assignment :
    ∃ program composed, assignment.Reads {} program [] ∧
      (program.foldModule [] [] []).program.printChunks = .ok [.copied 0 7] ∧
      (∀ w, ((transform assignment Job.write).run {} w).1 =
        .ok ⟨assignment.source, some composed, []⟩) ∧
      Mappings.decode composed.mappings = .ok [[⟨0, some ⟨0, 0, 0, none⟩⟩], []] := by
  obtain ⟨program, hparse, hfolds⟩ :=
    exists_of_any (x := parseModule [] assignment.source (text "javascript") [])
      (P := fun program => program.FoldsWith [] [] []) (by decide +kernel)
  have hreads : assignment.Reads {} program [] := ⟨rfl, .javascript, rfl, hparse⟩
  obtain ⟨hchunks, composed, hrun, hdecode⟩ :=
    hfolds.run_transform_mapped hreads rfl rfl check_movedTail (Sheet.splice_nil _ _)
  exact ⟨program, composed, hreads, hchunks, hrun, hdecode⟩

/-- The map of two lines of which the second comes from `a.ts` up to its eighth character. -/
def knownCall : SourceMap :=
  .ofMappings [[], [⟨0, some ⟨0, 0, 0, none⟩⟩, ⟨8, none⟩]] none (some (text "a.ts"))

/-- A member of an answered call, with the map `knownCall` that has nothing for it. -/
def memberOfCall : TransformRequest where
  source := text "import has from 'a/has';\nhas('x').z;\n"
  features := [(text "x", true)]
  map := some knownCall.toJson

theorem check_knownCall : SourceMap.check .input knownCall.toJson =
    .ok [[], [⟨0, some ⟨0, 0, 0, none⟩⟩, ⟨8, none⟩]] := by
  rw [SourceMap.check_toJson]
  exact Mappings.decode_encode (by decide) (by decide)

set_option maxRecDepth 100000 in
/-- Of the second line of `memberOfCall` the returned map has the segment of the answer only. -/
theorem run_memberOfCall :
    ∃ program composed, memberOfCall.Reads {} program [] ∧
      (program.foldModule memberOfCall.features [] []).program.printChunks =
        .ok [.copied 0 25, .inserted 25 (text "true"), .copied 33 37] ∧
      (∀ w, ((transform memberOfCall Job.write).run {} w).1 =
        .ok ⟨text "import has from 'a/has';\ntrue.z;\n", some composed, []⟩) ∧
      Mappings.decode composed.mappings = .ok [[], [⟨0, some ⟨0, 0, 0, none⟩⟩], []] := by
  obtain ⟨program, hparse, hfolds⟩ :=
    exists_of_any (x := parseModule [] memberOfCall.source (text "javascript") [])
      (P := fun program =>
        program.FoldsWith memberOfCall.features [⟨25, 33, text "true", false⟩] [])
      (by decide +kernel)
  have hreads : memberOfCall.Reads {} program [] := ⟨rfl, .javascript, rfl, hparse⟩
  have hsplice : (Sheet.ofSource memberOfCall.source).splice 0 memberOfCall.source.length
      [⟨25, 33, text "true", false⟩] =
        .ok [.copied 0 25, .inserted 25 (text "true"), .copied 33 37] := by
    decide +kernel
  obtain ⟨hchunks, composed, hrun, hdecode⟩ :=
    hfolds.run_transform_mapped hreads rfl rfl check_knownCall hsplice
  exact ⟨program, composed, hreads, hchunks, hrun, hdecode⟩

/-- The first character of `assignment` is the start of its run. -/
theorem transform_mapped_start :
    ∃ result mapped, (∀ w, ((transform assignment Job.write).run {} w).1 = .ok result) ∧
      (∃ composed, result.map = some composed ∧ Mappings.decode composed.mappings = .ok mapped) ∧
      mapped.behind result.code 0 = some ⟨0, 0, 0, none⟩ := by
  obtain ⟨program, composed, hreads, hchunks, hrun, -⟩ := run_assignment
  obtain ⟨chunks, original, composed', mapped, hchunks', -, horiginal, hcomposed, hmapped, -,
    hruns⟩ := transform_mapped hreads rfl (hrun {})
  cases hchunks.symm.trans hchunks'
  cases check_movedTail.symm.trans horiginal
  obtain ⟨start, -, hstart, -, hbehind, -⟩ := hruns 0 0 (by decide)
  obtain rfl : 0 = start := Option.some.inj hstart
  exact ⟨_, mapped, hrun, ⟨composed', hcomposed, hmapped⟩, hbehind _ (by decide)⟩

/-- The character at `offset` of what is returned for a request in plain code is copied from `s`,
and comes from `after` by the returned map but from `before` by the given one. -/
def TransformRequest.Remaps (request : TransformRequest) (offset s : Nat)
    (before after : Option Target) : Prop :=
  ∃ program result mapped, request.Reads {} program [] ∧
    (∀ w, ((transform request Job.write).run {} w).1 = .ok result) ∧
    (∃ composed, result.map = some composed ∧ Mappings.decode composed.mappings = .ok mapped) ∧
    (∃ chunks, (program.foldModule request.features [] []).program.printChunks = .ok chunks ∧
      Chunk.origin request.source chunks offset = some s) ∧
    (∃ m original, request.map = some m ∧ SourceMap.check .input m = .ok original ∧
      original.behind request.source s = before) ∧
    mapped.behind result.code offset = after

/-- In `assignment` the caller's map gives another place for the fifth character of the line than
the returned one, although it is copied; in `memberOfCall` it gives none for the member of an
answered call, for which the returned one gives the place of the answer. -/
theorem transform_mapped_inside :
    assignment.Remaps 4 4 (some ⟨0, 0, 8, none⟩) (some ⟨0, 0, 0, none⟩) ∧
      memberOfCall.Remaps 30 34 none (some ⟨0, 0, 0, none⟩) := by
  constructor
  · obtain ⟨program, composed, hreads, hchunks, hrun, hmapped⟩ := run_assignment
    have hfound : Mappings.behind [[⟨0, some ⟨0, 0, 0, none⟩⟩], []] assignment.source 4 =
        some ⟨0, 0, 0, none⟩ := by decide
    exact ⟨program, _, _, hreads, hrun, ⟨composed, rfl, hmapped⟩, ⟨_, hchunks, by decide⟩,
      ⟨_, _, rfl, check_movedTail, by decide⟩, hfound⟩
  · obtain ⟨program, composed, hreads, hchunks, hrun, hmapped⟩ := run_memberOfCall
    have hfound : Mappings.behind [[], [⟨0, some ⟨0, 0, 0, none⟩⟩], []]
        (text "import has from 'a/has';\ntrue.z;\n") 30 = some ⟨0, 0, 0, none⟩ := by
      decide +kernel
    exact ⟨program, _, _, hreads, hrun, ⟨composed, rfl, hmapped⟩,
      ⟨_, hchunks, by decide +kernel⟩, ⟨_, _, rfl, check_knownCall, by decide +kernel⟩, hfound⟩

end FlagFold
