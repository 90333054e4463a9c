/-
  FlagFold.Proofs.Print.MapExact

  The map of a printed program is exact on every copied character: the segment at
  or before it on its line, and no other, leads to the character that was copied.
-/

import FlagFold.Proofs.Print.Anchors
import FlagFold.Proofs.Print.Program
import FlagFold.Proofs.SourceMap.Mappings
import Mathlib.Data.List.Induction

namespace FlagFold

/-! ## Segments of one line -/

namespace SourceMap

/-- Pushing the segments of `line` keeps the last one at or before each `column`; the pushed line is
kept from its end. -/
theorem find?_foldl_push (line : List Segment) (column : Int) :
    (line.foldl push []).find? (·.column ≤ column) =
      line.reverse.find? (·.column ≤ column) := by
  induction line using List.reverseRecOn with
  | nil => rfl
  | append_singleton line s ih =>
    rw [List.foldl_concat, List.reverse_concat, List.find?_cons, ← ih]
    cases line.foldl push [] with
    | nil => rfl
    | cons last before =>
      rw [push]
      split
      case isTrue heq =>
        -- `s` takes the place of the last segment, which is at its column.
        rw [List.find?_cons, List.find?_cons, heq]
        cases decide (s.column ≤ column) <;> rfl
      case isFalse hne => rw [List.find?_cons]

/-- If the columns of `line` do not decrease, those of the pushed line strictly decrease, and all
its segments are from `line`. -/
theorem pairwise_foldl_push {line : List Segment} (h : line.Pairwise (·.column ≤ ·.column)) :
    (line.foldl push []).Pairwise (·.column > ·.column) ∧
      ∀ s ∈ line.foldl push [], s ∈ line := by
  -- By induction from the end of the line: the last segment stands behind all others, and where
  -- another has its column it takes the place of that one.
  induction line using List.reverseRecOn with
  | nil => exact ⟨List.Pairwise.nil, by simp⟩
  | append_singleton line s ih =>
    rw [List.pairwise_append] at h
    obtain ⟨hsorted, hmem⟩ := ih h.1
    have hs : ∀ t ∈ line.foldl push [], t.column ≤ s.column :=
      fun t ht => h.2.2 t (hmem t ht) s (by simp)
    rw [List.foldl_concat]
    cases hpushed : line.foldl push [] with
    | nil => simp [push]
    | cons last before =>
      rw [hpushed] at hsorted hmem hs
      rw [List.pairwise_cons] at hsorted
      have hlast := hs last (by simp)
      rw [push]
      split
      case isTrue heq =>
        refine ⟨List.pairwise_cons.mpr ⟨fun t ht => ?_, hsorted.2⟩, fun t ht => ?_⟩
        · have := hsorted.1 t ht
          omega
        · rcases List.mem_cons.mp ht with rfl | ht
          · simp
          · exact List.mem_append_left _ (hmem t (List.mem_cons_of_mem _ ht))
      case isFalse hne =>
        refine ⟨List.pairwise_cons.mpr ⟨fun t ht => ?_, List.pairwise_cons.mpr hsorted⟩,
          fun t ht => ?_⟩
        · rcases List.mem_cons.mp ht with rfl | ht
          · omega
          · have := hsorted.1 t ht
            omega
        · rcases List.mem_cons.mp ht with rfl | ht
          · simp
          · exact List.mem_append_left _ (hmem t ht)

end SourceMap

/-- `s` is the segment of `line` with the greatest column at or before `column`. -/
def Mappings.IsSegmentAt (line : List Segment) (column : Int) (s : Segment) : Prop :=
  s ∈ line ∧ s.column ≤ column ∧ ∀ t ∈ line, t.column ≤ column → t.column ≤ s.column

/-- If the columns of `line` decrease, `find?` gives the segment at `column` of the reversed
line. -/
theorem Mappings.isSegmentAt_of_find? {line : List Segment} {column : Int} {s : Segment}
    (hsorted : line.Pairwise (·.column > ·.column))
    (h : line.find? (·.column ≤ column) = some s) : IsSegmentAt line.reverse column s := by
  obtain ⟨hs, before, after, rfl, hbefore⟩ := List.find?_eq_some_iff_append.mp h
  rw [List.pairwise_append, List.pairwise_cons] at hsorted
  refine ⟨by simp, by simpa using hs, fun t ht hcolumn => ?_⟩
  simp only [List.mem_reverse, List.mem_append, List.mem_cons] at ht
  rcases ht with ht | rfl | ht
  · have := hbefore t ht
    simp only [Bool.not_eq_true', decide_eq_false_iff_not] at this
    exact absurd hcolumn this
  · exact Int.le_refl _
  · exact Int.le_of_lt (hsorted.2.1.1 t ht)

/-! ## The lines of a map -/

namespace Mappings

variable {source output : Text} {anchors : List (Nat × Nat)}

/-- The segment of the anchor `p`: the column of `p.1` in `output`, with the place of `p.2` in
`source` as its target. -/
def anchorSegment (source output : Text) (p : Nat × Nat) : Segment :=
  ⟨(output.position p.1).column,
    some ⟨0, (source.position p.2).line, (source.position p.2).column, none⟩⟩

/-- The segments of those `anchors` that are on the given line of `output`. -/
def lineSegments (source output : Text) (anchors : List (Nat × Nat)) (line : Nat) :
    List Segment :=
  (anchors.filter fun p => (output.position p.1).line = line).map (anchorSegment source output)

theorem ofAnchors_eq (source output : Text) (anchors : List (Nat × Nat)) :
    ofAnchors source output anchors =
      (List.range output.lineStarts.length).map fun line =>
        ((lineSegments source output anchors line).foldl SourceMap.push []).reverse := by
  simp only [ofAnchors, List.filter_map, List.map_map, lineSegments]
  rfl

/-- If `anchors` are in the order of the output, the columns of `lineSegments` do not decrease. -/
theorem pairwise_lineSegments (h : anchors.Pairwise (·.1 ≤ ·.1)) (line : Nat) :
    (lineSegments source output anchors line).Pairwise (·.column ≤ ·.column) := by
  rw [lineSegments, List.pairwise_map]
  apply (h.filter _).imp_of_mem
  intro p q hp hq hpq
  have hline : (output.position p.1).line = (output.position q.1).line := by
    rw [List.mem_filter] at hp hq
    rw [of_decide_eq_true hp.2, of_decide_eq_true hq.2]
  rw [anchorSegment, anchorSegment, Text.column_of_line_eq hpq hline]
  simp only [Int.ofNat_le]
  omega

theorem mem_ofAnchors_pairwise (source output : Text) (h : anchors.Pairwise (·.1 ≤ ·.1)) :
    ∀ line ∈ ofAnchors source output anchors, line.Pairwise (·.column < ·.column) := by
  rw [ofAnchors_eq]
  intro line hline
  obtain ⟨index, -, rfl⟩ := List.mem_map.mp hline
  rw [List.pairwise_reverse]
  exact (SourceMap.pairwise_foldl_push (pairwise_lineSegments h index)).1

/-- On the line of `o`, the segments at or before its column are those of the anchors at or before
`o`. -/
theorem filter_lineSegments (o : Nat) :
    (lineSegments source output anchors (output.position o).line).filter
        (·.column ≤ ((output.position o).column : Int)) =
      ((anchors.filter (·.1 ≤ o)).filter
        fun p => (output.position p.1).line = (output.position o).line).map
        (anchorSegment source output) := by
  rw [lineSegments, List.filter_map, List.filter_filter, List.filter_filter]
  congr 1
  apply List.filter_congr
  intro p _
  by_cases hline : (output.position p.1).line = (output.position o).line
  · -- On one line columns are in the order of the offsets.
    have hcolumn : (output.position p.1).column ≤ (output.position o).column ↔ p.1 ≤ o := by
      rcases Nat.le_total p.1 o with hle | hle
      · have := Text.column_of_line_eq hle hline
        omega
      · have := Text.column_of_line_eq hle hline.symm
        omega
    simp [anchorSegment, hline, hcolumn]
  · simp [hline]

/-- If the last anchor `p` at or before `o` is on the line of `o`, the map has its `anchorSegment`
as the segment at `o`. -/
theorem exists_segmentAt (source : Text) (h : anchors.Pairwise (·.1 ≤ ·.1)) {o : Nat}
    {p : Nat × Nat}
    (hp : (anchors.filter (·.1 ≤ o)).getLast? = some p)
    (hline : (output.position p.1).line = (output.position o).line) :
    ∃ line, (ofAnchors source output anchors)[(output.position o).line]? = some line ∧
      IsSegmentAt line (output.position o).column (anchorSegment source output p) := by
  have hlt := output.line_lt_length_lineStarts o
  refine ⟨_, by rw [ofAnchors_eq, List.getElem?_map, List.getElem?_range hlt]; rfl, ?_⟩
  apply isSegmentAt_of_find? (SourceMap.pairwise_foldl_push (pairwise_lineSegments h _)).1
  obtain ⟨init, hinit⟩ := List.getLast?_eq_some_iff.mp hp
  -- A line is kept from its end, so its first segment there is that of the last anchor.
  rw [SourceMap.find?_foldl_push, ← List.head?_filter, List.filter_reverse, List.head?_reverse,
    filter_lineSegments, hinit, List.filter_append, List.getLast?_map, List.getLast?_append]
  simp [hline]

end Mappings

/-! ## The map of a program -/

/-- `printMapped` gives the same `code` as `print`, and a map with one line for each line of it, the
columns of each line strictly increasing. For each character of the output at `o` that was copied
from `s` the map has a segment on its line at or before it, whose target is as far from the place of
`s` as the segment is from `o`. -/
theorem Node.printMapped_exact {program : Node} {code : Text} (h : program.print = .ok code)
    (name : Option Text) :
    ∃ chunks printed lines, program.printChunks = .ok chunks ∧
      program.printMapped name = .ok printed ∧ printed.code = code ∧
      Mappings.decode printed.map.mappings = .ok lines ∧
      lines.length = (Text.splitOn '\n' code).length ∧
      (∀ line ∈ lines, line.Pairwise (·.column < ·.column)) ∧
      ∀ o s, Chunk.origin program.source chunks o = some s →
        (∃ c, code[o]? = some c ∧ program.source[s]? = some c) ∧
        ∃ line segment target, lines[(code.position o).line]? = some line ∧
          Mappings.IsSegmentAt line (code.position o).column segment ∧
          segment.target = some target ∧ target.source = 0 ∧ target.name = none ∧
          target.line = (program.source.position s).line ∧
          target.column + ((code.position o).column - segment.column) =
            (program.source.position s).column := by
  rw [Node.print] at h
  cases hchunks : program.printChunks with
  | error e => simp [hchunks, bind, Except.bind] at h
  | ok chunks =>
    obtain rfl : program.sheet.write chunks = code := by
      simpa [hchunks, bind, Except.bind, pure, Except.pure] using h
    have hcode : program.sheet.write chunks = Chunk.outputs program.source chunks := rfl
    have hsorted := Chunk.pairwise_anchorsFrom program.source 0 chunks
    have hincreasing := Mappings.mem_ofAnchors_pairwise program.source
      (program.sheet.write chunks) hsorted
    refine ⟨chunks, _, Mappings.ofAnchors program.source (program.sheet.write chunks)
      (Chunk.anchorsFrom program.source 0 chunks), rfl,
      by rw [printMapped, hchunks]; rfl, rfl, ?_, ?_, hincreasing, ?_⟩
    · -- There is a line even where the code is empty, and the segments of each are in order.
      refine Mappings.decode_encode ?_ fun line hline =>
        (hincreasing line hline).imp fun h => Int.le_of_lt h
      simp [Mappings.ofAnchors_eq, Text.lineStarts]
    · rw [Mappings.ofAnchors_eq, List.length_map, List.length_range,
        Text.length_lineStarts_eq_length_splitOn]
    · intro o s horigin
      obtain ⟨hchar, hlt⟩ := Chunk.getElem?_of_origin horigin
      obtain ⟨a, b, hlast, ha, hs, hno, hslice⟩ := Chunk.lastAnchor_of_origin horigin 0
      simp only [Nat.zero_add] at hlast
      -- Neither text has a line feed between the anchor and the character.
      have hsource := Text.position_of_no_lineFeed (by omega) hno
      rw [← hslice] at hno
      have houtput := Text.position_of_no_lineFeed ha hno
      rw [← hcode] at hchar hlt houtput
      obtain ⟨line, hline, hsegment⟩ := Mappings.exists_segmentAt
        program.source hsorted hlast (by rw [houtput])
      refine ⟨⟨_, List.getElem?_eq_getElem hlt, ?_⟩, line, _, _, hline, hsegment, rfl, rfl, rfl,
        ?_, ?_⟩
      · rw [← hchar, List.getElem?_eq_getElem hlt]
      · rw [hsource]
      · rw [hsource, houtput, Mappings.anchorSegment]
        simp only
        omega

/-- A program of three lines: the first one is taken out and the second one replaced. -/
def threeLines : Node :=
  .mk {} (.program [.mk { start := 0, stop := 1, synthetic := true } .removed,
    .mk { start := 2, stop := 10, synthetic := true } (.boolean true)] (text "a\nhas('x')\nb"))

/-- `threeLines` is printed in two lines, the second one copied from the third line of the
source. -/
theorem printMapped_exact_threeLines :
    threeLines.print = .ok (text "true\nb") ∧
      ∃ printed lines, threeLines.printMapped none = .ok printed ∧
        printed.code = text "true\nb" ∧
        Mappings.decode printed.map.mappings = .ok lines ∧ lines.length = 2 := by
  have hedits : threeLines.programEdits =
      .ok [⟨0, 2, [], false⟩, ⟨2, 10, text "true", false⟩] := rfl
  have hprint : threeLines.print = .ok (text "true\nb") :=
    Node.print_of_ordered hedits (by decide) (by decide) (by decide)
  obtain ⟨-, printed, lines, -, hprinted, hcode, hlines, hlength, -⟩ :=
    Node.printMapped_exact hprint none
  exact ⟨hprint, printed, lines, hprinted, hcode, hlines, hlength⟩

end FlagFold
