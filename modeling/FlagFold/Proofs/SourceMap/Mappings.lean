/-
  FlagFold.Proofs.SourceMap.Mappings

  Mappings that are written are read back: numbers are differences on both sides,
  and a digit is neither of the two separators.  Reading puts the segments of each
  line in order, so just those mappings are read back unchanged that are in order
  already and have a line at all; those that were read from any text are.
-/

import FlagFold.Proofs.SourceMap.Vlq
import FlagFold.Proofs.Text.Pieces
import FlagFold.Proofs.World.Steps
import FlagFold.SourceMap.Mappings
import Mathlib.Data.List.Sort

namespace FlagFold.Mappings

/-! ## Segments -/

/-- The last values of each kind behind the segment `s`. -/
def Last.after (last : Last) (s : Segment) : Last :=
  match s.target with
  | none => last
  | some t => ⟨t.source, t.line, t.column, t.name.getD last.name⟩

/-- The numbers that are written for `s`. -/
def differences (last : Last) (generated : Int) (s : Segment) : List Int :=
  match s.target with
  | none => [s.column - generated]
  | some t =>
    [s.column - generated, t.source - last.source, t.line - last.line, t.column - last.column] ++
      t.name.toList.map (· - last.name)

theorem differences_ne_nil (last : Last) (generated : Int) (s : Segment) :
    differences last generated s ≠ [] := by
  unfold differences
  split <;> simp

theorem encodeSegment_eq (last : Last) (generated : Int) (s : Segment) :
    encodeSegment last generated s =
      (Vlq.encodeAll (differences last generated s), last.after s) := by
  obtain ⟨column, _ | ⟨source, line, col, _ | name⟩⟩ := s <;>
    simp [encodeSegment, differences, Last.after, Vlq.encodeAll]

theorem decodeSegment_differences (last : Last) (generated : Int) (written : Text) (s : Segment) :
    decodeSegment last generated written (differences last generated s) =
      .ok (s, last.after s) := by
  -- A difference added to the value before it gives the value back.
  have hundo : ∀ a b : Int, a + (b - a) = b := fun a b => by omega
  obtain ⟨column, _ | ⟨source, line, col, _ | name⟩⟩ := s <;>
    simp [decodeSegment, differences, Last.after, hundo]

/-! ## Lines -/

/-- What `encodeLine` writes for a segment is not empty and holds neither of the separators. -/
theorem of_mem_encodeLine {last : Last} {generated : Int} {line : List Segment} {t : Text}
    (h : t ∈ (encodeLine last generated line).1) : t ≠ [] ∧ t ⊆ Vlq.alphabet := by
  induction line generalizing last generated with
  | nil => simp [encodeLine] at h
  | cons s rest ih =>
    simp only [encodeLine, encodeSegment_eq, List.mem_cons] at h
    rcases h with rfl | h
    · exact ⟨Vlq.encodeAll_ne_nil (differences_ne_nil _ _ _), Vlq.encodeAll_subset_alphabet _⟩
    · exact ih h

theorem decodeLine_encodeLine (last : Last) (generated : Int) (line : List Segment) :
    decodeLine last generated (encodeLine last generated line).1 =
      .ok (line, (encodeLine last generated line).2) := by
  induction line generalizing last generated with
  | nil => rfl
  | cons s rest ih =>
    have hwritten : (Vlq.encodeAll (differences last generated s)).isEmpty = false := by
      simpa using Vlq.encodeAll_ne_nil (differences_ne_nil last generated s)
    simp only [encodeLine, encodeSegment_eq, decodeLine, hwritten, Bool.false_eq_true, if_false,
      Vlq.decodeAll_encodeAll, decodeSegment_differences, bind, Except.bind, ih, pure,
      Except.pure]

/-- `decodeLine` of the pieces between the commas gives back the `line`. -/
theorem decodeLine_splitOn (last : Last) (generated : Int) (line : List Segment) :
    decodeLine last generated
        (Text.splitOn ',' (Text.join (text ",") (encodeLine last generated line).1)) =
      .ok (line, (encodeLine last generated line).2) := by
  cases line with
  -- Without segments the line is one empty piece, which is passed over.
  | nil => rfl
  | cons s rest =>
    have hcomma : CodePoint.ofChar ',' ∉ Vlq.alphabet := by decide +kernel
    have hpieces : (encodeLine last generated (s :: rest)).1 ≠ [] := by simp [encodeLine]
    rw [show text "," = [CodePoint.ofChar ','] from rfl, Text.splitOn_join hpieces
      fun t ht hc => hcomma ((of_mem_encodeLine ht).2 hc), decodeLine_encodeLine]

/-- A line that `encodeLines` writes holds no semicolon. -/
theorem semicolon_not_mem_encodeLines {last : Last} {m : Mappings} {t : Text}
    (h : t ∈ encodeLines last m) : CodePoint.ofChar ';' ∉ t := by
  have hsemicolon : CodePoint.ofChar ';' ∉ text "," ∧ CodePoint.ofChar ';' ∉ Vlq.alphabet := by
    decide +kernel
  induction m generalizing last with
  | nil => simp [encodeLines] at h
  | cons line rest ih =>
    simp only [encodeLines, List.mem_cons] at h
    rcases h with rfl | h
    · intro hc
      rcases Text.mem_or_mem_of_mem_join hc with hc | ⟨t, ht, hc⟩
      · exact hsemicolon.1 hc
      · exact hsemicolon.2 ((of_mem_encodeLine ht).2 hc)
    · exact ih h

/-! ## All lines -/

/-- The segments of `line` in the order of their columns; those of one column keep theirs. -/
def inOrder (line : List Segment) : List Segment := line.mergeSort fun a b => a.column ≤ b.column

theorem pairwise_inOrder (line : List Segment) : (inOrder line).Pairwise (·.column ≤ ·.column) := by
  have hsorted : (inOrder line).Pairwise fun a b => decide (a.column ≤ b.column) = true := by
    apply List.pairwise_mergeSort
    · intro a b c hab hbc
      simp only [decide_eq_true_eq] at *
      omega
    · intro a b
      simp only [Bool.or_eq_true, decide_eq_true_eq]
      omega
  simpa using hsorted

theorem inOrder_of_pairwise {line : List Segment} (h : line.Pairwise (·.column ≤ ·.column)) :
    inOrder line = line :=
  List.mergeSort_of_pairwise (by simpa using h)

theorem decodeLines_encodeLines (last : Last) (m : Mappings) :
    decodeLines last (encodeLines last m) = .ok (m.map inOrder) := by
  induction m generalizing last with
  | nil => rfl
  | cons line rest ih =>
    simp only [encodeLines, decodeLines, decodeLine_splitOn, bind, Except.bind, ih, pure,
      Except.pure, List.map_cons, inOrder]

/-- `decode` gives back what `encode` has written, with the segments of each line `inOrder`, if
there is a line. -/
theorem decode_encode_inOrder {m : Mappings} (hm : m ≠ []) :
    decode (encode m) = .ok (m.map inOrder) := by
  -- No line at all would be written like one empty line.
  have hlines : encodeLines {} m ≠ [] := by
    cases m with
    | nil => exact absurd rfl hm
    | cons line rest => simp [encodeLines]
  rw [encode, decode, show text ";" = [CodePoint.ofChar ';'] from rfl,
    Text.splitOn_join hlines fun t ht => semicolon_not_mem_encodeLines ht]
  exact decodeLines_encodeLines {} m

/-- `decode` gives back what `encode` has written, if there is a line and the segments of each are
in order. -/
theorem decode_encode {m : Mappings} (hm : m ≠ [])
    (h : ∀ line ∈ m, line.Pairwise (·.column ≤ ·.column)) : decode (encode m) = .ok m := by
  have hsame : ∀ line ∈ m, inOrder line = line := fun line hline =>
    inOrder_of_pairwise (h line hline)
  rw [decode_encode_inOrder hm, List.map_congr_left hsame, List.map_id']

/-! ## Mappings that have been read -/

/-- The lines that `decodeLines` gives have their segments in order. -/
theorem pairwise_of_decodeLines {last : Last} {lines : List Text} {m : Mappings}
    (h : decodeLines last lines = .ok m) :
    ∀ line ∈ m, line.Pairwise (·.column ≤ ·.column) := by
  induction lines generalizing last m with
  | nil =>
    cases h
    simp
  | cons line rest ih =>
    obtain ⟨⟨ss, last'⟩, -, h⟩ := exists_of_bind_eq_ok h
    obtain ⟨later, hlater, h⟩ := exists_of_bind_eq_ok h
    cases h
    rw [List.forall_mem_cons]
    exact ⟨pairwise_inOrder ss, ih hlater⟩

/-- `decodeLines` gives as many lines as it is given. -/
theorem length_of_decodeLines {last : Last} {lines : List Text} {m : Mappings}
    (h : decodeLines last lines = .ok m) : m.length = lines.length := by
  induction lines generalizing last m with
  | nil => cases h; rfl
  | cons line rest ih =>
    obtain ⟨⟨ss, last'⟩, -, h⟩ := exists_of_bind_eq_ok h
    obtain ⟨later, hlater, h⟩ := exists_of_bind_eq_ok h
    cases h
    rw [List.length_cons, List.length_cons, ih hlater]

/-- `decode` gives at least one line, and the segments of each are in order. -/
theorem of_decode {t : Text} {m : Mappings} (h : decode t = .ok m) :
    m ≠ [] ∧ ∀ line ∈ m, line.Pairwise (·.column ≤ ·.column) := by
  refine ⟨?_, pairwise_of_decodeLines h⟩
  have hlength := length_of_decodeLines h
  rw [Text.length_splitOn] at hlength
  exact List.ne_nil_of_length_pos (by omega)

/-- `decode` gives back the mappings that `encode` has written just if they have a line and the
segments of each are in order; those that have been decoded from a text are, whatever the text. -/
theorem decode_encode_inverse :
    (∀ m : Mappings, decode (encode m) = .ok m ↔
      m ≠ [] ∧ ∀ line ∈ m, line.Pairwise (·.column ≤ ·.column)) ∧
    ∀ (t : Text) (m : Mappings), decode t = .ok m → decode (encode m) = .ok m := by
  constructor
  · intro m
    constructor
    · exact of_decode
    · rintro ⟨hm, hsorted⟩
      exact decode_encode hm hsorted
  · intro t m h
    obtain ⟨hm, hsorted⟩ := of_decode h
    exact decode_encode hm hsorted

/-- A text whose segments are out of order, two of them at one column, with numbers of either sign:
what is read from it is written differently and read back. -/
theorem decode_encode_inverse_outOfOrder :
    let t := text "IADEG,F,AAMF;;C"
    let m : Mappings := [[⟨2, none⟩, ⟨2, some ⟨0, 5, 0, none⟩⟩, ⟨4, some ⟨0, -1, 2, some 3⟩⟩], [],
      [⟨1, none⟩]]
    decode t = .ok m ∧ encode m ≠ t ∧ decode (encode m) = .ok m := by
  intro t m
  have hwritten : t = encode [[⟨4, some ⟨0, -1, 2, some 3⟩⟩, ⟨2, none⟩,
      ⟨2, some ⟨0, 5, 0, none⟩⟩], [], [⟨1, none⟩]] := by decide +kernel
  have hread : decode t = .ok m := by
    rw [hwritten, decode_encode_inOrder (by simp)]
    simp [m, inOrder, List.mergeSort]
  exact ⟨hread, by decide +kernel, decode_encode_inverse.2 t m hread⟩

end FlagFold.Mappings
