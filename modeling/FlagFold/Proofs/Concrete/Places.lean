/-
  FlagFold.Proofs.Concrete.Places

  Places in a source, counted in three ways: a parser counts bytes, and lines and the
  bytes on them by the line feeds among the bytes; a tree has offsets, lines and columns
  of code points; and the lines of a text are found in the text itself.  At the start of
  a code point all agree.

  Where lines start is known for texts.  Bytes are read as a text, one code point a byte,
  so that it is known for them as well (`lineBytesFrom_eq`); and the lines of a text start
  at the byte offsets of the places at which they start in the text
  (`lineBytesFrom_eq_map`).
-/

import FlagFold.Proofs.Concrete.Faults
import FlagFold.Proofs.Text.Lines
import FlagFold.Proofs.Text.Offsets

namespace FlagFold

/-! ## Line feeds among bytes -/

/-- The row and the column of `byte`, as a parser counts them: the line feeds before it, and the
bytes since the last one. -/
def bytePoint (bytes : List UInt8) (byte : Nat) : Text.Position where
  line := (bytes.take byte).count 0x0A
  column := ((bytes.take byte).reverse.takeWhile (· ≠ 0x0A)).length

/-- `bytes` as a text, one code point a byte. -/
def Text.ofBytes (bytes : List UInt8) : Text :=
  bytes.map fun b => ⟨b.toNat, Nat.lt_trans b.toNat_lt (by decide)⟩

/-- Only the line feed has the byte `0x0A` in its UTF-8 form. -/
theorem CodePoint.not_mem_utf8 {c : CodePoint} (h : ¬ c.isLineFeed) : (0x0A : UInt8) ∉ c.utf8 := by
  have hvalue : c.value ≠ 0x0A := fun hc =>
    h (decide_eq_true (CodePoint.ext hc : c = CodePoint.ofChar '\n'))
  have hbyte : ∀ n : Nat, n < 0x100 → n ≠ 0x0A → (0x0A : UInt8) ≠ n.toUInt8 := by
    intro n hn hne heq
    have htoNat : 0x0A = n % 2 ^ 8 := congrArg UInt8.toNat heq
    omega
  have hlt := c.isLt
  unfold utf8
  dsimp only
  split_ifs <;> simp only [List.mem_cons, List.not_mem_nil, or_false, not_or] <;>
    repeat' apply And.intro
  all_goals exact hbyte _ (by omega) (by omega)

namespace Text

theorem ofBytes_append (as bs : List UInt8) : ofBytes (as ++ bs) = ofBytes as ++ ofBytes bs :=
  List.map_append

/-- The code point of the byte `b` is a line feed just if `b` is `0x0A`. -/
theorem isLineFeed_ofBytes (b : UInt8) :
    CodePoint.isLineFeed ⟨b.toNat, Nat.lt_trans b.toNat_lt (by decide)⟩ = (b == 0x0A) := by
  rw [Bool.eq_iff_iff, beq_iff_eq, ← UInt8.toNat_inj]
  simp only [CodePoint.isLineFeed, decide_eq_true_eq, CodePoint.ext_iff]
  rfl

/-- The column of `o` is the number of code points since the last line feed. -/
theorem column_eq_takeWhile {t : Text} {o : Nat} (h : o ≤ t.length) :
    (t.position o).column = ((t.take o).reverse.takeWhile (!·.isLineFeed)).length := by
  have htake : t.take o = t.take (t.lineStart o) ++ t.slice (t.lineStart o) o :=
    (take_append_slice t (t.lineStart_le o)).symm
  have hslice : ∀ c ∈ (t.slice (t.lineStart o) o).reverse, (!c.isLineFeed) = true := by
    intro c hc
    simpa using no_lineFeed_of_mem_slice_lineStart c (List.mem_reverse.mp hc)
  have hbefore : (t.take (t.lineStart o)).reverse.takeWhile (!·.isLineFeed) = [] := by
    rcases t.lineStart_spec o with ⟨hstart, -⟩ | ⟨i, hi, hstart, hfeed, -⟩
    · rw [hstart, List.take_zero, List.reverse_nil, List.takeWhile_nil]
    · rw [hstart, List.take_add_one]
      cases hc : t[i]? with
      | none =>
        rw [hc] at hfeed
        cases hfeed
      | some c =>
        rw [hc, Option.any_some] at hfeed
        rw [Option.toList_some, List.reverse_concat, List.takeWhile_cons_of_neg (by simp [hfeed])]
  rw [position_eq, htake, List.reverse_append, List.takeWhile_append_of_pos hslice, hbefore,
    List.append_nil, List.length_reverse, length_slice, Nat.min_eq_left h]

theorem position_ofBytes {bytes : List UInt8} {byte : Nat} (h : byte ≤ bytes.length) :
    (ofBytes bytes).position byte = bytePoint bytes byte := by
  have hlength : byte ≤ (ofBytes bytes).length := by rwa [ofBytes, List.length_map]
  have htake : (ofBytes bytes).take byte = ofBytes (bytes.take byte) := (List.map_take ..).symm
  have hline : ((ofBytes bytes).position byte).line = (bytePoint bytes byte).line := by
    rw [position_eq, htake, ofBytes, List.countP_map]
    exact List.countP_congr fun b _ => by rw [Function.comp_apply, isLineFeed_ofBytes]
  have hcolumn : ((ofBytes bytes).position byte).column = (bytePoint bytes byte).column := by
    rw [column_eq_takeWhile hlength, htake, ofBytes, ← List.map_reverse, List.takeWhile_map,
      List.length_map, bytePoint]
    congr 2
    funext b
    rw [Function.comp_apply, isLineFeed_ofBytes, ← bne]
    exact Bool.eq_iff_iff.mpr (by simp)
  cases hp : (ofBytes bytes).position byte with
  | mk line column =>
    rw [hp] at hline hcolumn
    subst hline hcolumn
    rfl

theorem lineBreaksFrom_append (offset : Nat) (t u : Text) :
    lineBreaksFrom offset (t ++ u) =
      lineBreaksFrom offset t ++ lineBreaksFrom (offset + t.length) u := by
  induction t generalizing offset with
  | nil => rfl
  | cons c rest ih =>
    have hoffset : offset + 1 + rest.length = offset + (c :: rest).length := by
      rw [List.length_cons]
      omega
    rw [List.cons_append, lineBreaksFrom, ih, hoffset, lineBreaksFrom]
    split <;> rfl

theorem lineBreaksFrom_of_no_lineFeed {t : Text} (h : ∀ c ∈ t, ¬ c.isLineFeed) (offset : Nat) :
    lineBreaksFrom offset t = [] := by
  induction t generalizing offset with
  | nil => rfl
  | cons c rest ih =>
    rw [List.forall_mem_cons] at h
    rw [lineBreaksFrom, if_neg h.1, ih h.2]

/-- The bytes of `c` have a line break behind them just if `c` is a line feed. -/
theorem lineBreaksFrom_utf8 (offset : Nat) (c : CodePoint) :
    lineBreaksFrom offset (ofBytes c.utf8) =
      if c.isLineFeed then [offset + c.utf8Length] else [] := by
  split
  case isTrue h =>
    obtain rfl : c = CodePoint.ofChar '\n' := of_decide_eq_true h
    rfl
  case isFalse h =>
    apply lineBreaksFrom_of_no_lineFeed
    intro d hd
    obtain ⟨b, hb, rfl⟩ := List.mem_map.mp hd
    rw [isLineFeed_ofBytes, beq_iff_eq]
    rintro rfl
    exact CodePoint.not_mem_utf8 h hb

theorem mem_lineBreaksFrom_le {offset x : Nat} {t : Text} (h : x ∈ t.lineBreaksFrom offset) :
    x ≤ offset + t.length := by
  induction t generalizing offset with
  | nil => cases h
  | cons c rest ih =>
    have hlength : offset + (c :: rest).length = offset + 1 + rest.length := by
      rw [List.length_cons]
      omega
    rw [hlength]
    rw [lineBreaksFrom] at h
    split at h
    · rcases List.mem_cons.mp h with rfl | h
      · exact Nat.le_add_right _ _
      · exact ih h
    · exact ih h

/-- If `f` keeps the order of line starts and `o`, `positionFrom` of the mapped offsets has the same
line, and its column is the distance of `f o` from where its line starts. -/
theorem positionFrom_map {f : Nat → Nat} {o line start : Nat} {starts : List Nat}
    (hstarts : ∀ s ∈ starts, f s ≤ f o ↔ s ≤ o) (hstart : start ≤ o) :
    positionFrom (f o) line (f start) (starts.map f) =
      ⟨(positionFrom o line start starts).line,
        f o - f (o - (positionFrom o line start starts).column)⟩ := by
  induction starts generalizing line start with
  | nil =>
    rw [List.map_nil, positionFrom, positionFrom]
    simp only [Nat.sub_sub_self hstart]
  | cons next rest ih =>
    rw [List.forall_mem_cons] at hstarts
    rw [List.map_cons, positionFrom, positionFrom]
    by_cases hnext : next ≤ o
    · rw [if_pos (hstarts.1.mpr hnext), if_pos hnext]
      exact ih hstarts.2 hnext
    · rw [if_neg (hstarts.1.not.mpr hnext), if_neg hnext]
      simp only [Nat.sub_sub_self hstart]

end Text

namespace SourceIndex

/-! ## Lines of a source -/

/-- `lineBytesFrom` lists the offsets behind the line feeds among the bytes of `t`. -/
theorem lineBytesFrom_eq (offset : Nat) (t : Text) :
    lineBytesFrom offset t = (Text.ofBytes (t.flatMap CodePoint.utf8)).lineBreaksFrom offset := by
  induction t generalizing offset with
  | nil => rfl
  | cons c rest ih =>
    have hlength : (Text.ofBytes c.utf8).length = c.utf8Length := by
      rw [Text.ofBytes, List.length_map, c.length_utf8]
    rw [List.flatMap_cons, Text.ofBytes_append, Text.lineBreaksFrom_append, hlength,
      Text.lineBreaksFrom_utf8, lineBytesFrom]
    split <;> rw [ih] <;> rfl

/-- `bytePosition` counts rows and columns of bytes as `bytePoint` does. -/
theorem bytePosition_ofText (t : Text) {byte : Nat} (h : byte ≤ t.utf8Length) :
    (ofText t).bytePosition byte = bytePoint (t.flatMap CodePoint.utf8) byte := by
  rw [← t.length_flatMap_utf8] at h
  rw [← Text.position_ofBytes h, Text.position, Text.lineStarts, ← lineBytesFrom_eq]
  rfl

/-- `lineBytesFrom` lists the byte offsets of the line starts of `t`; `first` is the offset of its
first code point. -/
theorem lineBytesFrom_eq_map (offset first : Nat) (t : Text) :
    lineBytesFrom offset t =
      (t.lineBreaksFrom first).map fun i => offset + t.byteOffset (i - first) := by
  induction t generalizing offset first with
  | nil => rfl
  | cons c rest ih =>
    have hrest : lineBytesFrom (offset + c.utf8Length) rest =
        (Text.lineBreaksFrom (first + 1) rest).map fun i =>
          offset + Text.byteOffset (c :: rest) (i - first) := by
      rw [ih _ (first + 1)]
      apply List.map_congr_left
      intro i hi
      have hlt := Text.le_of_mem_lineBreaksFrom hi
      have hsucc : i - first = i - (first + 1) + 1 := by omega
      rw [hsucc, Text.byteOffset_succ, Nat.add_assoc]
    rw [lineBytesFrom, Text.lineBreaksFrom, hrest]
    split
    · rw [List.map_cons, Nat.add_sub_cancel_left, Text.byteOffset_succ, Text.byteOffset_zero]
      rfl
    · rfl

/-- At the start of a code point `bytePosition` has its line, and as its column the distance from
the byte at which the line starts. -/
theorem bytePosition_byteOffset {t : Text} {i : Nat} (h : i ≤ t.length) :
    (ofText t).bytePosition (t.byteOffset i) =
      ⟨(t.position i).line, t.byteOffset i - t.byteOffset (i - (t.position i).column)⟩ := by
  have hlines : lineBytesFrom 0 t = (t.lineBreaksFrom 0).map t.byteOffset := by
    simpa using lineBytesFrom_eq_map 0 0 t
  have hstarts : ∀ s ∈ t.lineBreaksFrom 0, t.byteOffset s ≤ t.byteOffset i ↔ s ≤ i := by
    intro s hs
    have hle := Text.mem_lineBreaksFrom_le hs
    exact Text.byteOffset_le_iff (by omega) h
  have hmap : Text.positionFrom (t.byteOffset i) 0 (t.byteOffset 0)
      ((t.lineBreaksFrom 0).map t.byteOffset) = _ :=
    Text.positionFrom_map hstarts (Nat.zero_le i)
  rw [Text.byteOffset_zero, ← hlines] at hmap
  exact hmap

/-- `toChar` turns the byte offset of a code point into its offset. -/
theorem toChar_byteOffset {t : Text} {i : Nat} (h : i ≤ t.length) :
    (ofText t).toChar (t.byteOffset i) = i :=
  Text.toChar_byteOffset h

/-- `column` of the byte offset of a code point is its column, counted from one. -/
theorem column_byteOffset {t : Text} {i : Nat} (h : i ≤ t.length) :
    (ofText t).column (t.byteOffset i) = (t.position i).column + 1 := by
  have hcolumn : (t.position i).column ≤ i := by
    rw [Text.position_eq]
    exact Nat.sub_le _ _
  have hle : t.byteOffset (i - (t.position i).column) ≤ t.byteOffset i :=
    (Text.byteOffset_le_iff (by omega) h).mpr (Nat.sub_le _ _)
  rw [column, bytePosition_byteOffset h]
  dsimp only
  rw [Nat.sub_sub_self hle, toChar_byteOffset h, toChar_byteOffset (by omega),
    Nat.sub_sub_self hcolumn]

end SourceIndex

/-! ## Nodes and problems -/

/-- If `node` starts with the code point at `i`, its `info` has the place of that. -/
theorem Concrete.info_of_start {t : Text} {i : Nat} (h : i ≤ t.length) {node : Concrete}
    (hstart : node.start = t.byteOffset i) :
    let info := node.info (SourceIndex.ofText t)
    info.start = i ∧ info.line = (t.position i).line + 1 ∧
      info.column = (t.position i).column + 1 := by
  refine ⟨?_, ?_, ?_⟩
  · rw [info, hstart, SourceIndex.toChar_byteOffset h]
  · rw [info, hstart, SourceIndex.bytePosition_byteOffset h]
  · rw [info, hstart, SourceIndex.column_byteOffset h]

/-- If `fault` starts with the code point at `i`, the problem of it has the place of that. -/
theorem Problem.ofFault_of_start {t : Text} {i : Nat} (h : i ≤ t.length) {fault : Concrete}
    (hstart : fault.start = t.byteOffset i) :
    let problem := Problem.ofFault (SourceIndex.ofText t) fault
    problem.line = (t.position i).line + 1 ∧ problem.column = (t.position i).column + 1 :=
  (Concrete.info_of_start h hstart).2

/-- If `t` can be written in UTF-8, `toChar` turns the byte offset of a code point into its offset,
and keeps the order of byte offsets: each comes to the number of places before it at which a code
point starts or the text ends, for which ASCII text needs no table. Rows and columns of bytes are
counted by the line feeds among the bytes. A node that starts with a code point has the offset, the
line and the column of that code point, and `Problem.ofFault` has the same line and column. -/
theorem place_of_byteOffset {t : Text} {bytes : List UInt8} (h : t.utf8? = some bytes) :
    let index := SourceIndex.ofText t
    (∀ i ≤ t.length, ∃ before, Text.utf8? (t.take i) = some before ∧ before <+: bytes ∧
      before.length = t.byteOffset i ∧ index.toChar before.length = i) ∧
    Monotone index.toChar ∧
    (∀ byte, t.tableOffsets.toChar byte = t.startsBefore byte) ∧
    (t.isAscii → ∀ byte ≤ bytes.length, index.toChar byte = t.tableOffsets.toChar byte) ∧
    (∀ byte ≤ bytes.length, index.bytePosition byte = bytePoint bytes byte) ∧
    (∀ i ≤ t.length, ∀ node : Concrete, node.start = t.byteOffset i →
      (node.info index).start = i ∧ (node.info index).line = (t.position i).line + 1 ∧
        (node.info index).column = (t.position i).column + 1) ∧
    (∀ trees language root known file, concreteTree trees language t = some (root, known) →
      root.hasFault → ∃ problems,
        parseModule trees t language.name file = .error (.unparsable ⟨file, some problems⟩) ∧
        List.Forall₂ (fun fault problem => ∀ i ≤ t.length, fault.start = t.byteOffset i →
          problem.line = (t.position i).line + 1 ∧ problem.column = (t.position i).column + 1)
          root.faults problems) := by
  intro index
  obtain ⟨hwhole, rfl⟩ := Text.utf8?_eq_some_iff.mp h
  rw [t.length_flatMap_utf8]
  refine ⟨fun i hi => ?_, t.toChar_mono, t.toChar_tableOffsets, fun _ byte hbyte => ?_,
    fun byte hbyte => SourceIndex.bytePosition_ofText t hbyte,
    fun i hi node hstart => Concrete.info_of_start hi hstart, ?_⟩
  · have hbefore : Text.utf8? (t.take i) = some ((t.take i).flatMap CodePoint.utf8) :=
      Text.utf8?_eq_some_iff.mpr ⟨fun c hc => hwhole c (List.mem_of_mem_take hc), rfl⟩
    have hlength : ((t.take i).flatMap CodePoint.utf8).length = t.byteOffset i :=
      Text.length_flatMap_utf8 _
    have hprefix : (t.take i).flatMap CodePoint.utf8 <+: t.flatMap CodePoint.utf8 :=
      ⟨(t.drop i).flatMap CodePoint.utf8, by rw [← List.flatMap_append, List.take_append_drop]⟩
    refine ⟨_, hbefore, hprefix, hlength, ?_⟩
    rw [hlength, SourceIndex.toChar_byteOffset hi]
  · exact (Text.toChar_offsets hbyte).trans (t.toChar_tableOffsets byte).symm
  · intro trees language root known file htree hfault
    refine ⟨_, (parseModule_eq_unparsable_iff htree file _).mpr ⟨hfault, rfl⟩, ?_⟩
    rw [List.forall₂_map_right_iff]
    exact List.forall₂_same.mpr fun fault _ i hi hstart => Problem.ofFault_of_start hi hstart

/-- In a text with code points of all lengths and two kinds of line ends, a fault behind a euro
sign. -/
theorem place_of_byteOffset_allLengths :
    let t := text "é\r\n€😀\nb"
    let fault : Concrete := { kind := "ERROR", start := 7, stop := 11 }
    let root : Concrete := { kind := "program", start := 0, stop := 13, children := [fault] }
    t.utf8?.isSome ∧ (fault.info (SourceIndex.ofText t)).start = 4 ∧
      (∃ problem, parseModule [(t, root)] t Language.javascript.name [] =
          .error (.unparsable ⟨[], some [problem]⟩) ∧ problem.line = 2 ∧ problem.column = 2) ∧
      bytePoint (t.flatMap CodePoint.utf8) 7 = ⟨1, 3⟩ := by
  intro t fault root
  have hbytes : t.utf8? = some (t.flatMap CodePoint.utf8) :=
    Text.utf8?_eq_some_iff.mpr ⟨by decide, rfl⟩
  have htree : concreteTree [(t, root)] .javascript t = some (root, true) := by
    simp [concreteTree]
  obtain ⟨-, -, -, -, hpoint, hinfo, hproblems⟩ := place_of_byteOffset hbytes
  obtain ⟨problems, hparse, hall⟩ := hproblems _ _ _ _ [] htree (by decide)
  have hfaults : root.faults = [fault] := rfl
  rw [hfaults] at hall
  obtain ⟨problem, rest, hproblem, hrest, rfl⟩ := List.forall₂_cons_left_iff.mp hall
  obtain rfl := List.forall₂_nil_left_iff.mp hrest
  obtain ⟨hline, hcolumn⟩ := hproblem 4 (by decide) (by decide)
  have hposition : t.position 4 = ⟨1, 1⟩ := by decide
  rw [hposition] at hline hcolumn
  refine ⟨by rw [hbytes]; rfl, (hinfo 4 (by decide) fault (by decide)).1,
    ⟨problem, hparse, hline, hcolumn⟩, ?_⟩
  rw [← hpoint 7 (by decide)]
  decide

end FlagFold
