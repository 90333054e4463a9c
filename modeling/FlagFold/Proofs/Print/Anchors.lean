/-
  FlagFold.Proofs.Print.Anchors

  Where the characters of an output come from, and that the anchors of its chunks
  say so: a copied character is as far behind the last anchor at or before it as
  its origin is behind the origin of that anchor, and no line feed lies between.
-/

import FlagFold.Print.Edit
import FlagFold.Proofs.Text.Lines

namespace FlagFold

namespace Text

/-- Of the line starts of `t` at or before `here + n`, the last is `lineStartFrom start here n t`,
the start of the line of that offset. -/
theorem getLast?_lineBreaksFrom (start here n : Nat) (t : Text) (hstart : start ≤ here) :
    ((start :: t.lineBreaksFrom here).filter (· ≤ here + n)).getLast? =
      some (lineStartFrom start here n t) := by
  induction t generalizing start here n with
  | nil =>
    have hle : start ≤ here + n := by omega
    rw [lineBreaksFrom, List.filter_cons_of_pos (by simpa using hle)]
    cases n <;> simp [lineStartFrom]
  | cons c rest ih =>
    have hle : start ≤ here + n := by omega
    cases n with
    | zero =>
      have hlater : (lineBreaksFrom here (c :: rest)).filter (· ≤ here + 0) = [] := by
        simpa using fun x hx => le_of_mem_lineBreaksFrom hx
      rw [List.filter_cons_of_pos (by simpa using hle), hlater, lineStartFrom]
      rfl
    | succ n =>
      have hn : here + (n + 1) = here + 1 + n := by omega
      rw [lineBreaksFrom, lineStartFrom, hn]
      by_cases hc : c.isLineFeed
      · -- A line feed: the new line starts after all before it.
        rw [if_pos hc, if_pos hc, List.filter_cons_of_pos (by simp; omega),
          ← ih _ _ _ (Nat.le_refl _)]
        rw [List.filter_cons_of_pos (by simp)]
        simp
      · rw [if_neg hc, if_neg hc, ih _ _ _ (by omega)]

end Text

namespace Chunk

/-- Where the chunk starts in the source: `some start` for `copied start _`, `none` for inserted
text. -/
def sourceStart? : Chunk → Option Nat
  | copied start _ => some start
  | inserted _ _ => none

/-- The offset in `source` from which the character at `offset` of the output was copied; `none` if
it lies in inserted text. -/
def origin (source : Text) : List Chunk → Nat → Option Nat
  | [], _ => none
  | chunk :: rest, offset =>
    if offset < (chunk.output source).length then chunk.sourceStart?.map (· + offset)
    else origin source rest (offset - (chunk.output source).length)

variable {source : Text}

@[simp] theorem outputs_cons (chunk : Chunk) (rest : List Chunk) :
    outputs source (chunk :: rest) = chunk.output source ++ outputs source rest := by
  rw [outputs, List.flatMap_cons, outputs]

/-- If `origin` gives `s` for `o`, the output has at `o` the character that `source` has at `s`. -/
theorem getElem?_of_origin {chunks : List Chunk} {o s : Nat}
    (h : origin source chunks o = some s) :
    (outputs source chunks)[o]? = source[s]? ∧ o < (outputs source chunks).length := by
  induction chunks generalizing o with
  | nil => simp [origin] at h
  | cons chunk rest ih =>
    rw [origin] at h
    rw [outputs_cons, List.length_append]
    by_cases ho : o < (chunk.output source).length
    · rw [if_pos ho] at h
      rw [List.getElem?_append_left ho]
      refine ⟨?_, by omega⟩
      cases chunk with
      | inserted => cases h
      | copied start stop =>
        cases h
        rw [output, Text.length_slice] at ho
        rw [output, Text.getElem?_slice, if_pos (by omega)]
    · rw [if_neg ho] at h
      rw [List.getElem?_append_right (by omega)]
      obtain ⟨hchar, hlt⟩ := ih h
      exact ⟨hchar, by omega⟩

/-- The anchors that `chunk` adds when it comes at `offset` of the output: its start, and if it is
copied, each line start in it. -/
def ownAnchors (source : Text) (offset : Nat) (chunk : Chunk) : List (Nat × Nat) :=
  match chunk with
  | copied start _ =>
    (offset, start) ::
      (innerLineStarts 0 (chunk.output source)).map fun i => (offset + i, start + i)
  | inserted start _ => [(offset, start)]

theorem anchorsFrom_cons (offset : Nat) (chunk : Chunk) (rest : List Chunk) :
    anchorsFrom source offset (chunk :: rest) =
      ownAnchors source offset chunk ++
        anchorsFrom source (offset + (chunk.output source).length) rest := rfl

/-- The anchors of `chunk` lie between `offset` and the end of its output. -/
theorem of_mem_ownAnchors {offset : Nat} {chunk : Chunk} {p : Nat × Nat}
    (h : p ∈ ownAnchors source offset chunk) :
    offset ≤ p.1 ∧ p.1 ≤ offset + (chunk.output source).length := by
  cases chunk with
  | inserted start t =>
    rw [ownAnchors, List.mem_singleton] at h
    rw [h]
    simp
  | copied start stop =>
    rw [ownAnchors, List.mem_cons, List.mem_map] at h
    rcases h with rfl | ⟨i, hi, rfl⟩
    · simp
    · rw [innerLineStarts, List.mem_filter] at hi
      have := of_decide_eq_true hi.2
      simp only
      omega

theorem le_of_mem_anchorsFrom {offset : Nat} {chunks : List Chunk} {p : Nat × Nat}
    (h : p ∈ anchorsFrom source offset chunks) : offset ≤ p.1 := by
  induction chunks generalizing offset with
  | nil => simp [anchorsFrom] at h
  | cons chunk rest ih =>
    rw [anchorsFrom_cons, List.mem_append] at h
    rcases h with h | h
    · exact (of_mem_ownAnchors h).1
    · have := ih h
      omega

/-- `lineBreaksFrom` lists its offsets in strictly increasing order. -/
theorem pairwise_lineBreaksFrom (offset : Nat) (t : Text) :
    (t.lineBreaksFrom offset).Pairwise (· < ·) := by
  induction t generalizing offset with
  | nil => exact List.Pairwise.nil
  | cons c rest ih =>
    rw [Text.lineBreaksFrom]
    split
    · exact List.pairwise_cons.mpr ⟨fun x hx => Text.le_of_mem_lineBreaksFrom hx, ih _⟩
    · exact ih _

/-- `anchorsFrom` lists the anchors in the order of the output. -/
theorem pairwise_anchorsFrom (source : Text) (offset : Nat) (chunks : List Chunk) :
    (anchorsFrom source offset chunks).Pairwise (·.1 ≤ ·.1) := by
  induction chunks generalizing offset with
  | nil => exact List.Pairwise.nil
  | cons chunk rest ih =>
    rw [anchorsFrom_cons, List.pairwise_append]
    refine ⟨?_, ih _, fun p hp q hq =>
      Nat.le_trans (of_mem_ownAnchors hp).2 (le_of_mem_anchorsFrom hq)⟩
    cases chunk with
    | inserted start t => exact List.pairwise_singleton _ _
    | copied start stop =>
      rw [ownAnchors, List.pairwise_cons]
      refine ⟨?_, ?_⟩
      · intro p hp
        obtain ⟨i, -, rfl⟩ := List.mem_map.mp hp
        exact Nat.le_add_right _ _
      · rw [List.pairwise_map, innerLineStarts]
        exact ((pairwise_lineBreaksFrom _ _).filter _).imp fun h => by simp; omega

/-- For a character at `o` of a copied chunk, the last of `ownAnchors` at or before it is that of
the start of its line within the chunk. -/
theorem lastOwnAnchor {start stop o : Nat} (offset : Nat)
    (ho : o < ((copied start stop).output source).length) :
    let line := ((copied start stop).output source).lineStart o
    ((ownAnchors source offset (copied start stop)).filter (·.1 ≤ offset + o)).getLast? =
      some (offset + line, start + line) := by
  have hown : ownAnchors source offset (copied start stop) =
      (0 :: innerLineStarts 0 ((copied start stop).output source)).map
        fun i => (offset + i, start + i) := rfl
  -- A line start at the end of the chunk is no anchor, but is behind the character anyway.
  have hcut : (innerLineStarts 0 ((copied start stop).output source)).filter (· ≤ o) =
      (((copied start stop).output source).lineBreaksFrom 0).filter (· ≤ o) := by
    rw [innerLineStarts, List.filter_filter]
    apply List.filter_congr
    intro i _
    simp only [Nat.zero_add, Bool.and_eq_left_iff_imp, decide_eq_true_eq]
    omega
  have hlast := Text.getLast?_lineBreaksFrom 0 0 o ((copied start stop).output source)
    (Nat.le_refl _)
  rw [hown, List.filter_map, List.getLast?_map]
  have hfilter : ((fun p : Nat × Nat => decide (p.1 ≤ offset + o)) ∘
      fun i => (offset + i, start + i)) = fun i => decide (i ≤ o) := by
    funext i
    simp
  rw [hfilter, List.filter_cons_of_pos (by simp), hcut,
    ← List.filter_cons_of_pos (p := fun i => decide (i ≤ o)) (by simp)]
  rw [Nat.zero_add] at hlast
  rw [hlast]
  rfl

/-- For an output offset `o` copied from `s`, the last anchor `(offset + a, b)` at or before it is
on the same line of both texts, and `s` is as far from `b` as `o` is from `a`. -/
theorem lastAnchor_of_origin {chunks : List Chunk} {o s : Nat}
    (h : origin source chunks o = some s) (offset : Nat) :
    ∃ a b, ((anchorsFrom source offset chunks).filter (·.1 ≤ offset + o)).getLast? =
        some (offset + a, b) ∧
      a ≤ o ∧ s = b + (o - a) ∧ (∀ c ∈ source.slice b s, ¬ c.isLineFeed) ∧
      (outputs source chunks).slice a o = source.slice b s := by
  induction chunks generalizing o offset with
  | nil => simp [origin] at h
  | cons chunk rest ih =>
    rw [origin] at h
    rw [anchorsFrom_cons, List.filter_append, outputs_cons]
    by_cases ho : o < (chunk.output source).length
    · rw [if_pos ho] at h
      cases chunk with
      | inserted => cases h
      | copied start stop =>
        obtain rfl : start + o = s := by simpa [sourceStart?] using h
        -- The anchors of later chunks are all behind the character.
        have hlater : (anchorsFrom source (offset + ((copied start stop).output source).length)
            rest).filter (·.1 ≤ offset + o) = [] := by
          rw [List.filter_eq_nil_iff]
          intro p hp
          have := le_of_mem_anchorsFrom hp
          simp only [decide_eq_true_eq]
          omega
        rw [hlater, List.append_nil, lastOwnAnchor offset ho]
        have hstart := ((copied start stop).output source).lineStart_le o
        have hslice : ((copied start stop).output source).slice
            (((copied start stop).output source).lineStart o) o =
            source.slice (start + ((copied start stop).output source).lineStart o)
              (start + o) := by
          rw [output, Text.length_slice] at ho
          rw [output, Text.slice_slice source (by omega)]
        refine ⟨_, _, rfl, hstart, by omega, ?_, ?_⟩
        · rw [← hslice]
          exact Text.no_lineFeed_of_mem_slice_lineStart
        · rw [← hslice, Text.slice_append_left _ (Nat.le_of_lt ho)]
    · rw [if_neg ho] at h
      obtain ⟨a, b, hlast, ha, hs, hno, hslice⟩ :=
        ih h (offset + (chunk.output source).length)
      -- The rest of the output starts behind this chunk.
      have ho' : offset + (chunk.output source).length + (o - (chunk.output source).length) =
          offset + o := by omega
      rw [ho'] at hlast
      refine ⟨(chunk.output source).length + a, b, ?_, by omega, by omega, hno, ?_⟩
      · rw [List.getLast?_append, hlast, ← Nat.add_assoc]
        rfl
      · have h' := Text.slice_append_right (chunk.output source) (outputs source rest) a
          (o - (chunk.output source).length)
        rw [Nat.add_sub_cancel' (by omega)] at h'
        rw [← hslice, h']

end Chunk
end FlagFold
