/-
  FlagFold.Proofs.Print.Literal

  The literals that are written for values, and that they are read back.  A value is
  written by two replacements, one after the other, and read by escapes; the
  second replacement leaves what the first has made as it is
  (`StringLiteral.flatMap_encodePoint`), and reading a code point that is written goes
  on behind it (`StringLiteral.decodeFrom_encodePoint`), so that no escape begins in the
  middle of another, whatever stands in the value.
-/

import FlagFold.Print.Render
import FlagFold.Proofs.Tree.StringValue

namespace FlagFold

/-- `t` with `new` in the place of each `old`. -/
def Text.replacePoint (t : Text) (old : CodePoint) (new : Text) : Text :=
  t.flatMap fun c => if c = old then new else [c]

namespace StringLiteral

/-- `encodePoint` over `value` is two replacements: of backslashes first, and then of quotes. -/
theorem flatMap_encodePoint (value : Text) :
    value.flatMap encodePoint =
      (value.replacePoint '\\' (text "\\\\")).replacePoint '\'' (text "\\'") := by
  have hpoint : ∀ c : CodePoint, encodePoint c =
      Text.replacePoint (if c = '\\' then text "\\\\" else [c]) '\'' (text "\\'") := by
    intro c
    by_cases hbackslash : c = '\\'
    · -- There is no quote in the text for a backslash.
      rw [if_pos hbackslash, encodePoint, if_pos (.inl hbackslash), hbackslash]
      rfl
    · rw [if_neg hbackslash, Text.replacePoint, List.flatMap_singleton]
      by_cases hquote : c = '\''
      · rw [if_pos hquote, encodePoint, if_pos (.inr hquote), hquote]
        rfl
      · rw [if_neg hquote, encodePoint, if_neg (not_or.mpr ⟨hbackslash, hquote⟩)]
  rw [funext hpoint]
  exact (List.flatMap_assoc ..).symm

/-- `decodeFrom` reads `encodePoint c` as `c`, and goes on with `rest`. -/
theorem decodeFrom_encodePoint (c : CodePoint) (rest : Text) :
    decodeFrom 0 (encodePoint c ++ rest) = ([c] ++ ·) <$> decodeFrom 0 rest := by
  by_cases hescape : c = '\\' ∨ c = '\''
  · have hmem : (c, c) ∈ singleEscapes := by
      rcases hescape with rfl | rfl <;> decide
    rw [encodePoint, if_pos hescape]
    exact decodeFrom_escape (escape_of_mem_singleEscapes hmem rest) rfl
  · rw [encodePoint, if_neg hescape]
    exact decodeFrom_of_ne_backslash (not_or.mp hescape).1 rest

/-- `decodeFrom` reads the encoded `value` back, and goes on with `rest`. -/
theorem decodeFrom_flatMap_encodePoint (value rest : Text) :
    decodeFrom 0 (value.flatMap encodePoint ++ rest) = (value ++ ·) <$> decodeFrom 0 rest := by
  induction value with
  | nil => simp
  | cons c value ih =>
    rw [List.flatMap_cons, List.append_assoc, decodeFrom_encodePoint, ih]
    cases decodeFrom 0 rest <;> rfl

/-- `decode` reads back what `encode` has written. -/
theorem decode_encode (value : Text) : decode (encode value) = .ok value := by
  have hbody : ((encode value).drop 1).dropLast = value.flatMap encodePoint :=
    List.dropLast_concat
  have hread := decodeFrom_flatMap_encodePoint value []
  rw [List.append_nil] at hread
  rw [decode, hbody, hread]
  simp [decodeFrom]

end StringLiteral

/-- A string node made by a pass, with a `value` but no text of its own, is rendered as the value
between single quotes after its two replacements; and `StringLiteral.decode` reads that as
`value`. -/
theorem Sheet.render_string (sheet : Sheet) {info : Info} (h : info.synthetic) (value : Text) :
    ∃ raw, sheet.render (.mk info (.string value [])) = .ok raw ∧
      raw = text "'" ++
        (value.replacePoint '\\' (text "\\\\")).replacePoint '\'' (text "\\'") ++ text "'" ∧
      StringLiteral.decode raw = .ok value := by
  refine ⟨StringLiteral.encode value, ?_, ?_, StringLiteral.decode_encode value⟩
  · rw [render, if_pos h, generate]
    rfl
  · rw [StringLiteral.encode, StringLiteral.flatMap_encodePoint]

/-- A value with both quotes, two backslashes before one of them, what looks like an escape, a line
break and half of a surrogate pair. -/
theorem Sheet.render_string_looksEscaped :
    let info : Info := { start := 0, stop := 0, synthetic := true }
    let half : CodePoint := ⟨0xD83D, by decide⟩
    let value := text "\"\\\\'\\u0041\\x41\n" ++ [half]
    ∃ raw, (Sheet.ofSource []).render (.mk info (.string value [])) = .ok raw ∧
      raw = text "'\"\\\\\\\\\\'\\\\u0041\\\\x41\n" ++ [half] ++ text "'" ∧
      StringLiteral.decode raw = .ok value := by
  intro info half value
  obtain ⟨raw, hrender, hraw, hdecode⟩ := @Sheet.render_string (Sheet.ofSource []) info rfl value
  exact ⟨raw, hrender, hraw.trans (by decide), hdecode⟩

end FlagFold
