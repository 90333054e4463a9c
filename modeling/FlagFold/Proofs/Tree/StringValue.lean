/-
  FlagFold.Proofs.Tree.StringValue

  String literals as the grammar of ECMAScript has them, each with its value: a list of
  UTF-16 code units.  A value that is decoded is a text of code points instead, so that an
  escape for half of a surrogate pair is a code point of its own; in UTF-16 both are the
  same (`decode_of_isLiteral`).

  The rules of the grammar are those of `Part`, one for each way to write a part of a
  literal. What follows a part is in its rule where the grammar looks ahead. Left out are
  the escapes that only sloppy code may have, octal ones and `\8` and `\9`.
-/

import FlagFold.Tree.StringLiteral
import Mathlib.Algebra.Group.Nat.Defs
import Mathlib.Data.List.Induction

namespace FlagFold

/-! ## UTF-16 -/

/-- The code units of the code point with the number `n`; half of a surrogate pair is one by
itself. -/
def utf16Units (n : Nat) : List UInt16 :=
  if n < 0x10000 then [n.toUInt16]
  else [(0xD800 + (n - 0x10000) / 0x400).toUInt16, (0xDC00 + (n - 0x10000) % 0x400).toUInt16]

/-- The code units of `t`. -/
def Text.utf16 (t : Text) : List UInt16 := t.flatMap fun c => utf16Units c.value

namespace StringLiteral

/-! ## The grammar -/

/-- A hexadecimal number, its highest digit first. -/
inductive HexDigits : Text → Nat → Prop where
  | one {c : CodePoint} {d : Nat} (hc : c.hexValue? = some d) : HexDigits [c] d
  | more {digits : Text} {n : Nat} {c : CodePoint} {d : Nat} (h : HexDigits digits n)
      (hc : c.hexValue? = some d) : HexDigits (digits ++ [c]) (16 * n + d)

/-- The escapes of one character that stand for a character. -/
def singleEscapes : List (CodePoint × CodePoint) :=
  [('\'', '\''), ('"', '"'), ('\\', '\\'), ('b', '\x08'), ('f', '\x0c'), ('n', '\n'), ('r', '\r'),
    ('t', '\t'), ('v', '\x0b')]

/-- What ends a line. -/
def lineTerminators : List Text :=
  [text "\n", text "\r", text "\u2028", text "\u2029", text "\r\n"]

/-- `c` has no escape of the kind that stands for the code point itself, line terminators apart. -/
def isEscapeCharacter (c : CodePoint) : Bool :=
  (singleEscapes.map (·.1)).contains c || c.isDigit || c = 'x' || c = 'u'

/-- A part of a literal in quotes: the text from its start on, its value, and the text behind it. -/
inductive Part (quote : CodePoint) : Text → List UInt16 → Text → Prop where
  | plain {c : CodePoint} {rest : Text} (hquote : c ≠ quote) (hbackslash : c ≠ '\\')
      (hline : c ≠ '\n' ∧ c ≠ '\r') : Part quote (c :: rest) (utf16Units c.value) rest
  | single {e c : CodePoint} {rest : Text} (h : (e, c) ∈ singleEscapes) :
      Part quote ('\\' :: e :: rest) [c.value.toUInt16] rest
  | itself {e : CodePoint} {rest : Text} (h : ¬ isEscapeCharacter e)
      (hline : [e] ∉ lineTerminators) :
      Part quote ('\\' :: e :: rest) (utf16Units e.value) rest
  | null {rest : Text} (h : ∀ d ∈ rest.head?, ¬ d.isDigit) :
      Part quote ('\\' :: CodePoint.ofChar '0' :: rest) [0] rest
  | hexEscape {digits rest : Text} {n : Nat} (h : HexDigits digits n)
      (hlength : digits.length = 2) :
      Part quote ('\\' :: CodePoint.ofChar 'x' :: (digits ++ rest)) [n.toUInt16] rest
  | unicodeEscape {digits rest : Text} {n : Nat} (h : HexDigits digits n)
      (hlength : digits.length = 4) :
      Part quote ('\\' :: CodePoint.ofChar 'u' :: (digits ++ rest)) [n.toUInt16] rest
  | codePointEscape {digits rest : Text} {n : Nat} (h : HexDigits digits n) (hn : n ≤ 0x10FFFF) :
      Part quote ('\\' :: CodePoint.ofChar 'u' :: CodePoint.ofChar '\x7b' ::
        (digits ++ CodePoint.ofChar '\x7d' :: rest)) (utf16Units n) rest
  | continuation {terminator rest : Text} (h : terminator ∈ lineTerminators)
      (hlong : terminator = text "\r" → rest.head? ≠ some (CodePoint.ofChar '\n')) :
      Part quote ('\\' :: (terminator ++ rest)) [] rest

/-- What stands between the quotes of a literal, and its value. -/
inductive Parts (quote : CodePoint) : Text → List UInt16 → Prop where
  | nil : Parts quote [] []
  | cons {t rest : Text} {units more : List UInt16} (h : Part quote t units rest)
      (hrest : Parts quote rest more) : Parts quote t (units ++ more)

/-- A string literal and its value. -/
def IsLiteral (raw : Text) (units : List UInt16) : Prop :=
  ∃ quote body, quote ∈ [CodePoint.ofChar '\'', CodePoint.ofChar '"'] ∧
    raw = quote :: (body ++ [quote]) ∧ Parts quote body units

/-! ## Hexadecimal numbers -/

theorem lt_of_hexValue? {c : CodePoint} {d : Nat} (h : c.hexValue? = some d) : d < 16 := by
  unfold CodePoint.hexValue? at h
  split_ifs at h <;> cases h <;> omega

theorem hexNumber_concat (digits : Text) (c : CodePoint) :
    hexNumber (digits ++ [c]) = 16 * hexNumber digits + c.hexValue?.getD 0 := by
  rw [hexNumber, List.foldl_append, Nat.mul_comm]
  rfl

/-- `HexDigits` says that `digits` are hexadecimal, at least one, and that `hexNumber` gives `n` for
them. -/
theorem hexDigits_iff {digits : Text} {n : Nat} :
    HexDigits digits n ↔
      digits ≠ [] ∧ (∀ c ∈ digits, c.hexValue?.isSome) ∧ hexNumber digits = n := by
  constructor
  · intro h
    induction h with
    | one hc => simp [hexNumber, hc]
    | more h hc ih =>
      obtain ⟨-, hall, hn⟩ := ih
      refine ⟨by simp, List.forall_mem_append.mpr ⟨hall, by simp [hc]⟩, ?_⟩
      rw [hexNumber_concat, hn, hc]
      rfl
  · rintro ⟨hne, hall, rfl⟩
    induction digits using List.reverseRecOn with
    | nil => exact absurd rfl hne
    | append_singleton digits c ih =>
      rw [List.forall_mem_append, List.forall_mem_singleton] at hall
      obtain ⟨d, hd⟩ := Option.isSome_iff_exists.mp hall.2
      rw [hexNumber_concat, hd]
      cases digits with
      | nil => simpa [hexNumber] using HexDigits.one hd
      | cons first digits => exact .more (ih (by simp) hall.1) hd

theorem HexDigits.lt {digits : Text} {n : Nat} (h : HexDigits digits n) :
    n < 16 ^ digits.length := by
  induction h with
  | one hc => simpa using lt_of_hexValue? hc
  | more h hc ih =>
    have hd := lt_of_hexValue? hc
    rw [List.length_append, List.length_singleton, Nat.pow_succ]
    omega

theorem numbered_of_le {n : Nat} (h : n ≤ 0x10FFFF) :
    ∃ c : CodePoint, numbered n = .ok [c] ∧ c.value = n := by
  have hn : n < 0x110000 := by omega
  refine ⟨⟨n, hn⟩, ?_, rfl⟩
  unfold numbered CodePoint.ofNat?
  rw [dif_pos hn]

/-! ## Escapes -/

theorem fixedWidth?_of_hexDigits {digits rest : Text} {n count : Nat} (h : HexDigits digits n)
    (hlength : digits.length = count) :
    fixedWidth? count (digits ++ rest) = some ⟨numbered n, count + 1⟩ := by
  obtain ⟨-, hall, hn⟩ := hexDigits_iff.mp h
  unfold fixedWidth?
  simp only [← hlength, List.take_left]
  rw [if_pos ⟨trivial, List.all_eq_true.mpr hall⟩, hn]

theorem braced?_of_hexDigits {digits rest : Text} {n : Nat} (h : HexDigits digits n) :
    braced? (CodePoint.ofChar '\x7b' :: (digits ++ CodePoint.ofChar '\x7d' :: rest)) =
      some ⟨numbered n, digits.length + 3⟩ := by
  obtain ⟨hne, hall, hn⟩ := hexDigits_iff.mp h
  have hdigits : (digits ++ CodePoint.ofChar '\x7d' :: rest).takeWhile (·.hexValue?.isSome) =
      digits := by
    rw [List.takeWhile_append_of_pos hall, List.takeWhile_cons_of_neg (by decide),
      List.append_nil]
  unfold braced?
  simp only [hdigits, List.drop_left, hn]
  rw [if_pos ⟨trivial, by simpa using hne, rfl⟩]

/-- Without a brace before them, `braced?` finds no number in `digits`. -/
theorem braced?_append_of_hexDigits {digits rest : Text} {n : Nat} (h : HexDigits digits n) :
    braced? (digits ++ rest) = none := by
  obtain ⟨hne, hall, -⟩ := hexDigits_iff.mp h
  obtain ⟨c, digits, rfl⟩ := List.exists_cons_of_ne_nil hne
  have hc : ¬ c = CodePoint.ofChar '\x7b' := by
    rintro rfl
    exact absurd (hall _ List.mem_cons_self) (by decide)
  unfold braced?
  simp [hc]

/-- `numbered` of a number of at most four digits is a code point that is its only code unit. -/
theorem exists_numbered_of_hexDigits {digits : Text} {n : Nat} (h : HexDigits digits n)
    (hlength : digits.length ≤ 4) :
    ∃ c : CodePoint, numbered n = .ok [c] ∧ Text.utf16 [c] = [n.toUInt16] := by
  have hlt : n < 0x10000 := Nat.lt_of_lt_of_le h.lt (Nat.pow_le_pow_right (by decide) hlength)
  obtain ⟨c, hc, hvalue⟩ := numbered_of_le (n := n) (by omega)
  refine ⟨c, hc, ?_⟩
  simp [Text.utf16, utf16Units, hvalue, hlt]

/-- `escape` of `x` reads the number in the two `digits` behind it. -/
theorem escape_of_x {digits : Text} {n : Nat} (h : HexDigits digits n) (hlength : digits.length = 2)
    (rest : Text) : escape (CodePoint.ofChar 'x') (digits ++ rest) = ⟨numbered n, 3⟩ := by
  unfold escape
  rw [if_neg (by decide), if_pos rfl, fixedWidth?_of_hexDigits h hlength]
  rfl

/-- `escape` of `u` reads the number in the four `digits` behind it. -/
theorem escape_of_u {digits : Text} {n : Nat} (h : HexDigits digits n) (hlength : digits.length = 4)
    (rest : Text) : escape (CodePoint.ofChar 'u') (digits ++ rest) = ⟨numbered n, 5⟩ := by
  unfold escape
  rw [if_pos rfl, braced?_append_of_hexDigits h, fixedWidth?_of_hexDigits h hlength]
  rfl

/-- `escape` of `u` reads the number in the `digits` in braces behind it. -/
theorem escape_of_u_braced {digits : Text} {n : Nat} (h : HexDigits digits n) (rest : Text) :
    escape (CodePoint.ofChar 'u')
      (CodePoint.ofChar '\x7b' :: (digits ++ CodePoint.ofChar '\x7d' :: rest)) =
        ⟨numbered n, digits.length + 3⟩ := by
  unfold escape
  rw [if_pos rfl, braced?_of_hexDigits h]
  rfl

theorem escape_of_mem_singleEscapes {e c : CodePoint} (h : (e, c) ∈ singleEscapes) (rest : Text) :
    escape e rest = ⟨.ok [c], 1⟩ := by
  simp only [singleEscapes, List.mem_cons, Prod.mk.injEq, List.not_mem_nil, or_false] at h
  rcases h with ⟨rfl, rfl⟩ | ⟨rfl, rfl⟩ | ⟨rfl, rfl⟩ | ⟨rfl, rfl⟩ | ⟨rfl, rfl⟩ | ⟨rfl, rfl⟩ |
    ⟨rfl, rfl⟩ | ⟨rfl, rfl⟩ | ⟨rfl, rfl⟩ <;> rfl

theorem isLineTerminator_iff {c : CodePoint} : isLineTerminator c ↔ [c] ∈ lineTerminators := by
  have hlist : lineTerminators = [[CodePoint.ofChar '\n'], [CodePoint.ofChar '\r'],
      [CodePoint.ofChar '\u2028'], [CodePoint.ofChar '\u2029'],
      [CodePoint.ofChar '\r', CodePoint.ofChar '\n']] := rfl
  have hvalue : ∀ n : Char, c.value = n.toNat ↔ c = CodePoint.ofChar n := fun n =>
    ⟨fun h => CodePoint.ext h, fun h => h ▸ rfl⟩
  simp [isLineTerminator, hlist, ← hvalue, or_assoc]

/-- `escape` of a character without an escape of its own gives that character. -/
theorem escape_of_not_isEscapeCharacter {e : CodePoint} (h : ¬ isEscapeCharacter e)
    (hline : [e] ∉ lineTerminators) (rest : Text) : escape e rest = ⟨.ok [e], 1⟩ := by
  rw [← isLineTerminator_iff] at hline
  have hzero : e.isDigit = false → e ≠ CodePoint.ofChar '0' := by
    rintro hdigit rfl
    cases hdigit
  simp only [isEscapeCharacter, singleEscapes, List.map_cons, List.map_nil, Bool.or_eq_true,
    List.contains_iff_mem, List.mem_cons, List.not_mem_nil, or_false, decide_eq_true_eq, not_or,
    Bool.not_eq_true] at h
  obtain ⟨⟨⟨⟨-, -, -, hb, hf, hn, hr, ht, hv⟩, hdigit⟩, hx⟩, hu⟩ := h
  have hcontrol : control? e = none := by
    simp only [control?, hb, hf, hn, hr, ht, hv, hzero hdigit, if_false]
  unfold escape
  simp only [hu, hx, hline, if_false, hcontrol, Option.getD_none, Bool.false_eq_true]

/-- `escape` of a line terminator gives nothing, and reads the `terminator` to its end. -/
theorem escape_of_lineTerminator {terminator rest : Text} (h : terminator ∈ lineTerminators)
    (hlong : terminator = text "\r" → rest.head? ≠ some (CodePoint.ofChar '\n')) :
    ∃ e after, terminator ++ rest = e :: after ∧ escape e after = ⟨.ok [], terminator.length⟩ := by
  simp only [lineTerminators, List.mem_cons, List.not_mem_nil, or_false] at h
  rcases h with rfl | rfl | rfl | rfl | rfl
  · exact ⟨_, _, rfl, rfl⟩
  · refine ⟨CodePoint.ofChar '\r', rest, rfl, ?_⟩
    have hnot : ¬ (CodePoint.ofChar '\r' = CodePoint.ofChar '\r' ∧
        rest.head? = some (CodePoint.ofChar '\n')) := fun hboth => hlong rfl hboth.2
    show Escape.mk (.ok []) (if _ then 2 else 1) = _
    rw [if_neg hnot]
    rfl
  · exact ⟨_, _, rfl, rfl⟩
  · exact ⟨_, _, rfl, rfl⟩
  · exact ⟨_, _, rfl, rfl⟩

/-! ## Decoding -/

theorem decodeFrom_eq_drop (skip : Nat) (t : Text) :
    decodeFrom skip t = decodeFrom 0 (t.drop skip) := by
  induction skip generalizing t with
  | zero => rfl
  | succ n ih => cases t <;> simp [decodeFrom, ih]

theorem decodeFrom_of_ne_backslash {c : CodePoint} (h : c ≠ '\\') (rest : Text) :
    decodeFrom 0 (c :: rest) = ([c] ++ ·) <$> decodeFrom 0 rest := by
  conv_lhs => unfold decodeFrom
  simp only [if_neg h]
  cases decodeFrom 0 rest <;> rfl

/-- If `escape` reads `value`, `decodeFrom` gives that and goes on with `rest`. -/
theorem decodeFrom_escape {e : CodePoint} {after value rest : Text} {size : Nat}
    (h : escape e after = ⟨.ok value, size⟩) (hrest : (e :: after).drop size = rest) :
    decodeFrom 0 (CodePoint.ofChar '\\' :: e :: after) = (value ++ ·) <$> decodeFrom 0 rest := by
  rw [decodeFrom, if_pos rfl]
  simp only [h, decodeFrom_eq_drop size, hrest]
  cases decodeFrom 0 rest <;> rfl

/-- `decodeFrom` of a part gives a value that is `units` in UTF-16, and goes on with `rest`. -/
theorem Part.decodeFrom_eq {quote : CodePoint} {t rest : Text} {units : List UInt16}
    (h : Part quote t units rest) :
    ∃ value : Text, value.utf16 = units ∧
      decodeFrom 0 t = (value ++ ·) <$> decodeFrom 0 rest := by
  cases h with
  | @plain c _ hquote hbackslash hline =>
    exact ⟨[c], by simp [Text.utf16], decodeFrom_of_ne_backslash hbackslash rest⟩
  | @single e c _ hmem =>
    have hsmall : ∀ p ∈ singleEscapes, p.2.value < 0x10000 := by decide
    refine ⟨[c], ?_, decodeFrom_escape (escape_of_mem_singleEscapes hmem rest) rfl⟩
    simp [Text.utf16, utf16Units, hsmall _ hmem]
  | @itself e _ hescape hline =>
    have hself := escape_of_not_isEscapeCharacter hescape hline rest
    exact ⟨[e], by simp [Text.utf16], decodeFrom_escape hself rfl⟩
  | null hdigit => exact ⟨[CodePoint.ofChar '\x00'], rfl, decodeFrom_escape rfl rfl⟩
  | @hexEscape digits _ n hdigits hlength =>
    obtain ⟨c, hc, hunits⟩ := exists_numbered_of_hexDigits hdigits (by omega)
    have hescape := hc ▸ escape_of_x hdigits hlength rest
    exact ⟨[c], hunits, decodeFrom_escape hescape (List.drop_left' hlength)⟩
  | @unicodeEscape digits _ n hdigits hlength =>
    obtain ⟨c, hc, hunits⟩ := exists_numbered_of_hexDigits hdigits (by omega)
    have hescape := hc ▸ escape_of_u hdigits hlength rest
    exact ⟨[c], hunits, decodeFrom_escape hescape (List.drop_left' hlength)⟩
  | @codePointEscape digits rest n hdigits hn =>
    -- Unlike the escapes of a fixed width, this one may stand for two code units.
    obtain ⟨c, hc, hvalue⟩ := numbered_of_le hn
    have hescape := hc ▸ escape_of_u_braced hdigits rest
    refine ⟨[c], by simp [Text.utf16, hvalue], decodeFrom_escape hescape ?_⟩
    rw [List.drop_succ_cons, List.drop_succ_cons, List.drop_length_add_append]
    rfl
  | @continuation terminator rest hmem hlong =>
    obtain ⟨e, after, hread, hescape⟩ := escape_of_lineTerminator hmem hlong
    rw [hread]
    exact ⟨[], rfl, decodeFrom_escape hescape (by rw [← hread, List.drop_left])⟩

theorem Parts.decodeFrom_eq {quote : CodePoint} {t : Text} {units : List UInt16}
    (h : Parts quote t units) :
    ∃ value : Text, decodeFrom 0 t = .ok value ∧ value.utf16 = units := by
  induction h with
  | nil => exact ⟨[], rfl, rfl⟩
  | cons h hrest ih =>
    obtain ⟨value, hunits, hdecode⟩ := h.decodeFrom_eq
    obtain ⟨more, hmore, hmoreUnits⟩ := ih
    refine ⟨value ++ more, by rw [hdecode, hmore]; rfl, ?_⟩
    rw [Text.utf16, List.flatMap_append, ← hunits, ← hmoreUnits]
    rfl

/-- `decode` of every string literal of the grammar, octal escapes and `\8` and `\9` apart, gives a
value that is `units` in UTF-16, as the grammar says. -/
theorem decode_of_isLiteral {raw : Text} {units : List UInt16} (h : IsLiteral raw units) :
    ∃ value, decode raw = .ok value ∧ value.utf16 = units := by
  obtain ⟨quote, body, -, rfl, hparts⟩ := h
  have hbody : ((quote :: (body ++ [quote])).drop 1).dropLast = body := List.dropLast_concat
  rw [decode, hbody]
  exact hparts.decodeFrom_eq

/-- A literal with an escaped backslash before an `n`, a code point beyond U+FFFF, half of a
surrogate pair, a line that goes on behind CR LF, and a null. -/
theorem decode_of_isLiteral_escapes :
    let raw := text "'\\\\n\\u\x7b1F600\x7d\\uD83D\\\r\n\\0'"
    let units : List UInt16 := [0x5C, 0x6E, 0xD83D, 0xDE00, 0xD83D, 0]
    IsLiteral raw units ∧ ∃ value, decode raw = .ok value ∧ value.utf16 = units := by
  intro raw units
  have hdigits : HexDigits (text "1F600") 0x1F600 :=
    hexDigits_iff.mpr ⟨by decide, by decide, by decide⟩
  have hhalf : HexDigits (text "D83D") 0xD83D :=
    hexDigits_iff.mpr ⟨by decide, by decide, by decide⟩
  have hnull : Parts '\'' ['\\', '0'] [0] := .cons (.null (by decide)) .nil
  have hline := Parts.cons (.continuation (show text "\r\n" ∈ lineTerminators by decide)
    (by decide)) hnull
  have hunicode := Parts.cons (.codePointEscape hdigits (by decide))
    (Parts.cons (.unicodeEscape hhalf rfl) hline)
  have hparts := Parts.cons (.single (show (CodePoint.ofChar '\\', CodePoint.ofChar '\\') ∈
    singleEscapes by decide)) (Parts.cons (.plain (c := 'n') (by decide) (by decide) (by decide))
    hunicode)
  have hliteral : IsLiteral raw units := ⟨'\'', _, by decide, rfl, hparts⟩
  exact ⟨hliteral, decode_of_isLiteral hliteral⟩

end StringLiteral
end FlagFold
