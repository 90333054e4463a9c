/-
  FlagFold.Proofs.Tree.TemplateValue

  Templates without substitutions beside string literals with the same value.  The
  value of a literal is decoded, but that of a template is its text as it is written.
  The two are the same just where the template spells its value out, without an escape
  and without a carriage return, and the literal writes no code point as two halves of a
  surrogate pair.
-/

import FlagFold.Proofs.Text.Lines
import FlagFold.Proofs.Text.Pieces
import FlagFold.Proofs.Tree.StringValue
import FlagFold.Tree.OfConcrete

namespace FlagFold

/-! ## Texts with the same code units -/

/-- `c` is the first half of a surrogate pair. -/
def CodePoint.isHighSurrogate (c : CodePoint) : Bool := 0xD800 ≤ c.value && c.value < 0xDC00

/-- `c` is the second half of a surrogate pair. -/
def CodePoint.isLowSurrogate (c : CodePoint) : Bool := 0xDC00 ≤ c.value && c.value ≤ 0xDFFF

namespace Text

/-- Two halves of a surrogate pair stand next to each other, each a code point of its own. -/
def hasSplitPair : Text → Bool
  | a :: b :: rest => (a.isHighSurrogate && b.isLowSurrogate) || hasSplitPair (b :: rest)
  | _ => false

theorem hasSplitPair_of_no_surrogate {t : Text} (h : ∀ c ∈ t, ¬ c.isSurrogate) :
    t.hasSplitPair = false := by
  induction t with
  | nil => rfl
  | cons a rest ih =>
    cases rest with
    | nil => rfl
    | cons b rest =>
      have ha := h a List.mem_cons_self
      have hrest := ih fun c hc => h c (List.mem_cons_of_mem a hc)
      simp only [CodePoint.isSurrogate, Bool.and_eq_true, decide_eq_true_eq] at ha
      simp only [hasSplitPair, hrest, CodePoint.isHighSurrogate, Bool.or_false,
        Bool.and_eq_false_iff, decide_eq_false_iff_not]
      left
      omega

theorem utf16_append (t u : Text) : (t ++ u).utf16 = t.utf16 ++ u.utf16 := List.flatMap_append

theorem length_utf16Units_pos (n : Nat) : 0 < (utf16Units n).length := by
  unfold utf16Units
  split <;> exact Nat.succ_pos _

theorem length_utf16Units_le (n : Nat) : (utf16Units n).length ≤ 2 := by
  unfold utf16Units
  split <;> simp

theorem length_le_length_utf16 (t : Text) : t.length ≤ t.utf16.length := by
  induction t with
  | nil => exact Nat.le_refl 0
  | cons c rest ih =>
    have hc := length_utf16Units_pos c.value
    simp only [utf16, List.flatMap_cons, List.length_append, List.length_cons] at ih ⊢
    omega

theorem toUInt16_inj {a b : Nat} (ha : a < 0x10000) (hb : b < 0x10000)
    (h : a.toUInt16 = b.toUInt16) : a = b := by
  have hnat := congrArg UInt16.toNat h
  simpa [Nat.toUInt16, Nat.mod_eq_of_lt ha, Nat.mod_eq_of_lt hb] using hnat

/-- The code units of `c :: rest` begin with a code unit of `c`, or with the two of a pair. -/
theorem utf16_cons (c : CodePoint) (rest : Text) :
    (c.value < 0x10000 ∧ utf16 (c :: rest) = c.value.toUInt16 :: rest.utf16) ∨
    ∃ high low, high < 0x400 ∧ low < 0x400 ∧ c.value = 0x10000 + high * 0x400 + low ∧
      utf16 (c :: rest) = (0xD800 + high).toUInt16 :: (0xDC00 + low).toUInt16 :: rest.utf16 := by
  by_cases hc : c.value < 0x10000
  · exact .inl ⟨hc, by simp [utf16, utf16Units, hc]⟩
  · have hlt := c.isLt
    refine .inr ⟨(c.value - 0x10000) / 0x400, (c.value - 0x10000) % 0x400, ?_, ?_, ?_, ?_⟩
    · omega
    · omega
    · omega
    · simp [utf16, utf16Units, hc]

/-- Texts `t` and `u` with the same code units are the same, if `t` has no surrogates and `u` no
split pair. -/
theorem eq_of_utf16_eq {t u : Text} (ht : ∀ c ∈ t, ¬ c.isSurrogate) (hu : u.hasSplitPair = false)
    (h : t.utf16 = u.utf16) : t = u := by
  induction t generalizing u with
  | nil =>
    have hlength := length_le_length_utf16 u
    rw [← h] at hlength
    exact (List.length_eq_zero_iff.mp (Nat.le_zero.mp hlength)).symm
  | cons c t ih =>
    have hc := ht c List.mem_cons_self
    simp only [CodePoint.isSurrogate, Bool.and_eq_true, decide_eq_true_eq] at hc
    have hrest := fun d hd => ht d (List.mem_cons_of_mem c hd)
    cases u with
    | nil =>
      have hlength := length_le_length_utf16 (c :: t)
      rw [h] at hlength
      cases hlength
    | cons d u =>
      have hu' : hasSplitPair u = false := by
        cases u with
        | nil => rfl
        | cons e u => exact (Bool.or_eq_false_iff.mp hu).2
      obtain ⟨hcsmall, hct⟩ | ⟨high, low, hhigh, hlow, hcvalue, hct⟩ := utf16_cons c t <;>
        obtain ⟨hdsmall, hdu⟩ | ⟨high', low', hhigh', hlow', hdvalue, hdu⟩ := utf16_cons d u
      all_goals
        rw [hct, hdu] at h
        injection h with hfirst h
      · obtain rfl : c = d := CodePoint.ext (toUInt16_inj hcsmall hdsmall hfirst)
        rw [ih hrest hu' h]
      · -- A code point by itself would be the first half of a pair.
        have := toUInt16_inj hcsmall (by omega) hfirst
        omega
      · -- The two halves would stand next to each other in the other text.
        have hd := toUInt16_inj (by omega) hdsmall hfirst
        cases u with
        | nil => cases h
        | cons e u =>
          obtain ⟨hesmall, heu⟩ | ⟨high', low', hhigh', hlow', -, heu⟩ := utf16_cons e u
          all_goals
            rw [heu] at h
            injection h with hsecond h
          · have he := toUInt16_inj (by omega) hesmall hsecond
            have hpair : d.isHighSurrogate && e.isLowSurrogate := by
              simp only [CodePoint.isHighSurrogate, CodePoint.isLowSurrogate, Bool.and_eq_true,
                decide_eq_true_eq]
              omega
            rw [hasSplitPair, hpair] at hu
            cases hu
          · have := toUInt16_inj (by omega) (by omega) hsecond
            omega
      · injection h with hsecond h
        have hhighs := toUInt16_inj (by omega) (by omega) hfirst
        have hlows := toUInt16_inj (by omega) (by omega) hsecond
        obtain rfl : c = d := CodePoint.ext (by omega)
        rw [ih hrest hu' h]

end Text

namespace StringLiteral

/-! ## The grammar of templates -/

/-- What stands around a template. -/
def backtick : CodePoint := '\x60'

/-- A part of a template: the text from its start on, its value, and the text behind it. It is as in
a literal, but for lines that end, each by a line feed whatever ends it, and for a dollar sign,
which begins a substitution before a brace. -/
inductive TemplatePart : Text → List UInt16 → Text → Prop where
  | part {t rest : Text} {units : List UInt16} (h : Part backtick t units rest)
      (hdollar : t.head? = some (CodePoint.ofChar '$') →
        rest.head? ≠ some (CodePoint.ofChar '\x7b')) : TemplatePart t units rest
  | lineFeed {rest : Text} : TemplatePart ('\n' :: rest) [10] rest
  | carriageReturn {rest : Text} (h : rest.head? ≠ some (CodePoint.ofChar '\n')) :
      TemplatePart ('\r' :: rest) [10] rest
  | both {rest : Text} : TemplatePart ('\r' :: CodePoint.ofChar '\n' :: rest) [10] rest

/-- What stands between the backticks of a template without substitutions, and its value. -/
inductive TemplateParts : Text → List UInt16 → Prop where
  | nil : TemplateParts [] []
  | cons {t rest : Text} {units more : List UInt16} (h : TemplatePart t units rest)
      (hrest : TemplateParts rest more) : TemplateParts t (units ++ more)

/-- A template without substitutions and its value. -/
def IsTemplate (raw : Text) (units : List UInt16) : Prop :=
  ∃ body, raw = backtick :: (body ++ [backtick]) ∧
    TemplateParts body units

/-- `t` has no escapes and no carriage returns. -/
def isVerbatim (t : Text) : Bool := t.all fun c => c ≠ '\\' && c ≠ '\r'

theorem isVerbatim_append {t u : Text} : isVerbatim (t ++ u) ↔ isVerbatim t ∧ isVerbatim u := by
  rw [isVerbatim, List.all_append, Bool.and_eq_true]
  rfl

/-! ## Templates that spell their value out -/

/-- A `Part` stands for itself, or it has a backslash and takes more code units than it stands
for. -/
theorem Part.exists_written {quote : CodePoint} {t rest : Text} {units : List UInt16}
    (h : Part quote t units rest) : ∃ written, t = written ++ rest ∧
      ((written.utf16 = units ∧ isVerbatim written) ∨
        (¬ isVerbatim written ∧ units.length < written.utf16.length)) := by
  -- A backslash and something behind it that stands for no more than it takes.
  have hescape : ∀ {escape : Text}, units.length ≤ escape.utf16.length →
      ¬ isVerbatim (CodePoint.ofChar '\\' :: escape) ∧
        units.length < (Text.utf16 (CodePoint.ofChar '\\' :: escape)).length := by
    intro escape hlength
    refine ⟨by simp [isVerbatim], ?_⟩
    show units.length < (0x5C :: escape.utf16).length
    rw [List.length_cons]
    omega
  have hletters : ∀ {escape : Text}, units.length ≤ escape.length →
      units.length ≤ escape.utf16.length := fun hlength =>
    Nat.le_trans hlength (Text.length_le_length_utf16 _)
  cases h with
  | @plain c _ hquote hbackslash hline =>
    exact ⟨[c], rfl, .inl ⟨by simp [Text.utf16], by simp [isVerbatim, hbackslash, hline.2]⟩⟩
  | @single e c _ hmem => exact ⟨['\\', e], rfl, .inr (hescape (hletters (Nat.le_refl 1)))⟩
  | @itself e _ _ hline => exact ⟨['\\', e], rfl, .inr (hescape (by simp [Text.utf16]))⟩
  | null hdigit =>
    exact ⟨['\\', CodePoint.ofChar '0'], rfl, .inr (hescape (hletters (Nat.le_refl 1)))⟩
  | @hexEscape digits _ n hdigits hlength =>
    exact ⟨'\\' :: CodePoint.ofChar 'x' :: digits, rfl, .inr (hescape (hletters (by simp)))⟩
  | @unicodeEscape digits _ n hdigits hlength =>
    exact ⟨'\\' :: CodePoint.ofChar 'u' :: digits, rfl, .inr (hescape (hletters (by simp)))⟩
  | @codePointEscape digits rest n hdigits hn =>
    refine ⟨'\\' :: CodePoint.ofChar 'u' :: CodePoint.ofChar '\x7b' ::
      (digits ++ [CodePoint.ofChar '\x7d']), by simp, .inr (hescape (hletters ?_))⟩
    have htwo := Text.length_utf16Units_le n
    simp only [List.length_cons, List.length_append]
    omega
  | @continuation terminator rest hmem hlong =>
    exact ⟨'\\' :: terminator, rfl, .inr (hescape (Nat.zero_le _))⟩

/-- A `TemplatePart` takes no fewer code units than it stands for, and stands for itself just where
it `isVerbatim`. -/
theorem TemplatePart.exists_written {t rest : Text} {units : List UInt16}
    (h : TemplatePart t units rest) : ∃ written, t = written ++ rest ∧
      units.length ≤ written.utf16.length ∧ (written.utf16 = units ↔ isVerbatim written) := by
  cases h with
  | part h =>
    obtain ⟨written, ht, ⟨heq, hverbatim⟩ | ⟨hescaped, hlength⟩⟩ := h.exists_written
    · exact ⟨written, ht, heq ▸ Nat.le_refl _, iff_of_true heq hverbatim⟩
    · refine ⟨written, ht, Nat.le_of_lt hlength, iff_of_false (fun heq => ?_) hescaped⟩
      rw [heq] at hlength
      exact Nat.lt_irrefl _ hlength
  | lineFeed => exact ⟨[CodePoint.ofChar '\n'], rfl, Nat.le_refl 1, iff_of_true rfl (by decide)⟩
  | carriageReturn =>
    exact ⟨[CodePoint.ofChar '\r'], rfl, Nat.le_refl 1, iff_of_false (by decide) (by decide)⟩
  | both =>
    exact ⟨[CodePoint.ofChar '\r', CodePoint.ofChar '\n'], rfl, by decide,
      iff_of_false (by decide) (by decide)⟩

/-- What stands between the backticks is the value of a template just where it `isVerbatim`. -/
theorem TemplateParts.utf16_eq_iff {t : Text} {units : List UInt16} (h : TemplateParts t units) :
    units.length ≤ t.utf16.length ∧ (t.utf16 = units ↔ isVerbatim t) := by
  induction h with
  | nil => exact ⟨Nat.le_refl 0, iff_of_true rfl (by decide)⟩
  | @cons t rest units more h hrest ih =>
    obtain ⟨written, rfl, hlength, hwritten⟩ := h.exists_written
    obtain ⟨hmoreLength, hmore⟩ := ih
    rw [Text.utf16_append, isVerbatim_append, ← hwritten, ← hmore, List.length_append,
      List.length_append]
    refine ⟨by omega, fun heq => ?_, fun ⟨hfirst, hsecond⟩ => by rw [hfirst, hsecond]⟩
    -- Neither side can make up for the other, so that both have their own lengths.
    have htotal := congrArg List.length heq
    rw [List.length_append, List.length_append] at htotal
    exact List.append_inj heq (by omega)

end StringLiteral

/-! ## Nodes -/

namespace Concrete

/-- Something is substituted in the template `node`. -/
def hasSubstitution (node : Concrete) : Bool :=
  node.children.any fun child => child.kind = "template_substitution" && !child.anonymous

theorem templateChunks_of_any {children : List Concrete}
    (h : (children.any fun child => child.kind = "template_substitution" && !child.anonymous) =
      false) (index : SourceIndex) (cursor stop : Nat) :
    templateChunks index cursor stop children = [index.between cursor stop] ∧
      substitutionsToNodes index children = .ok [] := by
  induction children with
  | nil => exact ⟨rfl, by rw [substitutionsToNodes]⟩
  | cons child rest ih =>
    obtain ⟨kind, start, stop, field, anonymous, missing, children⟩ := child
    rw [List.any_cons, Bool.or_eq_false_iff] at h
    simp only at h
    obtain ⟨hchunks, hnodes⟩ := ih h.2
    rw [templateChunks, substitutionsToNodes]
    simp only [h.1, Bool.false_eq_true, if_false]
    exact ⟨hchunks, hnodes⟩

variable {index : SourceIndex} {node : Concrete}

theorem toNode_of_string (hkind : node.kind = "string") {value : Text}
    (h : StringLiteral.decode (index.slice node) = .ok value) :
    node.toNode index = .ok (.mk (node.info index) (.string value (index.slice node))) := by
  obtain ⟨kind, start, stop, field, anonymous, missing, children⟩ := node
  cases hkind
  rw [toNode]
  simp only [stringLiteral, h]
  rfl

theorem toNode_of_template (hkind : node.kind = "template_string")
    (h : node.hasSubstitution = false) :
    node.toNode index = .ok (.mk (node.info index)
      (.template
        [index.between (index.toChar node.start + 1) (index.toChar node.stop - 1)] [])) := by
  obtain ⟨kind, start, stop, field, anonymous, missing, children⟩ := node
  cases hkind
  obtain ⟨hchunks, hnodes⟩ := templateChunks_of_any h index (index.toChar start + 1)
    (index.toChar stop - 1)
  rw [toNode]
  simp only [info, hchunks, hnodes]
  rfl

end Concrete

/-- The slice between the first and the last code point of a slice. -/
theorem Text.slice_inner {t body : Text} {a b : Nat} {first last : CodePoint} (hb : b ≤ t.length)
    (h : t.slice a b = first :: (body ++ [last])) : t.slice (a + 1) (b - 1) = body := by
  have hlength := congrArg List.length h
  rw [length_slice, Nat.min_eq_left hb, List.length_cons, List.length_append,
    List.length_singleton] at hlength
  have hinner : t.slice (a + 1) (b - 1) = (t.slice a b).slice 1 (body.length + 1) := by
    rw [slice_slice t (by omega)]
    congr 1
    omega
  rw [hinner, h]
  simp [slice]

namespace StringLiteral

/-- `decode` of what stands between two quotes gives a text with the code units of its value. -/
theorem Parts.exists_decode {quote : CodePoint} {body : Text} {units : List UInt16}
    (h : Parts quote body units) :
    ∃ name, decode (quote :: (body ++ [quote])) = .ok name ∧ name.utf16 = units := by
  have hbody : ((quote :: (body ++ [quote])).drop 1).dropLast = body := List.dropLast_concat
  rw [decode, hbody]
  exact h.decodeFrom_eq

/-- A string literal `s` and a template `t` without substitutions of one source, both with the value
`units`. `literal?` gives `name` for the first, which is the value that both have, and `written` for
the second, which is what stands between its backticks. So they count as the same just where
`written` is verbatim, without an escape and without a carriage return, and the literal does not
write a code point as two halves of a surrogate pair. -/
theorem literal?_eq_literal?_iff {source : Text} (hsource : ∀ c ∈ source, ¬ c.isSurrogate)
    {s t : Concrete} (hs : s.kind = "string") (ht : t.kind = "template_string")
    (hwhole : t.hasSubstitution = false)
    (hstop : (SourceIndex.ofText source).toChar t.stop ≤ source.length) {units : List UInt16}
    (hliteral : IsLiteral ((SourceIndex.ofText source).slice s) units)
    (htemplate : IsTemplate ((SourceIndex.ofText source).slice t) units) :
    ∃ a b name written, s.toNode (SourceIndex.ofText source) = .ok a ∧
      t.toNode (SourceIndex.ofText source) = .ok b ∧
      a.literal? = some name ∧ name.utf16 = units ∧
      b.literal? = some written ∧
      (SourceIndex.ofText source).slice t = backtick :: (written ++ [backtick]) ∧
      (a.literal? = b.literal? ↔ isVerbatim written ∧ name.hasSplitPair = false) := by
  obtain ⟨quote, body, -, hraw, hbody⟩ := hliteral
  obtain ⟨written, hslice, hwritten⟩ := htemplate
  obtain ⟨name, hdecode, hname⟩ := hbody.exists_decode
  rw [← hraw] at hdecode
  set index := SourceIndex.ofText source with hindex
  have hspelled : source.slice (index.toChar t.start) (index.toChar t.stop) =
      backtick :: (written ++ [backtick]) := by
    rw [← hslice, SourceIndex.slice, hindex, SourceIndex.between_ofText]
  have hchunk : index.between (index.toChar t.start + 1) (index.toChar t.stop - 1) = written := by
    rw [hindex, SourceIndex.between_ofText]
    exact Text.slice_inner hstop hspelled
  have htnode : t.toNode index = .ok (.mk (t.info index) (.template [written] [])) := by
    rw [Concrete.toNode_of_template ht hwhole, hchunk]
  refine ⟨_, _, name, written, Concrete.toNode_of_string hs hdecode, htnode, rfl, hname, rfl,
    hslice, ?_⟩
  have hclean : ∀ c ∈ written, ¬ c.isSurrogate := by
    intro c hc
    apply hsource
    have hmem : c ∈ source.slice (index.toChar t.start) (index.toChar t.stop) := by
      rw [hspelled]
      simp [hc]
    exact (source.slice_infix _ _).subset hmem
  show some name = some written ↔ _
  rw [Option.some.injEq, ← hwritten.utf16_eq_iff.2]
  constructor
  · rintro rfl
    exact ⟨hname, Text.hasSplitPair_of_no_surrogate hclean⟩
  · rintro ⟨hverbatim, hsplit⟩
    exact (Text.eq_of_utf16_eq hclean hsplit (hverbatim.trans hname.symm)).symm

/-- An escape of two hexadecimal digits and its value. -/
theorem part_hexEscape (quote : CodePoint) : Part quote (text "\\x61") [0x61] [] := by
  have hdigits : HexDigits (text "61") 0x61 := hexDigits_iff.mpr ⟨by decide, by decide, by decide⟩
  exact @Part.hexEscape _ (text "61") [] _ hdigits rfl

theorem isLiteral_hexEscape : IsLiteral (text "'\\x61'") [0x61] :=
  ⟨'\'', text "\\x61", by decide, rfl, .cons (part_hexEscape '\'') .nil⟩

/-- A literal with an escape, and a template that spells its value out. -/
theorem literal?_eq_literal?_iff_spelledOut :
    let index := SourceIndex.ofText (text "'\\x61'\x60a\x60")
    ∃ a b, (⟨"string", 0, 6, none, false, false, []⟩ : Concrete).toNode index = .ok a ∧
      (⟨"template_string", 6, 9, none, false, false, []⟩ : Concrete).toNode index = .ok b ∧
      a.literal? = b.literal? := by
  intro index
  have hs : index.slice ⟨"string", 0, 6, none, false, false, []⟩ = text "'\\x61'" := by
    decide +kernel
  have ht : index.slice ⟨"template_string", 6, 9, none, false, false, []⟩ = text "\x60a\x60" := by
    decide +kernel
  have htemplate : IsTemplate (text "\x60a\x60") [0x61] := by
    have hplain : Part backtick (text "a") [0x61] [] :=
      .plain (c := 'a') (by decide) (by decide) (by decide)
    exact ⟨text "a", rfl, .cons (.part hplain (by decide)) .nil⟩
  obtain ⟨a, b, name, written, ha, hb, -, hname, -, hslice, hiff⟩ :=
    literal?_eq_literal?_iff (by decide) rfl rfl rfl (by decide +kernel)
      (hs ▸ isLiteral_hexEscape : IsLiteral (index.slice _) [0x61])
      (ht ▸ htemplate : IsTemplate (index.slice _) [0x61])
  have hwritten : written = text "a" := by
    rw [ht] at hslice
    exact (List.append_cancel_right (List.cons.inj hslice).2).symm
  have hsplit : name.hasSplitPair = false := by
    have hlength := Text.length_le_length_utf16 name
    rw [hname] at hlength
    match name, hlength with
    | [], _ => rfl
    | [c], _ => rfl
  exact ⟨a, b, ha, hb, hiff.mpr ⟨hwritten ▸ by decide, hsplit⟩⟩

/-- A template that writes the same escape as a literal counts as another text. -/
theorem not_forall_literal?_eq :
    ¬ ∀ (source : Text) (s t : Concrete) (units : List UInt16), s.kind = "string" →
      t.kind = "template_string" → t.hasSubstitution = false →
      IsLiteral ((SourceIndex.ofText source).slice s) units →
      IsTemplate ((SourceIndex.ofText source).slice t) units →
      ∃ a b, s.toNode (SourceIndex.ofText source) = .ok a ∧
        t.toNode (SourceIndex.ofText source) = .ok b ∧ a.literal? = b.literal? := by
  intro h
  set index := SourceIndex.ofText (text "'\\x61'\x60\\x61\x60") with hindex
  have hs : index.slice ⟨"string", 0, 6, none, false, false, []⟩ = text "'\\x61'" := by
    decide +kernel
  have ht : index.slice ⟨"template_string", 6, 12, none, false, false, []⟩ =
      text "\x60\\x61\x60" := by
    decide +kernel
  have htemplate : IsTemplate (text "\x60\\x61\x60") [0x61] :=
    ⟨text "\\x61", rfl, .cons (.part (part_hexEscape backtick) (by decide)) .nil⟩
  obtain ⟨a, b, ha, hb, heq⟩ := h _ ⟨"string", 0, 6, none, false, false, []⟩
    ⟨"template_string", 6, 12, none, false, false, []⟩ [0x61] rfl rfl rfl
    (hs ▸ isLiteral_hexEscape) (ht ▸ htemplate)
  have hdecode : decode (text "'\\x61'") = .ok (text "a") := by decide
  rw [Concrete.toNode_of_string rfl (hs.symm ▸ hdecode)] at ha
  rw [Concrete.toNode_of_template rfl rfl] at hb
  cases ha
  cases hb
  have hchunk : some (text "a") = some (index.between (index.toChar 6 + 1) (index.toChar 12 - 1)) :=
    heq
  revert hchunk
  decide +kernel

end StringLiteral
end FlagFold
