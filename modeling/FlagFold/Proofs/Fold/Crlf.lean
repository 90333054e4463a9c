/-
  FlagFold.Proofs.Fold.Crlf

  A module whose lines end with a carriage return and a line feed has no other ends of
  lines in the code that is returned.  Both passes put in records, in which only the
  name of a flag or a module could hold another one, and answers; an answered
  registration repeats stretches of the source, which start with a name or a literal.
-/

import FlagFold.Proofs.Fold.Words
import FlagFold.Proofs.Print.Crlf

namespace FlagFold

/-- The comment of `v` is `IsCrlf` if `v.name` holds no carriage return and no line feed. -/
theorem Verdict.isCrlf_comment {v : Verdict}
    (h : ∀ c ∈ v.name, c ≠ CodePoint.ofChar '\r' ∧ c ≠ CodePoint.ofChar '\n') :
    v.comment.IsCrlf := by
  obtain ⟨front, back, hcomment, hfront, hback⟩ := v.exists_comment_eq
  have haround : ∀ {t : Text}, (∀ c ∈ t, c.isHarmless) → t.IsCrlf :=
    Text.isCrlf_of_forall (by decide)
  have hname : v.name.IsCrlf :=
    Text.isCrlf_of_forall (p := (· ≠ CodePoint.ofChar '\n')) (by decide) fun c hc => by
      simpa using (h c hc).2
  rw [hcomment]
  exact ((haround hfront).append hname).append (haround hback)

theorem Verdict.name_infix (v : Verdict) : v.name <:+: v.comment := by
  obtain ⟨front, back, hcomment, -, -⟩ := v.exists_comment_eq
  exact ⟨front, back, hcomment.symm⟩

/-- The kinds of nodes that can be the callee of a query or name its flag. -/
def Kind.isOperand : Kind → Bool
  | identifier | member | string | template => true
  | _ => false

namespace FoldContext

variable {ctx : FoldContext}

theorem kind_of_isMember {n : Node} {object : Option Text} {property : String}
    (h : n.isMember object property) : n.kind = .member := by
  unfold Node.isMember at h
  split at h
  case h_1 hshape => rw [Node.kind, hshape]; rfl
  case h_2 => cases h

theorem isOperand_of_literal {n : Node} {t : Text} (h : n.literal? = some t) :
    n.kind.isOperand := by
  unfold Node.literal? at h
  split at h
  case h_1 hshape | h_2 hshape => rw [Node.kind, hshape]; rfl
  case h_3 => cases h

/-- The callee and the flag of an answered registration are operands. -/
theorem isOperand_of_registration {n callee first : Node} {rest : List Node} {optional : Bool}
    (hshape : n.shape = .call (some callee) (first :: rest) optional)
    (hasks : ctx.asks n = some .registration) {value : Bool}
    (hanswer : ctx.answer? n = some value) : callee.kind.isOperand ∧ first.kind.isOperand := by
  obtain ⟨callee', arguments, optional', hcall, hquery⟩ := asks_call hasks
  obtain ⟨rfl, -, -⟩ : callee = callee' ∧ first :: rest = arguments ∧ _ := by
    simpa [hshape] using hcall
  obtain ⟨flag, hflag⟩ := literal_of_answer hanswer hshape
  refine ⟨?_, isOperand_of_literal hflag⟩
  rcases callee_of_registration hquery with hname | hmember
  · rw [kind_of_isNamed hname]
    rfl
  · rw [kind_of_isMember hmember]
    rfl

/-- If `source` is `IsCrlf`, so is `answeredText`, unless a part of a registration starts at a line
feed. -/
theorem isCrlf_answeredText {source : Text} (hsource : source.IsCrlf) {n : Node} {query : Query}
    (hparts : query = .registration → ∀ callee first rest optional,
      n.shape = .call (some callee) (first :: rest) optional →
        ¬ source.isLineFeedAt callee.info.start ∧ ¬ source.isLineFeedAt first.info.start)
    (value : Bool) : (answeredText source n query value).IsCrlf := by
  have htruth : (truthText value).IsCrlf := by cases value <;> decide
  unfold answeredText
  split
  case h_1 callee first rest optional hshape =>
    obtain ⟨hcallee, hfirst⟩ := hparts rfl _ _ _ _ hshape
    have hchain : Text.IsCrlf (if optional then text "?." else []) := by
      cases optional <;> decide
    have hmarks : Text.IsCrlf (text "(") ∧ Text.IsCrlf (text ", ") ∧ Text.IsCrlf (text ")") := by
      decide
    have hcall := ((hsource.slice hcallee callee.info.stop).append hchain).append hmarks.1
    have hflag := (hcall.append (hsource.slice hfirst first.info.stop)).append hmarks.2.1
    exact (hflag.append htruth).append hmarks.2.2
  case h_2 => exact htruth

end FoldContext

namespace Node

variable {program : Node} {features : FeatureMap} {staticOnly : List Text} {path : Text}

/-- No operand in `program` starts at a line feed, as white space belongs to none of them. -/
def Trimmed (program : Node) : Prop :=
  ∀ m ∈ program.subnodes, m.kind.isOperand → ¬ program.source.isLineFeedAt m.info.start

instance (program : Node) : Decidable program.Trimmed :=
  inferInstanceAs (Decidable (∀ m ∈ program.subnodes, _))

/-- The parts of an answered registration that are kept start where operands of `program` do. -/
theorem Trimmed.of_registration (htrimmed : program.Trimmed) (h : program.Untouched) {k : Node}
    (hk : k ∈ (program.withoutPragmas features path).printed) {ctx : FoldContext}
    (hasks : ctx.asks k = some .registration) {value : Bool} (hanswer : ctx.answer? k = some value)
    {callee first : Node} {rest : List Node} {optional : Bool}
    (hshape : k.shape = .call (some callee) (first :: rest) optional) :
    ¬ program.source.isLineFeedAt callee.info.start ∧
      ¬ program.source.isLineFeedAt first.info.start := by
  have hremains := remains_withoutPragmas h k hk
  have hsynthetic := hremains.synthetic_of_asks hasks
  obtain ⟨hcallee, hfirst⟩ :=
    FoldContext.untouched_of_registration hremains hshape hasks hanswer
  obtain ⟨hcalled, hnamed⟩ := FoldContext.isOperand_of_registration hshape hasks hanswer
  -- They are printed nodes themselves, and so the first pass has left them in their places.
  have hpart : ∀ c ∈ k.children, c.info.synthetic = false → c.kind.isOperand →
      ¬ program.source.isLineFeedAt c.info.start := by
    intro c hc hstays hkind
    have hprinted : c ∈ (program.withoutPragmas features path).printed :=
      mem_preorder_trans hk
        (mem_preorder_of_mem_children (by simp [hsynthetic]) hc (mem_preorder_self _ c))
    obtain ⟨m, hm, hsame, hspan⟩ :=
      (leftOf_withoutPragmas h features path c hprinted).stays hstays
    rw [← show m.info.start = c.info.start from congrArg Prod.fst hspan]
    exact htrimmed m hm (hsame ▸ hkind)
  have hchildren : k.children = callee :: first :: rest := by
    rw [children, hshape]
    rfl
  exact ⟨hpart callee (by simp [hchildren]) hcallee.synthetic hcalled,
    hpart first (by simp [hchildren]) hfirst.synthetic hnamed⟩

/-- If the records of a `Trimmed` program are `IsCrlf`, all printed nodes of the folded one
`KeepsCrlf`. -/
theorem keepsCrlf_foldModule (h : program.Delivered) (htrimmed : program.Trimmed)
    (hsource : program.source.IsCrlf)
    (hrecords : ∀ content ∈ (program.foldModule features staticOnly path).program.noted,
      program.IsRecord features content → content.IsCrlf) :
    let folded := (program.foldModule features staticOnly path).program
    (∀ c ∈ folded.comments, c.content.IsCrlf) ∧
      ∀ n ∈ folded.children, ∀ m ∈ n.printed, m.KeepsCrlf (Sheet.ofSource program.source) := by
  intro folded
  have hfault := fault_foldModule h features staticOnly path
  obtain ⟨info, body, hfolded, hsynthetic, -, hplaced⟩ :=
    exists_foldModule h features staticOnly path
  have hroot : folded.info.synthetic = false := by
    rw [show folded = _ from hfolded]
    exact hsynthetic
  have hchildren : folded.children = body := by
    rw [show folded = _ from hfolded]
    rfl
  constructor
  · intro c hc
    exact hrecords c.content (mem_noted (mem_preorder_self _ folded) hc)
      ((putsIn_foldModule h.untouched hfault).1 c hc)
  intro n hn m hm
  have hprinted : m ∈ folded.printed := by
    rw [printed_of_not_synthetic hroot]
    exact List.mem_cons_of_mem _ (List.mem_flatMap.mpr ⟨n, hn, hm⟩)
  obtain ⟨k, hk, hcases⟩ := printed_foldModule_cases h (hchildren ▸ hplaced) n hn m hm
  rcases hcases with ⟨hinfo, -, hmade⟩ | ⟨query, value, hasks, hanswer, hanswers⟩
  · constructor
    case placed => exact hplaced n (hchildren ▸ hn) m hm
    case comments =>
      intro c hc
      have hremains := remains_withoutPragmas h.untouched k hk
      exact hrecords c.content (mem_noted hprinted hc) (hremains.comments c (hinfo ▸ hc))
    case made => exact fun hsynthetic hne => absurd (hmade hsynthetic) hne
  · constructor
    case placed => exact hplaced n (hchildren ▸ hn) m hm
    case comments => simp [hanswers.comments]
    case made =>
      intro _ _
      rw [hanswers.edits]
      refine ensures_ok ?_
      rw [List.forall_mem_singleton]
      constructor
      case text =>
        refine FoldContext.isCrlf_answeredText hsource ?_ value
        rintro rfl callee first rest optional hshape
        exact htrimmed.of_registration h.untouched hk hasks hanswer hshape
      case stop =>
        -- The call for which an answer stands does not end between the halves of an end of a line.
        have hcloses := (Text.encloses_iff.mp hanswers.encloses).2.2
        exact hsource.not_isLineFeedAt_of_closesAt hcloses

end Node

/-- The code of a delivered module is `IsCrlf` if its source is, with at least one line feed, and
the names `v.name` of the records among its comments hold no line end. A line ends with a line feed,
as the printer has it: a carriage return by itself is no end of a line. -/
theorem Node.print_foldModule_crlf {program : Node} (h : program.Delivered)
    (htrimmed : program.Trimmed) (hsome : CodePoint.ofChar '\n' ∈ program.source)
    (hsource : program.source.IsCrlf) {features : FeatureMap} {staticOnly : List Text} {path : Text}
    (hnames : ∀ v : Verdict,
      v.comment ∈ (program.foldModule features staticOnly path).program.noted →
        ∀ c ∈ v.name, c ≠ CodePoint.ofChar '\r' ∧ c ≠ CodePoint.ofChar '\n')
    {code : Text}
    (hcode : (program.foldModule features staticOnly path).program.print = .ok code) :
    code.IsCrlf := by
  have hfault := fault_foldModule h features staticOnly path
  have hsame := source_foldModule hfault
  have hsheet : (program.foldModule features staticOnly path).program.sheet =
      Sheet.ofSource program.source := by rw [sheet, hsame]
  have hrecords : ∀ content ∈ (program.foldModule features staticOnly path).program.noted,
      program.IsRecord features content → content.IsCrlf := by
    rintro content hnoted ⟨stmt, -, state, v, -, rfl⟩
    exact v.isCrlf_comment (hnames v hnoted)
  obtain ⟨hcomments, hkeeps⟩ := keepsCrlf_foldModule h htrimmed hsource hrecords
  rw [← hsheet] at hkeeps
  rw [← hsame] at hsome hsource
  exact isCrlf_print hsource hsome hcomments hkeeps code hcode

set_option maxRecDepth 100000 in
/-- The records of a pragma and of an import come on lines that end with `\r\n`, and a registration
is answered. -/
theorem print_foldModule_crlf_registration :
    let source := text
      "import has from 'a/has';\r\n'has(\"a\")';\r\nimport 'c';\r\nhas.add('a', f);\r\n"
    let features : FeatureMap := [(text "a", true)]
    let code := text ("import has from 'a/has';\r\n// has('a'): true\r\n" ++
      "// elided: import 'c'\r\nhas.add('a', true);\r\n")
    ∃ program, ({ source, features } : TransformRequest).Reads {} program [] ∧
      program.Delivered ∧ program.Trimmed ∧ CodePoint.ofChar '\n' ∈ program.source ∧
      program.source.IsCrlf ∧ (program.foldModule features [] []).program.print = .ok code ∧
      code.IsCrlf := by
  intro source features code
  let edits : List Edit := [⟨26, 39, [], false⟩, ⟨39, 52, [], false⟩,
    ⟨52, 52, text "// has('a'): true\r\n// elided: import 'c'\r\n", false⟩,
    ⟨52, 67, text "has.add('a', true)", false⟩]
  obtain ⟨program, hreads, hdelivered, htrimmed, hsome, hsource, hsaid, hfolds⟩ :=
    TransformRequest.exists_reads source features
      (P := fun program => program.Delivered ∧ program.Trimmed ∧
        CodePoint.ofChar '\n' ∈ program.source ∧ program.source.IsCrlf ∧
        (∀ content ∈ (program.foldModule features [] []).program.noted, ∀ c ∈ content,
          c ≠ CodePoint.ofChar '\r' ∧ c ≠ CodePoint.ofChar '\n') ∧
        program.FoldsWith features edits [])
      (by decide +kernel)
  have hcode : (program.foldModule features [] []).program.print = .ok code := by
    obtain ⟨language, -, hparse⟩ := hreads.program
    have hprint := Node.print_of_ordered hfolds.edits (by decide) (by decide) (by decide)
    rw [hprint, hfolds.source, (program_of_parseModule hparse).1]
    decide +kernel
  have hcrlf := Node.print_foldModule_crlf hdelivered htrimmed hsome hsource
    (fun v hv c hc => hsaid v.comment hv c (v.name_infix.subset hc)) hcode
  exact ⟨program, hreads, hdelivered, htrimmed, hsome, hsource, hcode, hcrlf⟩

end FlagFold
