/-
  FlagFold.Proofs.Fold.Triggers

  Modules in which none of the triggers stands.  If their pragmas and the modules
  that they load are spelled plainly, without escapes and without white space behind
  `has`, both passes have nothing to do, and the source is what comes out.  Other
  spellings are read just the same and hold no trigger.
-/

import FlagFold.Proofs.Fold.Mapped
import FlagFold.Proofs.Fold.Names
import FlagFold.Proofs.Fold.Settled
import FlagFold.Proofs.Text.Pieces

namespace FlagFold

/-! ## Plain spelling -/

namespace StringLiteral

/-- `decodeFrom` leaves a text without a backslash as it is. -/
theorem decodeFrom_of_no_backslash {t : Text} (h : CodePoint.ofChar '\\' ∉ t) :
    decodeFrom 0 t = .ok t := by
  induction t with
  | nil => rfl
  | cons c rest ih =>
    rw [List.mem_cons, not_or] at h
    have hc : ¬ c = CodePoint.ofChar '\\' := fun heq => h.1 heq.symm
    unfold decodeFrom
    simp only [if_neg hc, ih h.2]
    rfl

/-- The value of a literal `raw` without a backslash occurs in it. -/
theorem infix_of_decode {raw value : Text} (h : CodePoint.ofChar '\\' ∉ raw)
    (hvalue : decode raw = .ok value) : value <:+: raw := by
  have hmiddle : (raw.drop 1).dropLast <:+: raw :=
    (List.dropLast_prefix _).isInfix.trans (List.drop_suffix _ _).isInfix
  rw [decode, decodeFrom_of_no_backslash fun hc => h (hmiddle.subset hc)] at hvalue
  cases hvalue
  exact hmiddle

end StringLiteral

/-- `n` is a string literal written with a backslash. -/
def Node.isEscaped (n : Node) : Bool :=
  match n.shape with
  | .string _ raw => raw.contains (CodePoint.ofChar '\\')
  | _ => false

/-- The value of a literal that is read from `source` and not escaped occurs in it. -/
theorem Node.infix_of_literal? {source : Text} {n : Node} (hread : n.IsRead source)
    (hplain : n.isEscaped = false) {t : Text} (ht : n.literal? = some t) : t <:+: source := by
  unfold literal? at ht
  unfold IsRead at hread
  unfold isEscaped at hplain
  split at ht
  case h_1 value raw hshape =>
    cases ht
    rw [hshape] at hread hplain
    obtain ⟨⟨a, b, hraw⟩, hvalue⟩ := hread
    have hbackslash : CodePoint.ofChar '\\' ∉ raw := by simpa using hplain
    have hin := StringLiteral.infix_of_decode hbackslash hvalue
    rw [hraw] at hin
    exact hin.trans (source.slice_infix a b)
  case h_2 chunk hshape =>
    cases ht
    rw [hshape] at hread
    obtain ⟨a, b, hchunk⟩ := hread t (List.mem_singleton_self t)
    rw [hchunk]
    exact source.slice_infix a b
  case h_3 => cases ht

namespace Pragma

theorem after?_eq_some {start : String} {t rest : Text} :
    after? start t = some rest ↔ t = text start ++ rest := by
  unfold after?
  simp only [Option.ite_none_right_eq_some, List.isPrefixOf_iff_prefix, Option.some.injEq]
  constructor
  · rintro ⟨⟨rest', rfl⟩, rfl⟩
    rw [List.drop_left]
  · rintro rfl
    exact ⟨List.prefix_append _ _, List.drop_left⟩

theorem exists_dropSpace (t : Text) :
    ∃ space, t = space ++ dropSpace t ∧ ∀ c ∈ space, c.isSpace := by
  refine ⟨t.takeWhile CodePoint.isSpace, List.takeWhile_append_dropWhile.symm, fun c hc => ?_⟩
  exact List.mem_takeWhile_imp hc

/-- A pragma that `parse?` finds holds `has` and an opening parenthesis, with nothing but white
space between them. -/
theorem exists_of_parse? {t : Text} {p : Pragma} (h : parse? t = some p) :
    ∃ before space rest, t = before ++ (text "has" ++ (space ++ (text "(" ++ rest))) ∧
      ∀ c ∈ space, c.isSpace := by
  unfold parse? at h
  obtain ⟨behind, hhas, h⟩ := Option.bind_eq_some_iff.mp h
  obtain ⟨rest, hopen, -⟩ := Option.bind_eq_some_iff.mp h
  rw [after?_eq_some] at hhas hopen
  obtain ⟨first, hfirst, -⟩ := exists_dropSpace t
  obtain ⟨space, hspace, hall⟩ := exists_dropSpace behind
  rw [hopen] at hspace
  -- Before `has` stand white space and, if the query is negated, a mark with more white space.
  split at hhas
  case isTrue =>
    obtain ⟨second, hsecond, -⟩ := exists_dropSpace ((dropSpace t).drop 1)
    refine ⟨first ++ ((dropSpace t).take 1 ++ second), space, rest, ?_, hall⟩
    have hmarked : (dropSpace t).take 1 ++ (second ++ dropSpace ((dropSpace t).drop 1)) =
        dropSpace t := by
      rw [← hsecond, List.take_append_drop]
    rw [← hspace, ← hhas, List.append_assoc, List.append_assoc, hmarked, ← hfirst]
  case isFalse =>
    obtain ⟨second, hsecond, -⟩ := exists_dropSpace (dropSpace t)
    refine ⟨first ++ second, space, rest, ?_, hall⟩
    rw [← hspace, ← hhas, List.append_assoc, ← hsecond, ← hfirst]

/-- White space comes right behind some `has` in `t`. -/
def isSpaced (t : Text) : Bool :=
  t.tails.any fun rest =>
    (text "has").isPrefixOf rest && (rest.drop 3).head?.any CodePoint.isSpace

/-- A pragma without such white space holds the trigger `has(`. -/
theorem infix_of_parse? {t : Text} {p : Pragma} (h : parse? t = some p)
    (hplain : isSpaced t = false) : text "has(" <:+: t := by
  obtain ⟨before, space, rest, rfl, hspace⟩ := exists_of_parse? h
  cases space with
  | nil => exact ⟨before, rest, by simp [text]⟩
  | cons c space =>
    have hbehind : (text "has" ++ (c :: space ++ (text "(" ++ rest))) ∈
        (before ++ (text "has" ++ (c :: space ++ (text "(" ++ rest)))).tails :=
      (List.mem_tails _ _).mpr (List.suffix_append _ _)
    have hc := List.any_eq_false.mp hplain _ hbehind
    simp [hspace c List.mem_cons_self, text] at hc

end Pragma

/-! ## Loaded modules -/

/-- A name of the feature-query module holds the trigger `/has`. -/
theorem infix_of_isQueryModule {name : Text} (h : isQueryModule name) : text "/has" <:+: name := by
  rw [isQueryModule, endsLike, Bool.or_eq_true, List.isSuffixOf_iff_suffix,
    List.isSuffixOf_iff_suffix] at h
  rcases h with h | h
  · exact h.isInfix
  · exact (List.prefix_append _ _).isInfix.trans h.isInfix

/-- The literal with which `require('…')` names a module. -/
def Node.requiredLiteral? (n : Option Node) : Option Node :=
  match n.map Node.shape with
  | some (.call _ [argument] _) => some argument
  | _ => none

/-- The literals with which a statement that may bind names its modules. -/
def Node.moduleLiterals (stmt : Node) : List Node :=
  match stmt.shape with
  | .importDeclaration _ source => source.toList
  | .variableDeclaration _ ds => ds.filterMap fun d =>
    match d.shape with
    | .variableDeclarator _ init => Node.requiredLiteral? init
    | _ => none
  | _ => []

/-- `stmt` names the feature-query module in one of its `moduleLiterals`. -/
def Node.loadsQueryModule (stmt : Node) : Bool :=
  stmt.moduleLiterals.any fun l => l.literal?.any isQueryModule

theorem Node.exists_of_requiredModule? {n : Option Node} {module : Text}
    (h : requiredModule? n = some module) :
    ∃ l, requiredLiteral? n = some l ∧ l.literal? = some module := by
  unfold requiredModule? at h
  unfold requiredLiteral?
  split at h
  case h_2 => cases h
  case h_1 callee argument isOptional hshape =>
    rw [hshape]
    refine ⟨argument, rfl, ?_⟩
    split at h
    case h_2 => cases h
    case h_1 name value raw hcallee hargument =>
      rw [Option.ite_none_right_eq_some] at h
      rw [literal?, hargument]
      exact h.2

theorem Node.literal?_of_words? {n : Node} {t : Text} (h : n.words? = some t) :
    n.literal? = some t := by
  unfold words? at h
  unfold literal?
  split at h
  case h_1 value raw hshape => rwa [hshape]
  case h_2 => cases h

/-- A statement that does not load the feature-query module has no `offers`. -/
theorem Node.offers_of_loadsQueryModule {stmt : Node} (h : stmt.loadsQueryModule = false) :
    stmt.offers = [] := by
  unfold loadsQueryModule moduleLiterals at h
  unfold offers
  cases hshape : stmt.shape with
  | variableDeclaration keyword ds =>
    simp only [hshape, List.any_filterMap, List.any_eq_false] at h
    simp only [Option.toList_eq_nil_iff, List.findSome?_eq_none_iff]
    intro d hd
    have hnone := h d hd
    unfold declaratorOffer?
    split
    case h_2 => rfl
    case h_1 target init hd' =>
      -- A module that is loaded is named by the literal of the call.
      cases hmodule : requiredModule? init with
      | none => rfl
      | some module =>
        obtain ⟨l, hl, hvalue⟩ := exists_of_requiredModule? hmodule
        simp_all
  | importDeclaration names source =>
    cases source with
    | none => rfl
    | some source =>
      have hnone : source.literal?.any isQueryModule = false := by simpa [hshape] using h
      have hwords : source.words?.any isQueryModule = false := by
        cases hwords : source.words? with
        | none => rfl
        | some module => rwa [literal?_of_words? hwords] at hnone
      simp only [hwords, Bool.false_eq_true, if_false]
  | _ => rfl

/-- If no statement directly in a program of `n` loads the feature-query module, `n` has no
`namings`. -/
theorem Node.namings_of_loadsQueryModule {n : Node}
    (h : ∀ m ∈ n.subnodes, m.kind = .program → ∀ stmt ∈ m.children,
      stmt.loadsQueryModule = false) : n.namings = [] := by
  induction n using Node.induction with
  | mk info shape ih =>
    rw [namings_mk, List.flatMap_eq_nil_iff]
    intro c hc
    have hbelow := ih c hc fun m hm => h m (mem_subnodes_of_mem_children hc hm)
    rw [hbelow, List.append_nil, offersIn]
    split
    case isTrue hprogram =>
      exact offers_of_loadsQueryModule (h _ (mem_subnodes_self _) hprogram c hc)
    case isFalse => rfl

/-! ## Modules without triggers -/

namespace Node

/-- The pragmas and the loads of the feature-query module in `program` are spelled so that they hold
a trigger: the literals without escapes, a pragma also without white space behind `has`. -/
structure PlainlySpelled (program : Node) : Prop where
  pragmas : ∀ m ∈ program.subnodes, ∀ stmt ∈ m.children, stmt.pragma?.isSome →
    ∀ e ∈ stmt.children, e.isEscaped = false ∧ e.literal?.any Pragma.isSpaced = false
  modules : ∀ m ∈ program.subnodes, m.kind = .program → ∀ stmt ∈ m.children,
    ∀ l ∈ stmt.moduleLiterals, l.literal?.any isQueryModule → l.isEscaped = false

instance (program : Node) : Decidable program.PlainlySpelled :=
  decidable_of_iff ((∀ m ∈ program.subnodes, ∀ stmt ∈ m.children, stmt.pragma?.isSome →
      ∀ e ∈ stmt.children, e.isEscaped = false ∧ e.literal?.any Pragma.isSpaced = false) ∧
    ∀ m ∈ program.subnodes, m.kind = .program → ∀ stmt ∈ m.children,
      ∀ l ∈ stmt.moduleLiterals, l.literal?.any isQueryModule → l.isEscaped = false)
    ⟨fun ⟨pragmas, modules⟩ => ⟨pragmas, modules⟩, fun h => ⟨h.pragmas, h.modules⟩⟩

/-- The literal of `require('…')` is a child of the call. -/
theorem exists_of_requiredLiteral? {n : Option Node} {l : Node} (h : requiredLiteral? n = some l) :
    ∃ call, n = some call ∧ l ∈ call.children := by
  unfold requiredLiteral? at h
  split at h
  case h_1 callee argument isOptional hshape =>
    cases h
    obtain ⟨call, hcall, hshape⟩ := Option.map_eq_some_iff.mp hshape
    exact ⟨call, hcall, by simp [children, hshape, Shape.nodes]⟩
  case h_2 => cases h

/-- The `moduleLiterals` are below their statement. -/
theorem mem_subnodes_of_mem_moduleLiterals {stmt l : Node} (h : l ∈ stmt.moduleLiterals) :
    l ∈ stmt.subnodes := by
  unfold moduleLiterals at h
  split at h
  case h_1 names s hshape =>
    apply mem_subnodes_of_mem_children _ (mem_subnodes_self l)
    simp [children, hshape, Shape.nodes, Option.mem_toList.mp h]
  case h_2 keyword ds hshape =>
    obtain ⟨d, hd, hl⟩ := List.mem_filterMap.mp h
    split at hl
    case h_2 => cases hl
    case h_1 target init hd' =>
      obtain ⟨call, hcall, hl⟩ := exists_of_requiredLiteral? hl
      have hcall : call ∈ d.children := by simp [children, hd', Shape.nodes, hcall]
      have hd : d ∈ stmt.children := by simp [children, hshape, Shape.nodes, hd]
      exact mem_subnodes_of_mem_children hd
        (mem_subnodes_of_mem_children hcall (mem_subnodes_of_mem_children hl (mem_subnodes_self l)))
  case h_3 => cases h

variable {source : Text} {program : Node} {path : Text}

/-- If `source` needs no folding, a `PlainlySpelled` program has no pragma. -/
theorem pragmaFree_of_untriggered (h : program.Parsed source) (hplain : program.PlainlySpelled)
    (hnone : needsFolding source (some path) = false) : program.PragmaFree := by
  intro m hm p hp _
  have hp := List.fst_mem_of_mem_zipIdx hp
  by_contra hpragma
  have hsome : p.1.pragma?.isSome := Option.isSome_iff_ne_none.mpr hpragma
  have hparsed := (h.of_mem_subnodes hm).of_mem_children hp
  obtain ⟨pragma, hread⟩ := Option.isSome_iff_exists.mp hsome
  unfold pragma? at hread
  split at hread
  case h_2 => cases hread
  case h_1 e hshape =>
    have he : e ∈ p.1.children := by simp [children, hshape, Shape.nodes]
    obtain ⟨hescaped, hspaced⟩ := hplain.pragmas m hm p.1 hp hsome e he
    obtain ⟨t, ht, hread⟩ := Option.bind_eq_some_iff.mp hread
    rw [ht, Option.any_some] at hspaced
    have hin := infix_of_literal? (hparsed.of_mem_children he).fresh.isRead hescaped ht
    have hhas := (Pragma.infix_of_parse? hread hspaced).trans hin
    have htrigger : (text "has(").occursIn source := Text.occursIn_iff.mpr hhas
    simp [needsFolding, triggers, htrigger] at hnone

/-- If `source` needs no folding, a `PlainlySpelled` program does not load the feature-query
module. -/
theorem loadsQueryModule_of_untriggered (h : program.Parsed source)
    (hplain : program.PlainlySpelled) (hnone : needsFolding source (some path) = false) :
    ∀ m ∈ program.subnodes, m.kind = .program → ∀ stmt ∈ m.children,
      stmt.loadsQueryModule = false := by
  intro m hm hkind stmt hstmt
  by_contra hloads
  rw [Bool.not_eq_false] at hloads
  obtain ⟨l, hl, hquery⟩ := List.any_eq_true.mp hloads
  have hescaped := hplain.modules m hm hkind stmt hstmt l hl hquery
  obtain ⟨t, ht, hquery⟩ := (Option.any_eq_true _ _).mp hquery
  have hparsed := (h.of_mem_subnodes hm).of_mem_children hstmt
  have hread := (hparsed l (mem_subnodes_of_mem_moduleLiterals hl)).isRead
  have hhas := (infix_of_isQueryModule hquery).trans (infix_of_literal? hread hescaped ht)
  have htrigger : (text "/has").occursIn source := Text.occursIn_iff.mpr hhas
  simp [needsFolding, triggers, htrigger] at hnone

/-- If `source` needs no folding, `foldModule` leaves a `PlainlySpelled` program as it is, and
reports nothing. -/
theorem foldModule_of_untriggered (h : program.Parsed source) (hplain : program.PlainlySpelled)
    (hnone : needsFolding source (some path) = false) (features : FeatureMap)
    (staticOnly : List Text) :
    let folded := program.foldModule features staticOnly path
    folded.fault = none ∧ folded.program = program ∧ folded.dynamic = [] := by
  have hpath : isQueryModulePath (some path) = false := by
    rw [needsFolding, Bool.or_eq_false_iff] at hnone
    exact hnone.1
  have hsame : (program.bindModule features path).1 = program :=
    bindModule_of_pragmaFree h.wellTyped features
      fun _ => pragmaFree_of_untriggered h hplain hnone
  have hfault := fault_bindModule h.wellTyped features path
  have hbinding : (program.bindModule features path).2.binding = {} := by
    have hnamings :=
      namings_of_loadsQueryModule (loadsQueryModule_of_untriggered h hplain hnone)
    rw [bindModule, hpath] at hsame ⊢
    exact (binding_elide h.wellTyped features {}).trans
      (by rw [if_neg Bool.false_ne_true] at hsame; rw [hsame, hnamings]; rfl)
  unfold foldModule
  generalize program.bindModule features path = bound at hsame hfault hbinding ⊢
  obtain ⟨left, elision⟩ := bound
  simp only at hsame hfault hbinding ⊢
  subst hsame
  rw [hfault, hbinding]
  exact ⟨rfl, rfl, rfl⟩

end Node

/-- The output of an `Untouched` program is one copy of its source. -/
theorem Node.printChunks_of_untouched {program : Node} (h : program.Untouched) :
    program.printChunks = .ok (Chunk.copy 0 program.source.length) := by
  rw [printChunks, programEdits_of_untouched h]
  exact Sheet.splice_nil _ _

/-- If the source of a request needs no folding and `program` is `PlainlySpelled`, the code comes
out as it is, and no flag is reported: without a map or with a well-formed one there is a result,
and whatever the result, it has the source for its code. -/
theorem transform_untriggered {request : TransformRequest} {settings : Settings} {program : Node}
    {staticOnly : List Text} (h : request.Reads settings program staticOnly)
    (hplain : program.PlainlySpelled)
    (hnone : needsFolding request.source (some request.path) = false) (w : World) :
    let run := ((transform request Job.write).run settings w).1
    (request.map = none → run = .ok ⟨request.source, none, []⟩) ∧
      (∀ m original, request.map = some m → SourceMap.check .input m = .ok original →
        SourceMap.MayList "names" m → SourceMap.MayList "sourcesContent" m →
        ∃ composed, run = .ok ⟨request.source, some composed, []⟩) ∧
      ∀ result, run = .ok result → result.code = request.source ∧ result.dynamic = [] := by
  intro run
  obtain ⟨language, -, hparse⟩ := h.program
  have hparsed := parsed_of_parseModule hparse
  obtain ⟨hfault, hprogram, hdynamic⟩ :=
    Node.foldModule_of_untriggered hparsed hplain hnone request.features staticOnly
  have hchunks := Node.printChunks_of_untouched hparsed.untouched
  have hsource : Chunk.outputs program.source (Chunk.copy 0 program.source.length) =
      request.source := by
    rw [(program_of_parseModule hparse).1, Chunk.outputs_copy]
    simp [Text.slice]
  -- No edit is made, so that the source is copied as one chunk.
  have hprint : program.print = .ok request.source := by
    rw [Node.print, hchunks, ← hsource]
    rfl
  have hrun : run = (program.printChained request.path request.map).map fun printed =>
      ⟨printed.1, printed.2, []⟩ := by
    have hrun := run_transform h w hfault
    rwa [hprogram, hdynamic] at hrun
  refine ⟨fun hmap => ?_, fun m original hmap hcheck hnames hcontents => ?_,
    fun result hresult => ?_⟩
  · rw [hrun, hmap, Node.printChained, hprint]
    rfl
  · obtain ⟨composed, hprinted, -⟩ :=
      Node.exists_printChained hchunks hcheck hnames hcontents request.path
    rw [hsource] at hprinted
    refine ⟨composed, ?_⟩
    rw [hrun, hmap, hprinted]
    rfl
  · obtain ⟨hprinted, hreported⟩ := printChained_of_run_transform h hresult hfault
    rw [hprogram] at hprinted
    have hcode := Node.print_of_printChained hprinted
    exact ⟨Except.ok.inj (hcode.symm.trans hprint), by rw [← hreported, hdynamic]⟩

set_option maxRecDepth 100000 in
/-- A call that is no query, behind a statement that is no pragma. -/
theorem transform_untriggered_call :
    let request : TransformRequest := { source := text "'use strict';\nhas\n('x');\n" }
    ∃ program, request.Reads {} program [] ∧ program.PlainlySpelled ∧
      needsFolding request.source (some request.path) = false ∧
      ∀ w, ((transform request Job.write).run {} w).1 = .ok ⟨request.source, none, []⟩ := by
  intro request
  have hnone : needsFolding request.source (some request.path) = false := by decide +kernel
  obtain ⟨program, hreads, hplain⟩ :=
    TransformRequest.exists_reads request.source []
      (P := fun program => program.PlainlySpelled) (by decide +kernel)
  exact ⟨program, hreads, hplain, hnone,
    fun w => (transform_untriggered hreads hplain hnone w).1 rfl⟩

set_option maxRecDepth 100000 in
/-- A pragma with a blank before its parenthesis holds no trigger, and is taken out. -/
theorem transform_untriggered_spaced :
    let request : TransformRequest := { source := text "'has (\"x\")';\nc;\n" }
    needsFolding request.source (some request.path) = false ∧
      (∃ program, request.Reads {} program []) ∧
      ∀ w, ((transform request Job.write).run {} w).1 =
        .ok ⟨text "// has('x')\nc;\n", none, []⟩ := by
  intro request
  obtain ⟨program, hreads, hfolds⟩ :=
    TransformRequest.exists_reads request.source []
      (P := fun program =>
        program.FoldsWith [] [⟨0, 13, [], false⟩, ⟨13, 13, text "// has('x')\n", false⟩] [])
      (by decide +kernel)
  exact ⟨by decide +kernel, ⟨program, hreads⟩, run_transform_of_edits hreads hfolds (by decide)
    (by decide) (by decide +kernel)⟩

end FlagFold
