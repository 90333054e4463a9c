/-
  FlagFold.Proofs.Fold.Reported

  The list of dynamic flags, exactly: a flag is in it if it is unknown and a query for
  its value or its presence stands where the pass comes to, and the flags are in the
  order in which they are asked for first.
-/

import FlagFold.Proofs.Fold.Again
import FlagFold.Proofs.Tree.Occurrences
import Mathlib.Data.List.Induction

namespace FlagFold

namespace FoldContext

variable {ctx : FoldContext}

/-! ## What is asked for -/

/-- The flag for whose value or presence `n` asks. -/
def asked? (ctx : FoldContext) (n : Node) : Option Text :=
  match ctx.asks n with
  | some .value | some .presence => flag? n
  | _ => none

/-- The flags `asked?` for in `n`, in the order of a walk that goes into no query but registrations
that have no answer. -/
def asked (ctx : FoldContext) (n : Node) : List Text :=
  (n.preorder ctx.goesInto).filterMap ctx.asked?

/-- `n` does not keep the pass from what is below it: it is no query, or a registration that is left
alone since it names no flag, one that `ctx.features` does not have, or one of `ctx.staticOnly`. -/
def IsPassed (ctx : FoldContext) (n : Node) : Prop :=
  ctx.asks n = none ∨ ctx.asks n = some .registration ∧
    ∀ flag, flag? n = some flag → ctx.features.find? flag = none ∨ flag ∈ ctx.staticOnly

theorem asked?_eq_some_iff {n : Node} {flag : Text} :
    ctx.asked? n = some flag ↔
      (ctx.asks n = some .value ∨ ctx.asks n = some .presence) ∧ flag? n = some flag := by
  unfold asked?
  rcases ctx.asks n with _ | _ | _ | _ <;> simp

/-- `unknown?` is `asked?`, less the flags of `ctx.features`. -/
theorem unknown?_eq (ctx : FoldContext) (n : Node) :
    ctx.unknown? n = (ctx.asked? n).filter fun flag => (ctx.features.find? flag).isNone := by
  unfold unknown? asked?
  cases hasks : ctx.asks n with
  | none => rfl
  | some query =>
    cases hflag : flag? n with
    | none => cases query <;> rfl
    | some flag =>
      cases query <;> cases hfind : ctx.features.find? flag <;> simp [hfind, guard, Option.filter]

theorem unknowns_eq_filter (ctx : FoldContext) (n : Node) :
    ctx.unknowns n = (ctx.asked n).filter fun flag => (ctx.features.find? flag).isNone := by
  unfold unknowns asked
  rw [List.filter_filterMap]
  congr 1
  funext m
  exact ctx.unknown?_eq m

theorem goesInto_iff_isPassed {n : Node} : ctx.goesInto n ↔ ctx.IsPassed n := by
  unfold goesInto IsPassed
  rcases hasks : ctx.asks n with _ | _ | _ | _
  · simp
  · simp
  · simp
  · -- An answer takes a flag that is known and need not stay.
    have hanswer : ctx.answer? n = none ↔ ∀ flag, flag? n = some flag →
        ctx.features.find? flag = none ∨ flag ∈ ctx.staticOnly := by
      unfold answer?
      rw [hasks]
      cases hflag : flag? n with
      | none => simp
      | some flag => cases hfind : ctx.features.find? flag <;> simp [hfind]
    simp [hanswer]

instance (ctx : FoldContext) (n : Node) : Decidable (ctx.IsPassed n) :=
  decidable_of_iff (ctx.goesInto n) goesInto_iff_isPassed

/-- The flags of `asked` are those of queries for a value or for presence with only nodes above them
that are passed. -/
theorem mem_asked {n : Node} {flag : Text} :
    flag ∈ ctx.asked n ↔ ∃ o ∈ n.occurrences, (∀ a ∈ o.above, ctx.IsPassed a) ∧
      (ctx.asks o.node = some .value ∨ ctx.asks o.node = some .presence) ∧
        flag? o.node = some flag := by
  have hwalk : ∀ m, m ∈ n.preorder ctx.goesInto ↔
      ∃ o ∈ n.occurrences, (∀ a ∈ o.above, ctx.IsPassed a) ∧ o.node = m := by
    intro m
    rw [← Node.map_node_filter_occurrences]
    simp only [List.mem_map, List.mem_filter, List.all_eq_true, goesInto_iff_isPassed, and_assoc]
  unfold asked
  simp only [List.mem_filterMap, hwalk, asked?_eq_some_iff]
  constructor
  · rintro ⟨_, ⟨o, ho, habove, rfl⟩, hasked⟩
    exact ⟨o, ho, habove, hasked⟩
  · rintro ⟨o, ho, habove, hasked⟩
    exact ⟨o.node, ⟨o, ho, habove, rfl⟩, hasked⟩

/-! ## The order of the report -/

/-- Flags `found` in the order of `flags` still are if the list goes on with `more`. -/
theorem pairwise_idxOf_append {flags found : List Text} (hmem : ∀ flag ∈ found, flag ∈ flags)
    (h : found.Pairwise fun first second => flags.idxOf first < flags.idxOf second)
    (more : List Text) :
    found.Pairwise fun first second =>
      (flags ++ more).idxOf first < (flags ++ more).idxOf second := by
  refine h.imp_of_mem fun hfirst hsecond hlt => ?_
  rwa [List.idxOf_append_of_mem (hmem _ hfirst), List.idxOf_append_of_mem (hmem _ hsecond)]

/-- `addDynamic` of the next `flag` keeps the order of `flags`. -/
theorem pairwise_addDynamic {flags found : List Text} {flag : Text}
    (hmem : ∀ other ∈ found, other ∈ flags) (hnew : flag ∈ flags → flag ∈ found)
    (h : found.Pairwise fun first second => flags.idxOf first < flags.idxOf second) :
    (Folding.addDynamic found flag).Pairwise fun first second =>
      (flags ++ [flag]).idxOf first < (flags ++ [flag]).idxOf second := by
  have hkept := pairwise_idxOf_append hmem h [flag]
  rw [Folding.addDynamic]
  split
  case isTrue => exact hkept
  case isFalse hfound =>
    rw [List.contains_iff_mem] at hfound
    refine List.pairwise_append.mpr ⟨hkept, List.pairwise_singleton _ _, fun other hother => ?_⟩
    have hlt : flags.idxOf other < flags.length := List.idxOf_lt_length_of_mem (hmem _ hother)
    rw [List.forall_mem_singleton, List.idxOf_append_of_mem (hmem _ hother),
      List.idxOf_append_of_notMem (mt hnew hfound)]
    omega

/-- `addDynamic` over those of `flags` that are `chosen` adds each where it comes first; by
induction on the list from its end. -/
theorem pairwise_foldl_addDynamic (chosen : Text → Bool) (flags : List Text) :
    ((flags.filter chosen).foldl Folding.addDynamic []).Pairwise fun first second =>
      flags.idxOf first < flags.idxOf second := by
  induction flags using List.reverseRecOn with
  | nil => exact .nil
  | append_singleton flags flag ih =>
    have hfound : ∀ other, other ∈ (flags.filter chosen).foldl Folding.addDynamic [] ↔
        other ∈ flags ∧ chosen other := by
      intro other
      rw [mem_foldl_addDynamic, List.mem_filter]
      simp only [List.not_mem_nil, false_or]
    have hmem := fun other hother => ((hfound other).mp hother).1
    rw [List.filter_append, List.foldl_append]
    by_cases hchosen : chosen flag
    · rw [List.filter_cons_of_pos hchosen, List.filter_nil, List.foldl_cons, List.foldl_nil]
      exact pairwise_addDynamic hmem (fun h => (hfound flag).mpr ⟨h, hchosen⟩) ih
    · rw [List.filter_cons_of_neg hchosen, List.filter_nil, List.foldl_nil]
      exact pairwise_idxOf_append hmem ih [flag]

end FoldContext

/-! ## The report -/

/-- `foldQueries` reports just the unknown flags that a query for a value or for presence names
where the pass comes to, each once and in the order in which they are asked for first. The pass
comes to nothing in such a query, whether it is answered or not, and to nothing in a registration
that is answered, but to what is in a registration that is left alone. -/
theorem Node.dynamic_iff_asked {program : Node} (hroot : program.kind = .program)
    (ctx : FoldContext) :
    let dynamic := (program.foldQueries ctx []).2.dynamic
    (∀ flag, flag ∈ dynamic ↔ ctx.features.find? flag = none ∧
      ∃ o ∈ program.occurrences, (∀ a ∈ o.above, ctx.IsPassed a) ∧
        (ctx.asks o.node = some .value ∨ ctx.asks o.node = some .presence) ∧
          FoldContext.flag? o.node = some flag) ∧
    dynamic.Nodup ∧
    dynamic.Pairwise fun first second =>
      (ctx.asked program).idxOf first < (ctx.asked program).idxOf second := by
  intro dynamic
  have hdynamic : dynamic = ((ctx.asked program).filter fun flag =>
      (ctx.features.find? flag).isNone).foldl Folding.addDynamic [] := by
    rw [← ctx.unknowns_eq_filter]
    exact dynamic_foldQueries hroot ctx []
  have horder := FoldContext.pairwise_foldl_addDynamic
    (fun flag => (ctx.features.find? flag).isNone) (ctx.asked program)
  rw [← hdynamic] at horder
  refine ⟨fun flag => ?_, horder.imp fun hlt heq => ?_, horder⟩
  · rw [hdynamic, FoldContext.mem_foldl_addDynamic, List.mem_filter, FoldContext.mem_asked,
      Option.isNone_iff_eq_none, and_comm]
    simp only [List.not_mem_nil, false_or]
  · rw [heq] at hlt
    exact lt_irrefl _ hlt

/-- Calls of `has` for a flag and for a computed one, and of `add` around such calls. -/
def nestedQueries : Node :=
  let call (name : String) (arguments : List Node) : Node :=
    .mk {} (.call (some (.mk {} (.identifier (text name)))) arguments false)
  let flag (name : String) : Node := .mk {} (.string (text name) [])
  .mk {} (.program ([
    call "has" [flag "zeta"],
    call "has" [call "has" [flag "inner"]],
    call "add" [flag "open", call "has" [flag "alpha"]],
    call "has" [flag "zeta"],
    call "add" [flag "foo", call "has" [flag "hidden"]]].map fun query =>
      .mk {} (.expressionStatement (some query))) [])

/-- In `nestedQueries` the query in the registration that is left alone is reported, those in a
query and in the registration that is answered are not. -/
theorem Node.dynamic_iff_asked_nestedQueries :
    let ctx : FoldContext :=
      ⟨[(text "foo", false)], [], { name := some (text "has"), addName := some (text "add") }⟩
    let dynamic := (nestedQueries.foldQueries ctx []).2.dynamic
    nestedQueries.kind = .program ∧ text "zeta" ∈ dynamic ∧ text "alpha" ∈ dynamic ∧
      text "inner" ∉ dynamic ∧ text "hidden" ∉ dynamic ∧ text "open" ∉ dynamic := by
  intro ctx dynamic
  have hroot : nestedQueries.kind = .program := rfl
  obtain ⟨hmem, -, -⟩ := Node.dynamic_iff_asked hroot ctx
  refine ⟨hroot, ?_⟩
  simp only [dynamic, hmem]
  decide +kernel

example :
    let ctx : FoldContext :=
      ⟨[(text "foo", false)], [], { name := some (text "has"), addName := some (text "add") }⟩
    (nestedQueries.foldQueries ctx []).2.dynamic = [text "zeta", text "alpha"] := by
  decide +kernel

end FlagFold
