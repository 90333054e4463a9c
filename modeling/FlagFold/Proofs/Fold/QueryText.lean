/-
  FlagFold.Proofs.Fold.QueryText

  What the folding of queries does to the text of a program: the spans of the
  queries that are answered are replaced, all else is copied, and no query that
  could be answered is left.
-/

import FlagFold.Proofs.Fold.QueryRule
import FlagFold.Proofs.Print.Program
import FlagFold.Proofs.Tree.Layout

namespace FlagFold

/-- `value` as it is written. -/
def truthText (value : Bool) : Text := if value then text "true" else text "false"

theorem Sheet.render_makeBoolean (sheet : Sheet) (value : Bool) (n : Node) :
    sheet.render (Node.makeBoolean value n) = .ok (truthText value) := by
  simp only [Node.makeBoolean, render, if_true, generate, truthText]

namespace FoldContext

/-- The text that takes the place of the answered query `n`: `value`, and for a registration the
same call on its flag and `value`. -/
def answeredText (source : Text) (n : Node) (query : Query) (value : Bool) : Text :=
  match query, n.shape with
  | .registration, .call (some callee) (first :: _) optional =>
    source.slice callee.info.start callee.info.stop ++ (if optional then text "?." else []) ++
      text "(" ++ source.slice first.info.start first.info.stop ++ text ", " ++
      truthText value ++ text ")"
  | _, _ => truthText value

/-- The edit for `n`: the span of an answered query is replaced by `answeredText`. -/
def change? (ctx : FoldContext) (source : Text) (n : Node) : Option Edit := do
  let query ← ctx.asks n
  let value ← ctx.answer? n
  return ⟨n.info.start, n.info.stop, answeredText source n query value, false⟩

/-- The replacements in `n`, in the order of a walk that goes into no query but registrations that
have no answer. -/
def changes (ctx : FoldContext) (source : Text) (n : Node) : List Edit :=
  (n.preorder ctx.goesInto).filterMap (ctx.change? source)

/-! ## The edits of a folded tree -/

variable {ctx : FoldContext} {sheet : Sheet}

/-- If the walk does not go into `n`, its own replacement is the only one. -/
theorem changes_of_not_goesInto {n : Node} (h : ctx.goesInto n = false) (source : Text) :
    ctx.changes source n = (ctx.change? source n).toList := by
  cases n with
  | mk info shape =>
    rw [changes, Node.preorder_mk, h]
    cases hchange : ctx.change? source (.mk info shape) <;> simp [hchange]

/-- If the walk goes into a node, its replacements are those of its nodes. -/
theorem changes_of_goesInto {info : Info} {shape : Shape Node}
    (h : ctx.goesInto (.mk info shape)) (hanswer : ctx.answer? (.mk info shape) = none)
    (source : Text) :
    ctx.changes source (.mk info shape) = shape.nodes.flatMap (ctx.changes source) := by
  have hchange : ctx.change? source (.mk info shape) = none := by simp [change?, hanswer]
  rw [changes, Node.preorder_mk, if_pos h, List.filterMap_cons_none hchange,
    List.filterMap_flatMap]
  rfl

/-- The one edit of the answer to a query is its `change?`. Of a registration only the callee and
the flag are kept, and nothing is to be edited in them. -/
theorem edits_answered_of_kept {n : Node} {query : Query} {value : Bool}
    (hkept : query = .registration → ∀ callee first rest optional,
      n.shape = .call (some callee) (first :: rest) optional →
        callee.Untouched ∧ first.Untouched)
    (hasks : ctx.asks n = some query) (hanswer : ctx.answer? n = some value) :
    sheet.edits (answered n query value) =
      .ok (ctx.change? sheet.source n).toList := by
  obtain ⟨callee, arguments, optional, hshape, hquery⟩ := asks_call hasks
  simp only [change?, hasks, hanswer, Option.bind_eq_bind, Option.bind_some, Option.toList_some,
    Option.pure_def]
  cases query with
  | registration =>
    obtain ⟨first, second, rest, rfl⟩ := arguments_of_registration hquery
    obtain ⟨hcallee, hfirst⟩ := hkept rfl _ _ _ _ hshape
    have hfirst : sheet.render first = _ := Sheet.render_of_untouched hfirst
    have hcallee : sheet.render callee = _ := Sheet.render_of_untouched hcallee
    simp only [answered, answeredText, hshape]
    rw [Sheet.edits_of_synthetic (by rfl) (by rfl) (by simp)]
    simp only [Sheet.generate, Sheet.renderList, Sheet.renderOption, hfirst, hcallee,
      Sheet.render_makeBoolean, bind, Except.bind, pure, Except.pure]
    simp [Text.join]
  | value | presence =>
    simp only [answered, answeredText, Node.makeBoolean]
    rw [Sheet.edits_of_synthetic (by rfl) (by rfl) (by simp)]
    simp only [Sheet.generate, truthText, bind, Except.bind, pure, Except.pure]

theorem edits_answered {n : Node} {query : Query} {value : Bool} (hn : n.Untouched)
    (hasks : ctx.asks n = some query) (hanswer : ctx.answer? n = some value) :
    sheet.edits (answered n query value) =
      .ok (ctx.change? sheet.source n).toList := by
  refine edits_answered_of_kept (fun _ callee first rest optional hshape => ?_) hasks hanswer
  constructor
  · exact hn.of_mem_children (by simp [Node.children, hshape, Shape.nodes])
  · exact hn.of_mem_children (by simp [Node.children, hshape, Shape.nodes])

/-- The edits of a rebuilt tree are its `changes`. -/
theorem edits_rebuild {n : Node} (hn : n.Untouched) :
    sheet.edits (n.rebuild ctx.entry) = .ok (ctx.changes sheet.source n) := by
  induction n using Node.induction with
  | mk info shape ih =>
    rw [Node.rebuild_mk]
    rcases ctx.entry_cases (.mk info shape) with
      ⟨query, value, hasks, hanswer, hgoes, hentry⟩ | ⟨hanswer, hgoes, hentry⟩ |
      ⟨hanswer, hgoes, hentry, -⟩
    · rw [hentry, changes_of_not_goesInto hgoes]
      exact edits_answered hn hasks hanswer
    · have hchange : ctx.change? sheet.source (.mk info shape) = none := by
        simp [change?, hanswer]
      rw [hentry, changes_of_not_goesInto hgoes, hchange]
      exact Sheet.edits_of_untouched hn
    · rw [hentry, changes_of_goesInto hgoes hanswer]
      have hcomments : info.comments = [] := hn.comments
      have hsynthetic : info.synthetic = false := hn.synthetic
      have hinner : sheet.listEdits (shape.map (·.rebuild ctx.entry)).nodes =
          .ok (shape.nodes.flatMap (ctx.changes sheet.source)) := by
        rw [Shape.nodes_map]
        exact Sheet.listEdits_map fun n hn' => ih n hn' (hn.of_mem_children hn')
      simp only [Node.info_mk]
      rw [Sheet.edits_of_not_synthetic hsynthetic, hinner, Sheet.leadingEdit, Sheet.trailingEdit,
        hcomments]
      simp [bind, Except.bind, pure, Except.pure]

/-! ## The spans that are replaced -/

/-- The `changes` of a node that is laid out lie in its span, one behind the other, and none has
`ownLine`. -/
theorem changes_spec {n : Node} (hn : n.LaidOut) (source : Text) :
    (∀ e ∈ ctx.changes source n, n.info.start ≤ e.start ∧ e.start ≤ e.stop ∧
      e.stop ≤ n.info.stop ∧ e.ownLine = false) ∧
    (ctx.changes source n).Pairwise (·.stop ≤ ·.start) := by
  induction n using Node.induction with
  | mk info shape ih =>
    obtain ⟨hspan, hinside, hordered⟩ := hn.spansChildren
    cases hgoes : ctx.goesInto (.mk info shape) with
    | false =>
      rw [changes_of_not_goesInto hgoes]
      cases hchange : ctx.change? source (.mk info shape) with
      | none => simp
      | some e =>
        simp only [change?, Option.bind_eq_bind, Option.bind_eq_some_iff, Option.pure_def,
          Option.some.injEq] at hchange
        obtain ⟨query, -, value, -, rfl⟩ := hchange
        simpa using hspan
    | true =>
      have hanswer : ctx.answer? (.mk info shape) = none := by
        rcases ctx.entry_cases (.mk info shape) with ⟨_, _, _, _, h, _⟩ | h | h
        · rw [hgoes] at h
          cases h
        · exact h.1
        · exact h.1
      rw [changes_of_goesInto hgoes hanswer]
      have hchild := fun n hn' => ih n hn' (hn.of_mem_children hn')
      constructor
      · intro e he
        obtain ⟨c, hc, he⟩ := List.mem_flatMap.mp he
        obtain ⟨hstart, hle, hstop, hown⟩ := (hchild c hc).1 e he
        obtain ⟨hfrom, hto⟩ := hinside c hc
        exact ⟨Nat.le_trans hfrom hstart, hle, Nat.le_trans hstop hto, hown⟩
      · rw [List.pairwise_flatMap]
        -- The replacements below two children are apart as the children are.
        refine ⟨fun c hc => (hchild c hc).2, hordered.imp_of_mem fun {a b} ha hb hab => ?_⟩
        intro e he f hf
        have he' := ((hchild a ha).1 e he).2.2.1
        have hf' := ((hchild b hb).1 f hf).1
        omega

/-! ## What is left -/

theorem asks_of_not_call {ctx : FoldContext} {n : Node} (h : n.kind ≠ .call) :
    ctx.asks n = none := by
  cases hasks : ctx.asks n with
  | none => rfl
  | some query =>
    obtain ⟨_, _, _, hshape, -⟩ := asks_call hasks
    exact absurd (by rw [Node.kind, hshape]; rfl) h

/-- `rebuild` keeps a node that is no call. -/
theorem rebuild_of_not_call (ctx : FoldContext) {info : Info} {shape : Shape Node}
    (h : (Node.mk info shape).kind ≠ .call) :
    (Node.mk info shape).rebuild ctx.entry = .mk info (shape.map (·.rebuild ctx.entry)) := by
  have hasks : ctx.asks (.mk info shape) = none := asks_of_not_call h
  rw [Node.rebuild_mk, entry, hasks]
  rfl

/-- `rebuild` makes of a call a call or a truth value, and keeps any other node. -/
theorem rebuild_cases (ctx : FoldContext) {P : Node → Prop} {n : Node}
    (hcall : n.kind = .call → ∀ info callee arguments optional,
      P (.mk info (.call callee arguments optional)))
    (hboolean : n.kind = .call → ∀ info value, P (.mk info (.boolean value)))
    (hmap : n.kind ≠ .call → P (.mk n.info (n.shape.map (·.rebuild ctx.entry)))) :
    P (n.rebuild ctx.entry) := by
  by_cases hkind : n.kind = .call
  · cases n with
    | mk info shape =>
      cases shape with
      | call callee arguments optional =>
        rw [Node.rebuild_mk]
        rcases ctx.entry_cases (.mk info (.call callee arguments optional)) with
          ⟨query, value, -, -, -, hentry⟩ | ⟨-, -, hentry⟩ | ⟨-, -, hentry, -⟩
        · rw [hentry]
          unfold answered
          simp only
          split
          · exact hcall hkind _ _ _ _
          · exact hboolean hkind _ _
        · rw [hentry]
          exact hcall hkind _ _ _ _
        · rw [hentry]
          exact hcall hkind _ _ _ _
      | _ => cases hkind
  · cases n with
    | mk info shape =>
      rw [rebuild_of_not_call ctx hkind]
      exact hmap hkind

/-- A `view` with one value for all calls and truth values, that looks at other nodes only so far as
their shapes go, says the same of `n` and of the rebuilt node. -/
theorem view_rebuild {α : Type} (ctx : FoldContext) (view : Node → α) {other : α}
    (hcall : ∀ info callee arguments optional,
      view (.mk info (.call callee arguments optional)) = other)
    (hboolean : ∀ info value, view (.mk info (.boolean value)) = other)
    (hmap : ∀ info shape,
      view (.mk info (shape.map (·.rebuild ctx.entry))) = view (.mk info shape)) (n : Node) :
    view (n.rebuild ctx.entry) = view n := by
  have hbefore : n.kind = .call → view n = other := by
    obtain ⟨info, shape⟩ := n
    cases shape <;> first | exact fun _ => hcall info _ _ _ | (intro h; cases h)
  refine ctx.rebuild_cases (P := (view · = view n)) (fun hkind _ _ _ _ => ?_)
    (fun hkind _ _ => ?_) fun _ => ?_
  · rw [hbefore hkind, hcall]
  · rw [hbefore hkind, hboolean]
  · rw [hmap, Node.mk_info_shape]

theorem isNamed_rebuild (ctx : FoldContext) (n : Node) (name : Option Text) :
    (n.rebuild ctx.entry).isNamed name = n.isNamed name :=
  ctx.view_rebuild (·.isNamed name) (fun _ _ _ _ => rfl) (fun _ _ => rfl)
    (fun info shape => Node.isNamed_map _ info info shape name) n

theorem isMember_rebuild (ctx : FoldContext) (n : Node) (object : Option Text)
    (property : String) : (n.rebuild ctx.entry).isMember object property =
      n.isMember object property :=
  ctx.view_rebuild (·.isMember object property) (fun _ _ _ _ => rfl) (fun _ _ => rfl)
    (fun info _ => Node.isMember_map (fun c _ => isNamed_rebuild ctx c) info info object property) n

theorem query?_rebuild (ctx : FoldContext) (callee : Node) (count : Nat) :
    ctx.binding.query? (callee.rebuild ctx.entry) count = ctx.binding.query? callee count := by
  simp only [Binding.query?, isNamed_rebuild, isMember_rebuild]

/-- `rebuild` below a node does not change what it asks. -/
theorem asks_map_rebuild (ctx : FoldContext) (info : Info) (shape : Shape Node) :
    ctx.asks (.mk info (shape.map (·.rebuild ctx.entry))) = ctx.asks (.mk info shape) :=
  asks_map (fun c _ => query?_rebuild ctx c) info info

/-- An answered registration still asks for a registration, and has the same answer. -/
theorem answer?_answered {n : Node} {value : Bool} (hasks : ctx.asks n = some .registration)
    (hanswer : ctx.answer? n = some value) :
    ctx.asks (answered n .registration value) = some .registration ∧
      ctx.answer? (answered n .registration value) = some value := by
  obtain ⟨callee, arguments, optional, hshape, hquery⟩ := asks_call hasks
  obtain ⟨first, second, rest, rfl⟩ := arguments_of_registration hquery
  have hsame : ctx.asks (answered n .registration value) = some .registration := by
    simp only [asks, answered, hshape, Node.shape_mk, Option.bind_some]
    exact (query?_of_registration hquery).2
  -- The flag stays the first argument.
  have hflag : flag? (answered n .registration value) = flag? n := by
    simp only [flag?, answered, hshape, Node.shape_mk, List.head?_cons]
  exact ⟨hsame, by rw [← hanswer, answer?, answer?, hsame, hasks, hflag]⟩

/-- The walk does not go into an answered registration. -/
theorem goesInto_answered {n : Node} {value : Bool} (hasks : ctx.asks n = some .registration)
    (hanswer : ctx.answer? n = some value) :
    ctx.asks (answered n .registration value) = some .registration ∧
      ctx.goesInto (answered n .registration value) = false := by
  obtain ⟨hsame, hanswer'⟩ := answer?_answered hasks hanswer
  exact ⟨hsame, by simp [goesInto, hsame, hanswer']⟩

/-- The walk from the answer to a query ends there: a registration still has its answer, and a truth
value asks nothing. -/
theorem preorder_answered {n : Node} {query : Query} {value : Bool}
    (hasks : ctx.asks n = some query) (hanswer : ctx.answer? n = some value) :
    (answered n query value).preorder ctx.goesInto = [answered n query value] ∧
      (ctx.asks (answered n query value) = none ∨
        ctx.asks (answered n query value) = some .registration) := by
  by_cases hregistration : query = .registration
  · subst hregistration
    obtain ⟨hasks', hgoes⟩ := goesInto_answered hasks hanswer
    exact ⟨Node.preorder_of_not_enter hgoes, .inr hasks'⟩
  · have hvalue : answered n query value = .makeBoolean value n := by
      cases query <;> first | rfl | exact absurd rfl hregistration
    rw [hvalue]
    refine ⟨?_, .inl (asks_of_not_call (by simp [Node.makeBoolean, Node.kind, Shape.kind]))⟩
    rw [Node.makeBoolean, Node.preorder_mk]
    simp [Shape.nodes]

/-- No query for a value or for presence is left in the walk from `n` that has an answer. -/
def Exhausted (ctx : FoldContext) (n : Node) : Prop :=
  ∀ m ∈ n.preorder ctx.goesInto, ∀ query, ctx.asks m = some query →
    query ≠ .registration → ctx.answer? m = none

/-- The answer to a query is `Exhausted`. -/
theorem exhausted_answered {n : Node} {query : Query} {value : Bool}
    (hasks : ctx.asks n = some query) (hanswer : ctx.answer? n = some value) :
    ctx.Exhausted (answered n query value) := by
  intro m hm query' hquery hne
  obtain ⟨hwalk, hnone | hregistration⟩ := preorder_answered hasks hanswer
  all_goals
    rw [hwalk, List.mem_singleton] at hm
    subst hm
  · rw [hnone] at hquery
    cases hquery
  · rw [hregistration] at hquery
    exact absurd (Option.some.inj hquery).symm hne

/-- A node with its nodes rebuilt is `Exhausted` if all of them are, unless it asks for a value or
for presence. -/
theorem exhausted_map_rebuild (ctx : FoldContext) {info : Info} {shape : Shape Node}
    (hasks : ctx.asks (.mk info shape) = none ∨ ctx.asks (.mk info shape) = some .registration)
    (hbelow : ∀ c ∈ shape.nodes, ctx.Exhausted (c.rebuild ctx.entry)) :
    ctx.Exhausted (.mk info (shape.map (·.rebuild ctx.entry))) := by
  intro m hm query hquery hne
  rw [Node.preorder_mk, List.mem_cons] at hm
  rcases hm with rfl | hm
  · rw [asks_map_rebuild] at hquery
    rcases hasks with h | h <;> rw [h] at hquery <;> cases hquery
    exact absurd rfl hne
  · split at hm
    · rw [Shape.nodes_map, List.flatMap_map] at hm
      obtain ⟨c, hc, hm⟩ := List.mem_flatMap.mp hm
      exact hbelow c hc m hm query hquery hne
    · cases hm

/-- A rebuilt tree is `Exhausted`; by induction on the tree. -/
theorem exhausted_rebuild (ctx : FoldContext) (n : Node) :
    ctx.Exhausted (n.rebuild ctx.entry) := by
  induction n using Node.induction with
  | mk info shape ih =>
    rw [Node.rebuild_mk]
    rcases ctx.entry_cases (.mk info shape) with
      ⟨query, value, hasks, hanswer, -, hentry⟩ | ⟨hanswer, hgoes, hentry⟩ |
      ⟨-, -, hentry, hasks⟩
    · rw [hentry]
      exact exhausted_answered hasks hanswer
    · -- A query without an answer is kept, and no walk goes into it.
      rw [hentry]
      intro m hm query hquery hne
      rw [Node.preorder_of_not_enter hgoes, List.mem_singleton] at hm
      rwa [hm]
    · rw [hentry]
      exact ctx.exhausted_map_rebuild hasks ih

end FoldContext

namespace Node

/-- `foldQueries` leaves a program its source. -/
theorem source_foldQueries (program : Node) (ctx : FoldContext) (dynamic : List Text) :
    (program.foldQueries ctx dynamic).1.source = program.source := by
  rw [foldQueries_fst]
  cases program with
  | mk info shape => cases shape <;> rfl

/-- The walk goes into a program. -/
theorem goesInto_of_program {program : Node} (hroot : program.kind = .program)
    (ctx : FoldContext) : ctx.goesInto program ∧ ctx.answer? program = none := by
  have hasks : ctx.asks program = none := FoldContext.asks_of_not_call (by simp [hroot])
  constructor
  · rw [FoldContext.goesInto, hasks]
  · simp [FoldContext.answer?, hasks]

/-- The `programEdits` of a program whose queries have been folded are its `changes`. -/
theorem programEdits_foldQueries {program : Node} (hroot : program.kind = .program)
    (huntouched : program.Untouched) (ctx : FoldContext) (dynamic : List Text) :
    (program.foldQueries ctx dynamic).1.programEdits =
      .ok (ctx.changes program.source program) := by
  obtain ⟨hgoes, hanswer⟩ := goesInto_of_program hroot ctx
  have hsource := program.source_foldQueries ctx dynamic
  rw [foldQueries_fst] at hsource ⊢
  cases program with
  | mk info shape =>
    rw [FoldContext.changes_of_goesInto hgoes hanswer]
    apply programEdits_of_comments huntouched.comments
    rw [sheet, hsource, shape_mk, Shape.nodes_map]
    exact Sheet.listEdits_map fun n hn =>
      FoldContext.edits_rebuild (huntouched.of_mem_children hn)

end Node

/-- `foldQueries` replaces in the text of `program` the spans of its `changes`, which lie one behind
the other, and copies all else; and the result is `Exhausted`. -/
theorem Node.print_foldQueries {program : Node} (hroot : program.kind = .program)
    (hlaid : program.LaidOut) (hrange : program.info.stop ≤ program.source.length)
    (huntouched : program.Untouched) (ctx : FoldContext) (dynamic : List Text) :
    let changes := ctx.changes program.source program
    let folded := (program.foldQueries ctx dynamic).1
    (∀ e ∈ changes, e.start ≤ e.stop ∧ e.stop ≤ program.source.length) ∧
    changes.Pairwise (·.stop ≤ ·.start) ∧
    folded.print = .ok (program.source.replaceFrom program.source.length 0 changes) ∧
    ∀ n ∈ folded.preorder ctx.goesInto, ∀ query, ctx.asks n = some query →
      query ≠ .registration → ctx.answer? n = none := by
  obtain ⟨hspans, hordered⟩ := ctx.changes_spec hlaid program.source
  have hsource : ∀ e ∈ ctx.changes program.source program,
      e.start ≤ e.stop ∧ e.stop ≤ program.source.length := by
    intro e he
    obtain ⟨-, hle, hstop, -⟩ := hspans e he
    exact ⟨hle, Nat.le_trans hstop hrange⟩
  refine ⟨hsource, hordered, ?_, ?_⟩
  · have h := print_of_ordered (program.programEdits_foldQueries hroot huntouched ctx dynamic)
      (fun e he => (hsource e he).1) hordered fun e he => (hspans e he).2.2.2
    rwa [source_foldQueries] at h
  · have hasks : ctx.asks program = none := FoldContext.asks_of_not_call (by simp [hroot])
    rw [foldQueries_fst]
    exact ctx.exhausted_map_rebuild (.inl hasks) fun c _ => ctx.exhausted_rebuild c

/-- A query among the arguments of another call, before a registration. -/
def nestedQuery : Node :=
  let name (start : Nat) (t : String) : Node :=
    .mk { start, stop := start + t.length } (.identifier (text t))
  let flag (start : Nat) : Node :=
    .mk { start, stop := start + 3 } (.string (text "a") (text "'a'"))
  let member (start : Nat) : Node :=
    .mk { start, stop := start + 7 }
      (.member (some (name start "has")) (some (name (start + 4) "add")) false)
  .mk { stop := 31 } (.program [
    .mk { stop := 15 } (.expressionStatement (some (.mk { stop := 14 }
      (.call (some (name 0 "f")) [.mk { start := 2, stop := 10 }
        (.call (some (name 2 "has")) [flag 6] false), name 12 "b"] false)))),
    .mk { start := 15, stop := 31 } (.expressionStatement (some (.mk { start := 15, stop := 30 }
      (.call (some (member 15)) [flag 23, name 28 "g"] false))))]
    (text "f(has('a'), b);has.add('a', g);"))

/-- In `nestedQuery` both are answered; the rest of the text stays. -/
theorem print_foldQueries_nestedQuery :
    let ctx : FoldContext := ⟨[(text "a", true)], [], { name := some (text "has") }⟩
    nestedQuery.kind = .program ∧ nestedQuery.LaidOut ∧
    nestedQuery.info.stop ≤ nestedQuery.source.length ∧ nestedQuery.Untouched ∧
    (nestedQuery.foldQueries ctx []).1.print =
      .ok (text "f(true, b);has.add('a', true);") := by
  intro ctx
  have hlaid : nestedQuery.LaidOut := by decide
  have huntouched : nestedQuery.Untouched := by decide
  have hroot : nestedQuery.kind = .program := rfl
  obtain ⟨-, -, hprint, -⟩ := Node.print_foldQueries hroot hlaid (by decide) huntouched ctx []
  have hchanges : nestedQuery.source.replaceFrom nestedQuery.source.length 0
      (ctx.changes nestedQuery.source nestedQuery) = text "f(true, b);has.add('a', true);" := by
    decide
  exact ⟨hroot, hlaid, by decide, huntouched, by rw [hprint, hchanges]⟩

end FlagFold
