/-
  FlagFold.Proofs.Fold.Words

  Whether the answer to a query is a word of its own in the code that is returned.
  The printer looks at no neighbour of the call that it replaces.  No name ever comes
  right before an answer, whatever is taken out around it; one comes right behind it
  just where one stood right behind the call, whose last character is no part of a name.
-/

import FlagFold.Proofs.Fold.Comments
import FlagFold.Proofs.Print.Seams

namespace FlagFold

namespace Node

/-! ## How a parser parts the source -/

/-- The calls in `program` that are answered: the queries that its pragmas leave and that the
context of the second pass answers. -/
def answeredCalls (program : Node) (features : FeatureMap) (staticOnly : List Text)
    (path : Text) : List Node :=
  let ctx := program.foldContext features staticOnly path
  (program.withoutPragmas features path).printed.filter fun n =>
    (ctx.asks n).isSome && (ctx.answer? n).isSome

theorem mem_answeredCalls {program : Node} {features : FeatureMap} {staticOnly : List Text}
    {path : Text} {n : Node} (hn : n ∈ (program.withoutPragmas features path).printed)
    {query : Query} (hasks : (program.foldContext features staticOnly path).asks n = some query)
    {value : Bool}
    (hanswer : (program.foldContext features staticOnly path).answer? n = some value) :
    n ∈ program.answeredCalls features staticOnly path :=
  List.mem_filter.mpr ⟨hn, by simp [hasks, hanswer]⟩

/-- One of `queries` ends at the offset `o`. -/
def EndsOne (queries : List Node) (o : Nat) : Prop := ∃ n ∈ queries, n.info.stop = o

/-- A statement of some list of `program` starts at the offset `o`. -/
def StartsStatement (program : Node) (o : Nat) : Prop :=
  ∃ m ∈ program.subnodes, ∃ p ∈ m.children.zipIdx, m.kind.hasStatementAt p.2 ∧ p.1.info.start = o

instance (queries : List Node) (o : Nat) : Decidable (EndsOne queries o) :=
  inferInstanceAs (Decidable (∃ n ∈ queries, _))

/-- The source of `program` parts `queries`, its statements and its closing braces, as it does for a
parser that takes names for as long as they go on: no name runs into one of `queries`, or into a
statement with only blanks between, and what comes right behind one of `queries` is neither another
of them nor a statement, nor the end of a list that closes with a character of a name. -/
structure Parted (program : Node) (queries : List Node) : Prop where
  calls : ∀ n ∈ queries, ¬ program.source.nameBefore n.info.start ∧ ¬ EndsOne queries n.info.start
  statements : ∀ m ∈ program.subnodes, ∀ p ∈ m.children.zipIdx, m.kind.hasStatementAt p.2 →
    ¬ EndsOne queries p.1.info.start ∧ ¬ program.source.nameBefore
      (program.source.blanksStart (program.source.lineStart p.1.info.start) p.1.info.start)
  braces : ∀ m ∈ program.subnodes, m.kind.isBracedList → EndsOne queries (m.info.stop - 1) →
    ¬ program.source.nameAt (m.info.stop - 1)

instance (program : Node) (queries : List Node) : Decidable (program.Parted queries) :=
  decidable_of_iff
    ((∀ n ∈ queries, ¬ program.source.nameBefore n.info.start ∧ ¬ EndsOne queries n.info.start) ∧
      (∀ m ∈ program.subnodes, ∀ p ∈ m.children.zipIdx, m.kind.hasStatementAt p.2 →
        ¬ EndsOne queries p.1.info.start ∧ ¬ program.source.nameBefore
          (program.source.blanksStart (program.source.lineStart p.1.info.start)
            p.1.info.start)) ∧
      ∀ m ∈ program.subnodes, m.kind.isBracedList → EndsOne queries (m.info.stop - 1) →
        ¬ program.source.nameAt (m.info.stop - 1))
    ⟨fun ⟨calls, statements, braces⟩ => ⟨calls, statements, braces⟩,
    fun h => ⟨h.calls, h.statements, h.braces⟩⟩

theorem Parted.of_startsStatement {program : Node} {queries : List Node}
    (h : program.Parted queries) {o : Nat} (ho : program.StartsStatement o) :
    ¬ EndsOne queries o ∧
      ¬ program.source.nameBefore (program.source.blanksStart (program.source.lineStart o) o) := by
  obtain ⟨m, hm, p, hp, hplace, rfl⟩ := ho
  exact h.statements m hm p hp hplace

/-! ## Where the nodes come from -/

/-- `n` is what the first pass has left of a node of `program`: it has the kind and the span of one,
unless it was made; a placeholder, or a node with comments before it, starts where a statement of
`program` does. -/
structure LeftOf (program n : Node) : Prop where
  stays : n.info.synthetic = false → ∃ m ∈ program.subnodes, m.kind = n.kind ∧ m.span = n.span
  removed : n.info.synthetic → program.StartsStatement n.info.start
  leading : (∃ c ∈ n.info.comments, c.leading) → program.StartsStatement n.info.start

variable {program : Node} {features : FeatureMap}

/-- If `cs` come before a statement only, all printed nodes of the elided `n` are `LeftOf` the
program; by induction on the tree. -/
theorem leftOf_elided {n : Node} (h : n.Untouched) (hn : ∀ m ∈ n.subnodes, m ∈ program.subnodes)
    (features : FeatureMap) {cs : List Comment}
    (hcs : (∃ c ∈ cs, c.leading) → program.StartsStatement n.info.start) :
    ∀ m ∈ (n.elided features cs).printed, program.LeftOf m := by
  induction n using Node.induction generalizing cs with
  | mk info shape ih =>
    have hself := hn _ (mem_subnodes_self _)
    have hcomments : info.comments = [] := h.comments
    have hstays : ((mk info shape).elided features cs).info.synthetic = false := by
      rw [synthetic_elided]
      exact h.synthetic
    rw [printed_of_not_synthetic hstays, List.forall_mem_cons, List.forall_mem_flatMap]
    refine ⟨⟨fun _ => ⟨_, hself, (kind_elided _ _).symm, (span_elided _ _).symm⟩, ?_, ?_⟩, ?_⟩
    · rw [hstays]
      simp
    · rintro ⟨c, hc, hleading⟩
      rw [start_elided]
      refine hcs ⟨c, (mem_comments_elided hc hleading).resolve_right ?_, hleading⟩
      rw [info_mk, hcomments]
      simp
    · intro c hc
      obtain ⟨item, hitem, hstands⟩ := exists_of_mem_children_elided features h
        (S := fun item => program.StartsStatement item.info.start)
        (fun p hp hplace => ⟨_, hself, p, hp, hplace, rfl⟩) cs c hc
      -- A placeholder for a statement, or the item itself, which has the comments that go on to it.
      rcases hstands with ⟨hstarts, -, cs', rfl⟩ | ⟨cs', rfl, -, hstarts⟩
      · rw [printed_of_synthetic rfl, List.forall_mem_singleton]
        refine ⟨fun hmade => ?_, fun _ => hstarts, fun _ => hstarts⟩
        cases hmade
      · exact ih item hitem (h.of_mem_children hitem)
          (fun m hm => hn m (mem_subnodes_of_mem_children hitem hm))
          (fun ⟨c, hc, _⟩ => hstarts (List.ne_nil_of_mem hc))

/-- All printed nodes of an `Untouched` tree in `program` are `LeftOf` it. -/
theorem leftOf_of_untouched {n : Node} (h : n.Untouched)
    (hn : ∀ m ∈ n.subnodes, m ∈ program.subnodes) : ∀ m ∈ n.printed, program.LeftOf m := by
  induction n using Node.induction with
  | mk info shape ih =>
    rw [printed_of_not_synthetic h.synthetic, List.forall_mem_cons, List.forall_mem_flatMap]
    refine ⟨⟨fun _ => ⟨_, hn _ (mem_subnodes_self _), rfl, rfl⟩, ?_, ?_⟩, fun c hc =>
      ih c hc (h.of_mem_children hc) fun m hm => hn m (mem_subnodes_of_mem_children hc hm)⟩
    · rw [h.synthetic]
      simp
    · rw [h.comments]
      simp

theorem leftOf_withoutPragmas (h : program.Untouched) (features : FeatureMap) (path : Text) :
    ∀ m ∈ (program.withoutPragmas features path).printed, program.LeftOf m := by
  unfold withoutPragmas
  split
  · exact leftOf_of_untouched h fun _ hm => hm
  · exact leftOf_elided h (fun _ hm => hm) features (by simp)

end Node

namespace FoldContext

variable {ctx : FoldContext}

/-- Each printed node of a rebuilt tree has the info and the kind of a printed node of `n`, or is
the answer to a query among these; by induction on the tree. -/
theorem of_mem_printed_rebuild {n : Node} :
    ∀ m ∈ (n.rebuild ctx.entry).printed,
      (∃ k ∈ n.printed, m.info = k.info ∧ m.kind = k.kind) ∨
        ∃ k ∈ n.printed, ∃ query value, ctx.asks k = some query ∧ ctx.answer? k = some value ∧
          m = answered k query value := by
  induction n using Node.induction with
  | mk info shape ih =>
    have hself : Node.mk info shape ∈ (Node.mk info shape).printed := Node.mem_preorder_self _ _
    rw [Node.rebuild_mk]
    rcases ctx.entry_cases (.mk info shape) with
      ⟨query, value, hasks, hanswer, -, hentry⟩ | ⟨-, -, hentry⟩ | ⟨-, -, hentry, -⟩
    -- An answered query, a node that is not gone into, and one that is rebuilt from its parts.
    · rw [hentry, Node.printed_of_synthetic (by rw [info_answered]), List.forall_mem_singleton]
      exact .inr ⟨_, hself, query, value, hasks, hanswer, rfl⟩
    · rw [hentry]
      exact fun m hm => .inl ⟨m, hm, rfl, rfl⟩
    · rw [hentry]
      have hroot : (Node.mk info (shape.map (·.rebuild ctx.entry))).kind =
          (Node.mk info shape).kind := Shape.kind_map _ shape
      cases hsynthetic : info.synthetic with
      | true =>
        rw [Node.info_mk, Node.printed_of_synthetic (by exact hsynthetic),
          List.forall_mem_singleton]
        exact .inl ⟨_, hself, rfl, hroot⟩
      | false =>
        rw [Node.info_mk, Node.printed_mk hsynthetic, List.forall_mem_cons,
          List.forall_mem_flatMap, Shape.nodes_map, List.forall_mem_map]
        refine ⟨.inl ⟨_, hself, rfl, hroot⟩, fun c hc m hm => ?_⟩
        have hup : ∀ k ∈ c.printed, k ∈ (Node.mk info shape).printed := fun k hk =>
          Node.mem_preorder_of_mem_children (by simp [hsynthetic]) hc hk
        rcases ih c hc m hm with ⟨k, hk, hsame⟩ | ⟨k, hk, hanswered⟩
        · exact .inl ⟨k, hup k hk, hsame⟩
        · exact .inr ⟨k, hup k hk, hanswered⟩

/-! ## The edits for answers -/

variable {sheet : Sheet} {ends : Nat → Prop} {n : Node} {query : Query} {value : Bool}

/-- `answeredText` of a query for a value or for presence is `truthText value`. -/
theorem answeredText_of_ne_registration (hquery : query ≠ .registration) (source : Text) :
    answeredText source n query value = truthText value := by
  cases query with
  | registration => exact absurd rfl hquery
  | value | presence => rfl

theorem answered_of_ne_registration (hquery : query ≠ .registration) :
    answered n query value = Node.makeBoolean value n := by
  cases query with
  | registration => exact absurd rfl hquery
  | value | presence => rfl

/-- `answeredText` of a registration does not end in a name. -/
theorem endsInName_answeredText (hasks : ctx.asks n = some .registration) (source : Text)
    (value : Bool) :
    answeredText source n .registration value ≠ [] ∧
      ¬ (answeredText source n .registration value).endsInName := by
  obtain ⟨callee, arguments, optional, hshape, hquery⟩ := asks_call hasks
  obtain ⟨first, second, rest, rfl⟩ := arguments_of_registration hquery
  have hclose : text ")" ≠ [] := by decide
  simp only [answeredText, hshape]
  rw [Text.endsInName_append hclose]
  exact ⟨by simp [hclose], by decide⟩

/-- An answer `IsWord` in the place of a call with no name before it. -/
theorem isWord_answer {source : Text} {start stop : Nat} (h : source.encloses start stop)
    (hbefore : ¬ source.nameBefore start) (hstart : ¬ ends start) (hstop : ends stop)
    (value : Bool) : Edit.IsWord source ends ⟨start, stop, truthText value, false⟩ := by
  obtain ⟨-, hfirst, hcloses⟩ := Text.encloses_iff.mp h
  constructor
  case text => cases value <;> exact List.cons_ne_nil _ _
  case ownLine => rfl
  case before => exact hbefore
  case start => exact Text.not_isSeam_of_isVisibleAt hfirst hstart
  case stop => exact ⟨hcloses, .inl hstop⟩

end FoldContext

namespace Node

variable {program : Node} {features : FeatureMap} {staticOnly : List Text} {path : Text}
variable {ctx : FoldContext} {query : Query} {value : Bool}

/-- A query that `Remains` was made by no pass. -/
theorem Remains.synthetic_of_asks {n : Node} {S : Text → Prop} (h : n.Remains S)
    (hasks : ctx.asks n = some query) : n.info.synthetic = false := by
  have hkind := FoldContext.kind_of_asks hasks
  by_contra hmade
  have hshape := h.made (by simpa using hmade)
  rw [kind, hshape] at hkind
  cases hkind

/-- The edit for the answer to one of `queries` `Lies` as it should, and is a word unless the query
is a registration. -/
theorem Parted.edit_answered {queries : List Node} (h : program.Parted queries) {n : Node}
    (hn : n ∈ queries) (hasks : ctx.asks n = some query)
    (hencloses : program.source.encloses n.info.start n.info.stop) (value : Bool) :
    let e : Edit := ⟨n.info.start, n.info.stop,
      FoldContext.answeredText program.source n query value, false⟩
    e.Lies program.source (EndsOne queries) ∧
      (query ≠ .registration → e.IsWord program.source (EndsOne queries)) := by
  intro e
  obtain ⟨hbefore, hends⟩ := h.calls n hn
  by_cases hquery : query = .registration
  · subst hquery
    obtain ⟨hne, hlast⟩ := FoldContext.endsInName_answeredText hasks program.source value
    have hfirst := (Text.encloses_iff.mp hencloses).2.1
    exact ⟨.aside ⟨hne, hlast, fun hseam =>
      absurd hseam (Text.not_isSeam_of_isVisibleAt hfirst hends)⟩, fun h => absurd rfl h⟩
  · have hword : e.IsWord program.source (EndsOne queries) := by
      simp only [e, FoldContext.answeredText_of_ne_registration hquery]
      exact FoldContext.isWord_answer hencloses hbefore hends ⟨n, hn, rfl⟩ value
    exact ⟨.word hword, fun _ => hword⟩

/-! ## Both passes -/

/-- Each printed node of the folded module has the info and the kind of a printed node that the
first pass has `left`, or is the answer to a query among these. -/
theorem of_mem_printed_foldModule (h : program.Untouched)
    (hfault : (program.foldModule features staticOnly path).fault = none) :
    let left := program.withoutPragmas features path
    let ctx := program.foldContext features staticOnly path
    ∀ n ∈ (program.foldModule features staticOnly path).program.children, ∀ m ∈ n.printed,
      ∃ k ∈ left.printed, m.info = k.info ∧ m.kind = k.kind ∨
        ∃ query value, ctx.asks k = some query ∧ ctx.answer? k = some value ∧
          m = FoldContext.answered k query value := by
  intro left ctx n hn m hm
  have hup : ∀ c ∈ left.children, ∀ k ∈ c.printed, k ∈ left.printed := fun c hc k hk =>
    mem_preorder_of_mem_children (by rw [synthetic_withoutPragmas h]; rfl) hc hk
  rcases foldModule_cases hfault with hfolded | hfolded
  · rw [hfolded] at hn
    exact ⟨m, hup n hn m hm, .inl ⟨rfl, rfl⟩⟩
  · rw [hfolded, foldQueries_fst, children_mk, Shape.nodes_map] at hn
    obtain ⟨c, hc, rfl⟩ := List.mem_map.mp hn
    rcases FoldContext.of_mem_printed_rebuild m hm with
      ⟨k, hk, hsame⟩ | ⟨k, hk, query, value, hanswered⟩
    · exact ⟨k, hup c hc k hk, .inl hsame⟩
    · exact ⟨k, hup c hc k hk, .inr ⟨query, value, hanswered⟩⟩

/-- `m` stands for the answer `value` to the `query` that `k` asks: it is made, has no comments and
is no placeholder, and its one edit puts `answeredText` in the place of the span of `k`, which is
visible in `source`. -/
structure Answers (source : Text) (m k : Node) (query : Query) (value : Bool) : Prop where
  comments : m.info.comments = []
  synthetic : m.info.synthetic
  kind : m.kind ≠ .removed
  encloses : source.encloses k.info.start k.info.stop
  edits : (Sheet.ofSource source).edits m =
    .ok [⟨k.info.start, k.info.stop, FoldContext.answeredText source k query value, false⟩]

/-- Each printed node of the folded module has the info and the kind of a printed node of `left`,
which was made only if it is a placeholder, or it `Answers` a query among these. -/
theorem printed_foldModule_cases (h : program.Delivered)
    (hplaced : ∀ n ∈ (program.foldModule features staticOnly path).program.children,
      ∀ m ∈ n.printed, m.Placed (Sheet.ofSource program.source)) :
    let left := program.withoutPragmas features path
    let ctx := program.foldContext features staticOnly path
    ∀ n ∈ (program.foldModule features staticOnly path).program.children, ∀ m ∈ n.printed,
      ∃ k ∈ left.printed,
        m.info = k.info ∧ m.kind = k.kind ∧ (m.info.synthetic → m.kind = .removed) ∨
        ∃ query value, ctx.asks k = some query ∧ ctx.answer? k = some value ∧
          m.Answers program.source k query value := by
  intro left ctx n hn m hm
  have hfault := fault_foldModule h features staticOnly path
  obtain ⟨k, hk, hcases⟩ := of_mem_printed_foldModule h.untouched hfault n hn m hm
  have hremains := remains_withoutPragmas h.untouched k hk
  refine ⟨k, hk, hcases.imp ?_ ?_⟩
  · rintro ⟨hinfo, hkind⟩
    refine ⟨hinfo, hkind, fun hmade => ?_⟩
    rw [hinfo] at hmade
    rw [hkind, kind, hremains.made hmade]
    rfl
  · rintro ⟨query, value, hasks, hanswer, rfl⟩
    have hinfo := FoldContext.info_answered k query value
    have hmade : (FoldContext.answered k query value).info.synthetic := by rw [hinfo]
    have hencloses := ((hplaced n hn _ hm).1 hmade).encloses
    rw [hinfo] at hencloses
    exact ⟨query, value, hasks, hanswer, by rw [hinfo], hmade,
      FoldContext.kind_answered k query value, hencloses,
      FoldContext.edits_answered_of_remains hremains hasks hanswer⟩

/-- All printed nodes of the folded module `KeepsSeams`. -/
theorem keepsSeams_foldModule (h : program.Delivered)
    (hparted : program.Parted (program.answeredCalls features staticOnly path))
    (hplaced : ∀ n ∈ (program.foldModule features staticOnly path).program.children,
      ∀ m ∈ n.printed, m.Placed (Sheet.ofSource program.source)) :
    ∀ n ∈ (program.foldModule features staticOnly path).program.children, ∀ m ∈ n.printed,
      m.KeepsSeams (Sheet.ofSource program.source)
        (EndsOne (program.answeredCalls features staticOnly path)) := by
  intro n hn m hm
  obtain ⟨k, hk, hcases⟩ := printed_foldModule_cases h hplaced n hn m hm
  have hleft := leftOf_withoutPragmas h.untouched features path k hk
  rcases hcases with ⟨hinfo, hkind, hmade⟩ | ⟨query, value, hasks, hvalue, hanswers⟩
  -- A node that stays as it is, or a placeholder: it stands where the program has one.
  · constructor
    case placed => exact hplaced n hn m hm
    case leading =>
      rw [hinfo]
      exact fun hleading => (hparted.of_startsStatement (hleft.leading hleading)).1
    case braces =>
      rw [hinfo, hkind]
      intro hstays hbraced hends
      obtain ⟨j, hj, hjkind, hspan⟩ := hleft.stays hstays
      have hstop : j.info.stop = k.info.stop := congrArg Prod.snd hspan
      rw [← hstop] at hends ⊢
      exact hparted.braces j hj (hjkind ▸ hbraced) hends
    case removed =>
      rw [isPlaceholder, hinfo, Bool.and_eq_true]
      exact fun hplaceholder => hparted.of_startsStatement (hleft.removed hplaceholder.1)
    case made => exact fun hsynthetic hne => absurd (hmade hsynthetic) hne
  -- The answer to a query, which takes the place of the call.
  · constructor
    case placed => exact hplaced n hn m hm
    case leading => simp [hanswers.comments]
    case braces => simp [hanswers.synthetic]
    case removed => simp [isPlaceholder, hanswers.kind]
    case made =>
      intro _ _
      rw [hanswers.edits]
      refine ensures_ok ?_
      rw [List.forall_mem_singleton]
      exact (hparted.edit_answered (mem_answeredCalls hk hasks hvalue) hasks hanswers.encloses
        value).1

/-- `foldModule` of a delivered program gives a program on its source whose printed nodes are all
`Placed`. -/
theorem exists_foldModule (h : program.Delivered) (features : FeatureMap)
    (staticOnly : List Text) (path : Text) :
    ∃ info body, (program.foldModule features staticOnly path).program =
        mk info (.program body program.source) ∧ info.synthetic = false ∧
      body.Pairwise (·.info.stop ≤ ·.info.start) ∧
      ∀ n ∈ body, ∀ m ∈ n.printed, m.Placed (Sheet.ofSource program.source) := by
  have hroot := h.root
  obtain ⟨info, shape⟩ := program
  cases shape with
  | program body source =>
    obtain ⟨-, cs, left, hfolded, hordered, hplaced⟩ :=
      foldModule_of_delivered h features staticOnly path
    exact ⟨_, left, hfolded, h.untouched.synthetic, hordered, hplaced⟩
  | _ => cases hroot

/-- `n` was made to stand for `value`. -/
def isAnswer (value : Bool) (n : Node) : Bool :=
  n.info.synthetic && match n.shape with
    | .boolean v => v == value
    | _ => false

theorem isAnswer_iff {n : Node} {value : Bool} :
    n.isAnswer value ↔ n.info.synthetic ∧ n.shape = .boolean value := by
  unfold isAnswer
  cases n.shape <;> simp

/-- Each printed node of the folded module that `isAnswer` is the answer to a query for a value or
for presence among the printed nodes that the first pass has left. -/
theorem exists_asks_of_isAnswer (h : program.Delivered) {m : Node}
    (hm : ∃ n ∈ (program.foldModule features staticOnly path).program.children, m ∈ n.printed)
    {value : Bool} (hanswer : m.isAnswer value) :
    let ctx := program.foldContext features staticOnly path
    ∃ k ∈ (program.withoutPragmas features path).printed, ∃ query, query ≠ .registration ∧
      ctx.asks k = some query ∧ ctx.answer? k = some value ∧
      m = FoldContext.answered k query value := by
  intro ctx
  obtain ⟨hmade, hshape⟩ := isAnswer_iff.mp hanswer
  have hfault := fault_foldModule h features staticOnly path
  obtain ⟨n, hn, hm⟩ := hm
  obtain ⟨k, hk, hcases⟩ := of_mem_printed_foldModule h.untouched hfault n hn m hm
  rcases hcases with ⟨hinfo, hkind⟩ | ⟨query, v, hasks, hv, rfl⟩
  · -- Whatever else was made is a placeholder.
    rw [hinfo] at hmade
    have hremoved := (remains_withoutPragmas h.untouched k hk).made hmade
    rw [kind, kind, hshape, hremoved] at hkind
    cases hkind
  · by_cases hquery : query = .registration
    · subst hquery
      obtain ⟨callee, arguments, optional, hcall, hregisters⟩ := FoldContext.asks_call hasks
      obtain ⟨first, second, rest, rfl⟩ := FoldContext.arguments_of_registration hregisters
      simp [FoldContext.answered, hcall] at hshape
    · obtain rfl : v = value := by
        rw [FoldContext.answered_of_ne_registration hquery] at hshape
        simpa [makeBoolean] using hshape
      exact ⟨k, hk, query, hquery, hasks, hv, rfl⟩

/-- In the output of the folded module each `truthText value` that answers a query has no name
`before` it, and has one `after` it just where one stands right behind the call in the source. -/
theorem printChunks_answers (h : program.Delivered)
    (hparted : program.Parted (program.answeredCalls features staticOnly path))
    {chunks : List Chunk}
    (hchunks : (program.foldModule features staticOnly path).program.printChunks = .ok chunks) :
    let left := program.withoutPragmas features path
    let ctx := program.foldContext features staticOnly path
    ∀ m ∈ (program.foldModule features staticOnly path).program.printed, ∀ value,
      m.isAnswer value →
        (∃ n ∈ left.printed, n.span = m.span ∧ ∃ query, query ≠ .registration ∧
          ctx.asks n = some query ∧ ctx.answer? n = some value) ∧
        ∃ before after, chunks = before ++ .inserted m.info.start (truthText value) :: after ∧
          ¬ (Chunk.outputs program.source before).endsInName ∧
          ((Chunk.outputs program.source after).startsInName ↔
            program.source.nameAt m.info.stop) := by
  intro left ctx m hm value hanswer
  obtain ⟨info, body, hfolded, hsynthetic, hordered, hplaced⟩ :=
    exists_foldModule h features staticOnly path
  have hchildren : (program.foldModule features staticOnly path).program.children = body := by
    rw [hfolded]
    rfl
  have hmade := (isAnswer_iff.mp hanswer).1
  -- The program itself stands for nothing.
  obtain ⟨n, hn, hm⟩ : ∃ n ∈ body, m ∈ n.printed := by
    rw [hfolded, printed_mk hsynthetic, List.mem_cons] at hm
    rcases hm with rfl | hm
    · rw [info_mk, hsynthetic] at hmade
      cases hmade
    · exact List.mem_flatMap.mp hm
  have hkeeps := keepsSeams_foldModule h hparted (hchildren ▸ hplaced)
  rw [hchildren] at hkeeps
  obtain ⟨k, hk, query, hquery, hasks, hvalue, rfl⟩ :=
    exists_asks_of_isAnswer h ⟨n, hchildren ▸ hn, hm⟩ hanswer
  have hremains := remains_withoutPragmas h.untouched k hk
  have hencloses := ((hplaced n hn _ hm).1 hmade).encloses
  rw [FoldContext.info_answered] at hencloses ⊢
  have hword :=
    (hparted.edit_answered (mem_answeredCalls hk hasks hvalue) hasks hencloses value).2 hquery
  have hedits : (Sheet.ofSource program.source).edits (FoldContext.answered k query value) = _ :=
    FoldContext.edits_answered_of_remains hremains hasks hvalue
  rw [hfolded] at hchunks
  obtain ⟨before, after, hsplit, hbefore, hafter⟩ := printChunks_words hsynthetic hordered hkeeps
    hchunks n hn _ hm hmade _ hword hedits
  refine ⟨⟨k, hk, ?_, query, hquery, hasks, hvalue⟩, before, after, ?_, hbefore, ?_⟩
  · rw [span, span, FoldContext.info_answered]
  · rw [hsplit, FoldContext.answeredText_of_ne_registration hquery]
  · rw [hafter]

end Node

/-- Each value that takes the place of a query in the code of a delivered module has no name
`before` it; a name runs on from it just if one stands right behind the call in the source. -/
theorem transform_answers {request : TransformRequest} {settings : Settings} {program : Node}
    {staticOnly : List Text} (h : request.Reads settings program staticOnly)
    (hdelivered : program.Delivered)
    (hparted : program.Parted
      (program.answeredCalls request.features staticOnly request.path))
    {w : World} {result : Transformed}
    (hresult : ((transform request Job.write).run settings w).1 = .ok result) :
    let left := program.withoutPragmas request.features request.path
    let ctx := program.foldContext request.features staticOnly request.path
    let folded := (program.foldModule request.features staticOnly request.path).program
    ∃ chunks, folded.printChunks = .ok chunks ∧
      result.code = Chunk.outputs request.source chunks ∧
      ∀ m ∈ folded.printed, ∀ value, m.isAnswer value →
        (∃ n ∈ left.printed, n.span = m.span ∧ ∃ query, query ≠ .registration ∧
          ctx.asks n = some query ∧ ctx.answer? n = some value) ∧
        ∃ before after, chunks = before ++ .inserted m.info.start (truthText value) :: after ∧
          ¬ (Chunk.outputs request.source before).endsInName ∧
          ((Chunk.outputs request.source after).startsInName ↔
            request.source.nameAt m.info.stop) := by
  intro left ctx folded
  have hfault := fault_of_run_transform h hresult
  obtain ⟨hprinted, -⟩ := printChained_of_run_transform h hresult hfault
  obtain ⟨chunks, hchunks, hcode⟩ := exists_of_bind_eq_ok (Node.print_of_printChained hprinted)
  obtain ⟨language, -, hparse⟩ := h.program
  have hsource : program.source = request.source := (program_of_parseModule hparse).1
  have hsheet : folded.sheet = Sheet.ofSource request.source := by
    rw [Node.sheet, Node.source_foldModule hfault, hsource]
  refine ⟨chunks, hchunks, ?_, ?_⟩
  · rw [Sheet.write, hsheet] at hcode
    exact (Except.ok.inj hcode).symm
  · rw [← hsource]
    exact Node.printChunks_answers hdelivered hparted hchunks

set_option maxRecDepth 100000 in
/-- With a blank behind the call the answer is a word of its own. -/
theorem transform_answers_spaced :
    let source := text "import has from 'a/has';\nx = has('a') in y;\n"
    let features : FeatureMap := [(text "a", true)]
    let request : TransformRequest := { source, features }
    let code := text "import has from 'a/has';\nx = true in y;\n"
    ∃ program before after, request.Reads {} program [] ∧ program.Delivered ∧
        program.Parted (program.answeredCalls features [] []) ∧
      (∀ w, ((transform request Job.write).run {} w).1 = .ok ⟨code, none, []⟩) ∧
      code = Chunk.outputs source (before ++ .inserted 29 (text "true") :: after) ∧
      ¬ (Chunk.outputs source before).endsInName ∧ ¬ (Chunk.outputs source after).startsInName := by
  intro source features request code
  obtain ⟨program, hreads, hfolds, hdelivered, hparted, m, hm, hanswer, hstart, hstop⟩ :=
    TransformRequest.exists_reads source features
      (P := fun program => program.FoldsWith features [⟨29, 37, text "true", false⟩] [] ∧
        program.Delivered ∧
        program.Parted (program.answeredCalls features [] []) ∧
        ∃ m ∈ (program.foldModule features [] []).program.printed,
          m.isAnswer true ∧ m.info.start = 29 ∧ m.info.stop = 37)
      (by decide +kernel)
  have hrun := run_transform_of_edits hreads hfolds (by decide) (by decide)
    (by decide +kernel : source.replaceFrom source.length 0 _ = code)
  obtain ⟨chunks, -, hcode, hwords⟩ := transform_answers hreads hdelivered hparted (hrun {})
  obtain ⟨-, before, after, rfl, hbefore, hafter⟩ := hwords m hm true hanswer
  rw [hstart] at hcode
  rw [hstop] at hafter
  exact ⟨program, before, after, hreads, hdelivered, hparted, hrun, hcode, hbefore,
    fun hname => absurd (hafter.mp hname) (by decide)⟩

set_option maxRecDepth 100000 in
/-- A keyword right behind the call becomes one word with the answer. -/
theorem transform_answers_joined :
    let source := text "import has from 'a/has';\nx = has('a')in y;\n"
    let features : FeatureMap := [(text "a", true)]
    let request : TransformRequest := { source, features }
    let code := text "import has from 'a/has';\nx = truein y;\n"
    let chunks : List Chunk := [.copied 0 29, .inserted 29 (text "true"), .copied 37 43]
    ∃ program, request.Reads {} program [] ∧ program.Delivered ∧
        program.Parted (program.answeredCalls features [] []) ∧
      (∀ w, ((transform request Job.write).run {} w).1 = .ok ⟨code, none, []⟩) ∧
      (program.foldModule features [] []).program.printChunks = .ok chunks ∧
      code = Chunk.outputs source chunks ∧
      (∃ m ∈ (program.foldModule features [] []).program.printed,
        m.isAnswer true ∧ m.info.start = 29) ∧
      (Chunk.outputs source [.copied 37 43]).startsInName := by
  intro source features request code chunks
  obtain ⟨program, hreads, hfolds, hdelivered, hparted, hanswer⟩ :=
    TransformRequest.exists_reads source features
      (P := fun program => program.FoldsWith features [⟨29, 37, text "true", false⟩] [] ∧
        program.Delivered ∧
        program.Parted (program.answeredCalls features [] []) ∧
        ∃ m ∈ (program.foldModule features [] []).program.printed,
          m.isAnswer true ∧ m.info.start = 29)
      (by decide +kernel)
  have hrun := run_transform_of_edits hreads hfolds (by decide) (by decide)
    (by decide +kernel : source.replaceFrom source.length 0 _ = code)
  have hchunks := printChunks_of_edits hreads hfolds (by decide) (by decide)
    (by decide +kernel : _ = Except.ok chunks)
  exact ⟨program, hreads, hdelivered, hparted, hrun, hchunks, by decide +kernel, hanswer,
    by decide +kernel⟩

end FlagFold
