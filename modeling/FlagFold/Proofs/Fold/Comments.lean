/-
  FlagFold.Proofs.Fold.Comments

  What the work on a module puts into its code: comments that record what was taken
  out, and the texts of answered queries.  A record says the name of a flag or of a
  module just as the source has it after decoding, and everything else in it is harmless;
  so it is read as one comment just if that name does not hold what ends a comment
  of its form.
-/

import FlagFold.Proofs.Fold.Mapped
import FlagFold.Proofs.Print.Comments

namespace FlagFold

/-! ## What a record says -/

/-- `c` is no part of what ends a comment: no line terminator, star or slash. -/
def CodePoint.isHarmless (c : CodePoint) : Bool :=
  !StringLiteral.isLineTerminator c && c ≠ '*' && c ≠ '/'

/-- If `front` lacks `a`, the pair `[a, b]` occurs in `front ++ t` just if it does in `t`. -/
theorem pair_infix_append_iff {α : Type} {a b : α} {front t : List α} (h : a ∉ front) :
    [a, b] <:+: front ++ t ↔ [a, b] <:+: t := by
  induction front with
  | nil => rfl
  | cons c front ih =>
    rw [List.mem_cons, not_or] at h
    rw [List.cons_append, List.infix_cons_iff, List.cons_prefix_cons, ih h.2]
    simp [h.1]

/-- Harmless texts around `t` do not change whether `form.Admits` it. -/
theorem CommentForm.admits_between (form : CommentForm) {front back t : Text}
    (hfront : ∀ c ∈ front, c.isHarmless) (hback : ∀ c ∈ back, c.isHarmless) :
    form.Admits (front ++ t ++ back) ↔ form.Admits t := by
  simp only [CodePoint.isHarmless, Bool.and_eq_true, decide_eq_true_eq, Bool.not_eq_true',
    ne_eq] at hfront hback
  cases form with
  | line =>
    have hplain : ∀ {u : Text}, (∀ c ∈ u, (StringLiteral.isLineTerminator c = false ∧ c ≠ '*') ∧
        c ≠ '/') → ∀ c ∈ u, ¬ StringLiteral.isLineTerminator c := by
      intro u hu c hc
      simp [(hu c hc).1.1]
    simp only [Admits, List.forall_mem_append]
    exact ⟨fun h => h.1.2, fun h => ⟨⟨hplain hfront, h⟩, hplain hback⟩⟩
  | block =>
    have hstar : (CodePoint.ofChar '*') ∉ front := fun h => (hfront _ h).1.2 rfl
    have hslash : (CodePoint.ofChar '/') ∉ back.reverse := by
      rw [List.mem_reverse]
      exact fun h => (hback _ h).2 rfl
    have hclose : text "*/" = [CodePoint.ofChar '*', CodePoint.ofChar '/'] := rfl
    -- Behind the text the same is seen from the other end.
    rw [Admits, Admits, not_iff_not, hclose, List.append_assoc, pair_infix_append_iff hstar,
      ← List.reverse_infix, List.reverse_append]
    change [CodePoint.ofChar '/', CodePoint.ofChar '*'] <:+: _ ↔ _
    rw [pair_infix_append_iff hslash, ← List.reverse_infix, List.reverse_reverse]
    rfl

/-- The name in a record: that of a flag or of a module. -/
def Verdict.name : Verdict → Text
  | inert p | evaluated p _ => p.flag
  | elided module => module.shown

/-- The comment of `v` is `v.name` between harmless texts. -/
theorem Verdict.exists_comment_eq (v : Verdict) :
    ∃ front back, v.comment = front ++ v.name ++ back ∧
      (∀ c ∈ front, c.isHarmless) ∧ ∀ c ∈ back, c.isHarmless := by
  have hpragma : ∀ p : Pragma, ∃ front, text " " ++ p.expression = front ++ p.flag ++ text "')" ∧
      ∀ c ∈ front, c.isHarmless := by
    rintro ⟨_ | _, flag⟩
    · exact ⟨text " has('", rfl, by decide⟩
    · exact ⟨text " !has('", rfl, by decide⟩
  cases v with
  | inert p =>
    obtain ⟨front, hp, hfront⟩ := hpragma p
    exact ⟨front, text "')", hp, hfront, by decide⟩
  | evaluated p value =>
    obtain ⟨front, hp, hfront⟩ := hpragma p
    refine ⟨front, text "')" ++ text ": " ++ (if value then text "true" else text "false"), ?_,
      hfront, by cases value <;> decide⟩
    rw [comment, hp]
    simp only [name, List.append_assoc]
  | elided module => exact ⟨text " elided: import '", text "'", rfl, by decide, by decide⟩

/-- `form.Admits` the comment of `v` just if it admits `v.name`. -/
theorem Verdict.admits_comment_iff (form : CommentForm) (v : Verdict) :
    form.Admits v.comment ↔ form.Admits v.name := by
  obtain ⟨front, back, hcomment, hfront, hback⟩ := v.exists_comment_eq
  rw [hcomment, form.admits_between hfront hback]

/-! ## What the first pass leaves -/

namespace Node

/-- No node in `n` is a list of statements. -/
def Listless (n : Node) : Prop := ∀ m ∈ n.subnodes, ¬ m.kind.isStatementList

theorem listless_iff {n : Node} :
    n.Listless ↔ ¬ n.kind.isStatementList ∧ ∀ c ∈ n.children, c.Listless := by
  cases n with
  | mk info shape =>
    rw [Listless, subnodes, preorder_mk, if_pos rfl, List.forall_mem_cons, List.forall_mem_flatMap]
    rfl

/-- If `elided` leaves no list of statements, it has only given `n` the comments `cs`. -/
theorem elided_of_listless {features : FeatureMap} {n : Node} {cs : List Comment}
    (h : (n.elided features cs).Listless) :
    n.elided features cs = n.withComments (cs ++ n.comments) := by
  induction n using Node.induction generalizing cs with
  | mk info shape ih =>
    have hlist : ¬ shape.kind.isStatementList := by
      have hroot := h _ (mem_subnodes_self _)
      rwa [kind_elided] at hroot
    rw [elided_of_not_isStatementList hlist] at h ⊢
    obtain ⟨-, hbelow⟩ := listless_iff.mp h
    rw [children_mk, Shape.nodes_map, List.forall_mem_map] at hbelow
    have hsame : ∀ c ∈ shape.nodes, c.elided features [] = c := by
      intro c hc
      rw [ih c hc (hbelow c hc)]
      exact mk_info_shape c
    rw [Shape.map_congr hsame, Shape.map_id']
    rfl

/-- What the printer finds at a node `n` that the first pass has left: comments whose content
satisfies `S`, nothing made but placeholders, and parts of a call without a list of statements as
they were. -/
structure Remains (S : Text → Prop) (n : Node) : Prop where
  comments : ∀ c ∈ n.info.comments, S c.content
  made : n.info.synthetic → n.shape = .removed
  parts : n.kind = .call → ∀ c ∈ n.children, c.Listless → c.Untouched

/-- The items left in a list and the comments left at its end are of this kind as well. -/
def ListRemains (S : Text → Prop) (read : List Node × List Comment) : Prop :=
  (∀ n ∈ read.1, ∀ m ∈ n.printed, m.Remains S) ∧ ∀ c ∈ read.2, S c.content

variable {S : Text → Prop} {features : FeatureMap}

/-- A node that `Remains` puts in nothing but its comments. -/
theorem Remains.putsIn {n : Node} (h : n.Remains S) (sheet : Sheet) (Q : Text → Prop) :
    n.PutsIn sheet (fun c => S c.content) Q :=
  ⟨h.comments, fun hmade => .inl (h.made hmade)⟩

/-- In an `Untouched` tree every printed node `Remains`. -/
theorem Untouched.remains {n : Node} (h : n.Untouched) : ∀ m ∈ n.printed, m.Remains S := by
  induction n using Node.induction with
  | mk info shape ih =>
    rw [printed_of_not_synthetic h.synthetic, List.forall_mem_cons, List.forall_mem_flatMap]
    refine ⟨⟨?_, ?_, fun _ c hc _ => h.of_mem_children hc⟩,
      fun c hc => ih c hc (h.of_mem_children hc)⟩
    · rw [h.comments]
      simp
    · rw [h.synthetic]
      simp

/-- A placeholder with comments that satisfy `S` `Remains`. -/
theorem remains_makeRemoved (stmt : Node) {cs : List Comment} (h : ∀ c ∈ cs, S c.content) :
    ∀ m ∈ ((makeRemoved stmt).withComments cs).printed, m.Remains S := by
  rw [printed_of_synthetic rfl, List.forall_mem_singleton]
  refine ⟨h, fun _ => rfl, fun hcall => ?_⟩
  cases hcall

/-- If the records of a list satisfy `S`, as do the comments `carried` into it, the list that
`elidedItems` leaves is a `ListRemains`; by induction on the list. -/
theorem remains_elidedItems {parent : Kind} {field : Field}
    (hplace : ∀ index following,
      Place.isStatement ⟨parent, field, some index, following⟩ = parent.hasStatementAt index)
    {items : List (Node × (List Comment → Node))}
    (hbare : ∀ item ∈ items, item.1.comments = [])
    (hrecords : ∀ item ∈ items, ∀ state v,
      (ElisionState.step features state item.1).1 = .ok (some v) → S v.comment)
    (hkept : ∀ item ∈ items, ∀ cs : List Comment, (∀ c ∈ cs, S c.content) →
      ∀ m ∈ (item.2 cs).printed, m.Remains S)
    (index : Nat) (machine : ElisionState) {carried : List Comment}
    (hcarried : ∀ c ∈ carried, S c.content) :
    ListRemains S (elidedItems features parent field index machine carried items) := by
  induction items generalizing index machine carried with
  | nil => exact ⟨by simp [elidedItems], hcarried⟩
  | cons item rest ih =>
    obtain ⟨stmt, kept⟩ := item
    rw [List.forall_mem_cons] at hbare hrecords hkept
    have hnone : ∀ c ∈ ([] : List Comment), S c.content := by simp
    obtain ⟨n, machine', carried', heq, hcases⟩ :=
      elidedItems_cons features hplace index machine carried stmt kept rest
    have hfirst : (∀ m ∈ n.printed, m.Remains S) ∧ ∀ c ∈ carried', S c.content := by
      rcases hcases with ⟨-, -, ⟨-, v, hv, rfl, rfl⟩ | ⟨-, rfl, rfl⟩⟩ | ⟨-, -, rfl, rfl⟩
      · have hleft : ∀ c ∈ carried ++ stmt.comments ++ [⟨v.comment, true⟩], S c.content := by
          rw [hbare.1, List.append_nil, List.forall_mem_append, List.forall_mem_singleton]
          exact ⟨hcarried, hrecords.1 machine v hv⟩
        -- The comments stay with the placeholder or go on.
        split
        · exact ⟨remains_makeRemoved stmt hleft, hnone⟩
        · exact ⟨remains_makeRemoved stmt hnone, hleft⟩
      · exact ⟨hkept.1 carried hcarried, hnone⟩
      · exact ⟨hkept.1 [] hnone, hcarried⟩
    obtain ⟨hlater, hafter⟩ := ih hbare.2 hrecords.2 hkept.2 (index + 1) machine' hfirst.2
    rw [heq]
    exact ⟨List.forall_mem_cons.mpr ⟨hfirst.1, hlater⟩, hafter⟩

/-- If the records of a list that holds statements satisfy `S`, and all that is kept of its items
`Remains`, the list that `elidedShape` leaves is a `ListRemains`. -/
theorem exists_listRemains {shape : Shape Node} (hlist : shape.kind.isStatementList)
    (hbare : ∀ c ∈ shape.nodes, c.comments = [])
    (hrecords : ∀ stmt ∈ shape.nodes, ∀ state v,
      (ElisionState.step features state stmt).1 = .ok (some v) → S v.comment)
    (hbelow : ∀ c ∈ shape.nodes, ∀ cs : List Comment, (∀ c ∈ cs, S c.content) →
      ∀ m ∈ (c.elided features cs).printed, m.Remains S) :
    ∃ read, ListRemains S read ∧
      (elidedShape features (shape.map fun n => (n, n.elided features))).1.nodes = read.1 ∧
      (elidedShape features (shape.map fun n => (n, n.elided features))).2 = read.2 := by
  have hitems : ∀ {parent field}, (∀ index following, Place.isStatement
        ⟨parent, field, some index, following⟩ = parent.hasStatementAt index) →
      ListRemains S (elidedItems features parent field 0 .idle []
        (shape.nodes.map fun n => (n, n.elided features))) := by
    intro parent field hplace
    apply remains_elidedItems hplace
    · rwa [List.forall_mem_map]
    · rwa [List.forall_mem_map]
    · rwa [List.forall_mem_map]
    · exact fun c hc => absurd hc List.not_mem_nil
  cases shape with
  | program body source => exact ⟨_, hitems fun _ _ => rfl, rfl, rfl⟩
  | generic kind children => exact ⟨_, hitems (Place.isStatement_children kind), rfl, rfl⟩
  | _ => simp [Shape.kind, Kind.isStatementList] at hlist

/-- A node that is not `synthetic` and no call `Remains` as soon as its comments satisfy `S`. -/
theorem remains_of_comments {n : Node} (hcomments : ∀ c ∈ n.comments, S c.content)
    (hstays : n.info.synthetic = false) (hcall : n.kind ≠ .call) : n.Remains S := by
  refine ⟨hcomments, fun hmade => ?_, fun h => absurd h hcall⟩
  rw [hstays] at hmade
  cases hmade

/-- If the records of an `Untouched` tree satisfy `S`, all printed nodes of the elided tree are what
`Remains`; by induction on the tree. -/
theorem remains_elided {n : Node} (h : n.Untouched)
    (hrecords : ∀ stmt ∈ n.subnodes, ∀ state v,
      (ElisionState.step features state stmt).1 = .ok (some v) → S v.comment)
    {carried : List Comment} (hcarried : ∀ c ∈ carried, S c.content) :
    ∀ m ∈ (n.elided features carried).printed, m.Remains S := by
  induction n using Node.induction generalizing carried with
  | mk info shape ih =>
    have hcomments : info.comments = [] := h.comments
    have hstays : ((mk info shape).elided features carried).info.synthetic = false := by
      rw [synthetic_elided]
      exact h.synthetic
    have hbelow : ∀ c ∈ shape.nodes, ∀ cs : List Comment, (∀ c ∈ cs, S c.content) →
        ∀ m ∈ (c.elided features cs).printed, m.Remains S := fun c hc _ hcs =>
      ih c hc (h.of_mem_children hc)
        (fun stmt hstmt => hrecords stmt (mem_subnodes_of_mem_children hc hstmt)) hcs
    rw [printed_of_not_synthetic hstays, List.forall_mem_cons, List.forall_mem_flatMap]
    by_cases hlist : shape.kind.isStatementList
    · obtain ⟨read, ⟨hread, hleft⟩, hnodes, hafter⟩ := exists_listRemains hlist
        (fun c hc => (h.of_mem_children hc).comments)
        (fun c hc => hrecords c (mem_subnodes_of_mem_children hc (mem_subnodes_self c))) hbelow
      refine ⟨remains_of_comments ?_ hstays fun hcall => ?_, ?_⟩
      · -- The comments taken over, and behind them those left at the end of the list.
        rw [comments, elided_mk, info_mk, hcomments, List.append_nil, hafter,
          List.forall_mem_append, Comment.atEnd, List.forall_mem_map]
        exact ⟨hcarried, hleft⟩
      · have hkind : shape.kind = .call := (kind_elided _ _).symm.trans hcall
        rw [hkind] at hlist
        cases hlist
      · rw [elided_mk, children_mk, hnodes]
        exact hread
    · rw [elided_of_not_isStatementList hlist] at hstays ⊢
      rw [children_mk, Shape.nodes_map, List.forall_mem_map]
      refine ⟨⟨?_, fun hmade => ?_, ?_⟩, fun c hc => hbelow c hc [] (by simp)⟩
      · rwa [info_mk, hcomments, List.append_nil]
      · rw [hstays] at hmade
        cases hmade
      · -- The parts of a call that hold no list are what they were in the `Untouched` tree.
        rintro - c hc hlistless
        rw [children_mk, Shape.nodes_map] at hc
        obtain ⟨d, hd, rfl⟩ := List.mem_map.mp hc
        have hsame : d.elided features [] = d :=
          (elided_of_listless hlistless).trans (mk_info_shape d)
        rw [hsame]
        exact h.of_mem_children hd

end Node

/-! ## What the second pass makes of it -/

namespace FoldContext

variable {ctx : FoldContext} {sheet : Sheet} {S : Text → Prop} {Q : Text → Prop}

theorem listless_of_isNamed {n : Node} {name : Option Text} (h : n.isNamed name) : n.Listless := by
  unfold Node.isNamed at h
  split at h
  case h_1 hshape =>
    rw [Node.listless_iff, Node.kind, Node.children, hshape]
    exact ⟨Bool.false_ne_true, by simp [Shape.nodes]⟩
  case h_2 => cases h

theorem listless_of_isMember {n : Node} {object : Option Text} {property : String}
    (h : n.isMember object property) : n.Listless := by
  unfold Node.isMember at h
  split at h
  case h_1 hshape =>
    rw [Bool.and_eq_true] at h
    rw [Node.listless_iff, Node.kind, Node.children, hshape]
    refine ⟨Bool.false_ne_true, ?_⟩
    simpa [Shape.nodes] using ⟨listless_of_isNamed h.1, listless_of_isNamed h.2⟩
  case h_2 => cases h

theorem listless_of_literal {n : Node} {t : Text} (h : n.literal? = some t) : n.Listless := by
  unfold Node.literal? at h
  split at h
  case h_1 hshape | h_2 hshape =>
    rw [Node.listless_iff, Node.kind, Node.children, hshape]
    exact ⟨Bool.false_ne_true, by simp [Shape.nodes]⟩
  case h_3 => cases h

/-- In an answered registration that `Remains`, the callee and the flag are `Untouched`. -/
theorem untouched_of_registration {n callee first : Node} {rest : List Node} {optional : Bool}
    (h : n.Remains S) (hshape : n.shape = .call (some callee) (first :: rest) optional)
    (hasks : ctx.asks n = some .registration) {value : Bool}
    (hanswer : ctx.answer? n = some value) : callee.Untouched ∧ first.Untouched := by
  have hkind : n.kind = .call := by rw [Node.kind, hshape]; rfl
  have hchildren : n.children = callee :: first :: rest := by rw [Node.children, hshape]; rfl
  have hparts := h.parts hkind
  rw [hchildren, List.forall_mem_cons, List.forall_mem_cons] at hparts
  obtain ⟨callee', arguments, optional', hcall, hquery⟩ := asks_call hasks
  obtain ⟨rfl, rfl, -⟩ : callee = callee' ∧ first :: rest = arguments ∧ _ := by
    simpa [hshape] using hcall
  obtain ⟨flag, hflag⟩ := literal_of_answer hanswer hshape
  refine ⟨hparts.1 ?_, hparts.2.1 (listless_of_literal hflag)⟩
  exact (callee_of_registration hquery).elim listless_of_isNamed listless_of_isMember

/-- The one edit of the answer to a query that `Remains` puts `answeredText` in the place of its
span. -/
theorem edits_answered_of_remains {n : Node} (h : n.Remains S) {query : Query} {value : Bool}
    (hasks : ctx.asks n = some query) (hanswer : ctx.answer? n = some value) :
    sheet.edits (answered n query value) =
      .ok [⟨n.info.start, n.info.stop, answeredText sheet.source n query value, false⟩] := by
  rw [edits_answered_of_kept (fun hquery callee first rest optional hshape =>
    untouched_of_registration h hshape (hquery ▸ hasks) hanswer) hasks hanswer]
  simp [change?, hasks, hanswer]

/-- If all printed nodes of `n` are what `Remains`, the rebuilt tree puts in their comments and the
texts of answered queries only; by induction on the tree. -/
theorem putsIn_rebuild {n : Node} (h : ∀ m ∈ n.printed, m.Remains S)
    (hanswers : ∀ m ∈ n.subnodes, ∀ query value, ctx.asks m = some query →
      ctx.answer? m = some value → Q (answeredText sheet.source m query value)) :
    ∀ m ∈ (n.rebuild ctx.entry).printed, m.PutsIn sheet (fun c => S c.content) Q := by
  induction n using Node.induction with
  | mk info shape ih =>
    have hself := h (.mk info shape) (Node.mem_preorder_self _ _)
    rw [Node.rebuild_mk]
    rcases ctx.entry_cases (.mk info shape) with
      ⟨query, value, hasks, hanswer, -, hentry⟩ | ⟨-, -, hentry⟩ | ⟨-, -, hentry, -⟩
    -- An answered query, a node that is not gone into, and one that is rebuilt from its parts.
    · have hinfo := info_answered (.mk info shape) query value
      rw [hentry, Node.printed_of_synthetic (by rw [hinfo]), List.forall_mem_singleton]
      refine ⟨by simp [hinfo], fun _ => .inr ?_⟩
      rw [edits_answered_of_remains hself hasks hanswer]
      refine ensures_ok ?_
      rw [List.forall_mem_singleton]
      exact hanswers _ (Node.mem_subnodes_self _) query value hasks hanswer
    · rw [hentry]
      exact fun m hm => (h m hm).putsIn sheet Q
    · rw [hentry]
      cases hsynthetic : info.synthetic with
      | true =>
        obtain rfl : shape = .removed := hself.made hsynthetic
        exact fun m hm => (h m hm).putsIn sheet Q
      | false =>
        rw [Node.printed_mk hsynthetic, List.forall_mem_cons, List.forall_mem_flatMap] at h
        rw [Node.info_mk, Node.printed_mk hsynthetic, List.forall_mem_cons,
          List.forall_mem_flatMap, Shape.nodes_map, List.forall_mem_map]
        refine ⟨⟨hself.comments, fun hmade => ?_⟩, fun c hc => ih c hc (h.2 c hc) ?_⟩
        · rw [Node.info_mk, hsynthetic] at hmade
          cases hmade
        · exact fun m hm => hanswers m (Node.mem_subnodes_of_mem_children hc hm)

end FoldContext

/-! ## What both passes put in -/

namespace Node

/-- `content` is that of the record of a statement of `program`. -/
def IsRecord (program : Node) (features : FeatureMap) (content : Text) : Prop :=
  ∃ stmt ∈ program.subnodes, ∃ state v,
    (ElisionState.step features state stmt).1 = .ok (some v) ∧ content = v.comment

/-- `t` is the `answeredText` of a query of `program`. -/
def IsAnswer (program : Node) (ctx : FoldContext) (t : Text) : Prop :=
  ∃ n ∈ program.subnodes, ∃ query value, ctx.asks n = some query ∧ ctx.answer? n = some value ∧
    t = FoldContext.answeredText program.source n query value

variable {program : Node} {features : FeatureMap} {staticOnly : List Text} {path : Text}

theorem remains_withoutPragmas (h : program.Untouched) :
    ∀ m ∈ (program.withoutPragmas features path).printed,
      m.Remains (program.IsRecord features) := by
  unfold withoutPragmas
  split
  · exact h.remains
  · exact remains_elided h (fun stmt hstmt state v hv => ⟨stmt, hstmt, state, v, hv, rfl⟩) (by simp)

theorem synthetic_withoutPragmas (h : program.Untouched) (features : FeatureMap) (path : Text) :
    (program.withoutPragmas features path).info.synthetic = false := by
  unfold withoutPragmas
  split
  · exact h.synthetic
  · exact (synthetic_elided program []).trans h.synthetic

/-- If `foldModule` meets no fault, its program puts in records and answers only. -/
theorem putsIn_foldModule (h : program.Untouched)
    (hfault : (program.foldModule features staticOnly path).fault = none) :
    let folded := (program.foldModule features staticOnly path).program
    (∀ c ∈ folded.comments, program.IsRecord features c.content) ∧
      ∀ n ∈ folded.children, ∀ m ∈ n.printed,
        m.PutsIn folded.sheet (fun c => program.IsRecord features c.content)
          ((program.withoutPragmas features path).IsAnswer
            (program.foldContext features staticOnly path)) := by
  intro folded
  set left := program.withoutPragmas features path
  set ctx := program.foldContext features staticOnly path
  have hremains : ∀ m ∈ left.printed, m.Remains (program.IsRecord features) :=
    remains_withoutPragmas h
  have hstays : left.info.synthetic = false := synthetic_withoutPragmas h features path
  rw [printed_of_not_synthetic hstays, List.forall_mem_cons, List.forall_mem_flatMap] at hremains
  obtain ⟨hself, hbelow⟩ := hremains
  -- The second pass runs only where the first has found a binding.
  rcases foldModule_cases hfault with hfolded | hfolded
  · rw [show folded = left from hfolded]
    exact ⟨hself.comments, fun n hn m hm => (hbelow n hn m hm).putsIn _ _⟩
  · have hsource : folded.source = left.source := by
      rw [show folded = _ from hfolded, source_foldQueries]
    have hsheet : folded.sheet.source = left.source := hsource
    have hfolded' : folded = .mk left.info (left.shape.map (·.rebuild ctx.entry)) :=
      (show folded = _ from hfolded).trans (foldQueries_fst left ctx [])
    have hchildren : folded.children = left.children.map (·.rebuild ctx.entry) := by
      rw [hfolded', children_mk, Shape.nodes_map]
      rfl
    refine ⟨?_, ?_⟩
    · rw [hfolded']
      exact hself.comments
    · rw [hchildren, List.forall_mem_map]
      intro n hn
      apply FoldContext.putsIn_rebuild (hbelow n hn)
      intro m hm query value hasks hanswer
      rw [hsheet]
      exact ⟨m, mem_subnodes_of_mem_children hn hm, query, value, hasks, hanswer, rfl⟩

end Node

/-- `t.newline` starts with a line terminator. -/
theorem Text.newline_terminates (t : Text) :
    ∃ e later, t.newline = e :: later ∧ StringLiteral.isLineTerminator e := by
  unfold newline
  simp only
  split
  · exact ⟨_, _, rfl, by decide⟩
  · exact ⟨_, _, rfl, by decide⟩

/-- What `transform` puts into the code is, up to a line break before it, the text that answers a
query or comments in one form. Each comment is the record of a statement, and `ReadsAsOne` just if
the name of the flag or the module that it tells holds nothing that ends a comment of its form. -/
theorem transform_comments {request : TransformRequest} {settings : Settings} {program : Node}
    {staticOnly : List Text} (h : request.Reads settings program staticOnly) {w : World}
    {result : Transformed}
    (hresult : ((transform request Job.write).run settings w).1 = .ok result) :
    let newline := request.source.newline
    ∃ chunks,
      (program.foldModule request.features staticOnly request.path).program.printChunks =
        .ok chunks ∧
      result.code = Chunk.outputs request.source chunks ∧
      ∀ offset t, Chunk.inserted offset t ∈ chunks →
        ∃ body, (t = body ∨ t = newline ++ body) ∧
          ((program.withoutPragmas request.features request.path).IsAnswer
              (program.foldContext request.features staticOnly request.path) body ∨
            ∃ form cs, CommentForm.Writes form newline cs body ∧
              ∀ c ∈ cs, ∃ stmt ∈ program.subnodes, ∃ state v,
                (ElisionState.step request.features state stmt).1 = .ok (some v) ∧
                c.content = v.comment ∧
                (form.Admits c.content ↔ form.Admits v.name) ∧
                (form.ReadsAsOne newline c ↔ form.Admits c.content)) := by
  intro newline
  have hfault := fault_of_run_transform h hresult
  obtain ⟨hprinted, -⟩ := printChained_of_run_transform h hresult hfault
  obtain ⟨chunks, hchunks, hcode⟩ := exists_of_bind_eq_ok (Node.print_of_printChained hprinted)
  obtain ⟨language, -, hparse⟩ := h.program
  have huntouched := (parsed_of_parseModule hparse).untouched
  have hsource := (Node.source_foldModule hfault).trans (program_of_parseModule hparse).1
  obtain ⟨hcomments, hprintedNodes⟩ := Node.putsIn_foldModule huntouched hfault
  have hsheet : (program.foldModule request.features staticOnly request.path).program.sheet =
      Sheet.ofSource request.source := by rw [Node.sheet, hsource]
  have hputs := Node.printChunks_ensures hcomments hprintedNodes chunks hchunks
  rw [hsheet] at hputs
  refine ⟨chunks, hchunks, ?_, fun offset t ht => ?_⟩
  · rw [Sheet.write, hsheet] at hcode
    exact (Except.ok.inj hcode).symm
  · obtain ⟨e, hputs, hbody⟩ := hputs offset t ht
    refine ⟨e.text, hbody, hputs.symm.imp_right ?_⟩
    rintro ⟨form, cs, hwrites, hrecords⟩
    refine ⟨form, cs, hwrites, fun c hc => ?_⟩
    obtain ⟨stmt, hstmt, state, v, hv, hcontent⟩ := hrecords c hc
    refine ⟨stmt, hstmt, state, v, hv, hcontent, ?_, ?_⟩
    · rw [hcontent]
      exact v.admits_comment_iff form
    · exact CommentForm.readsAsOne_iff request.source.newline_terminates

set_option maxRecDepth 100000 in
/-- The record of a flag without anything harmful in its name is read as one comment. -/
theorem transform_comments_plainFlag :
    let request : TransformRequest := { source := text "'has(\"x\")';\nc;\n" }
    ∃ program chunks, request.Reads {} program [] ∧
      (program.foldModule [] [] []).program.printChunks = .ok chunks ∧
      (∀ w, ((transform request Job.write).run {} w).1 =
        .ok ⟨Chunk.outputs request.source chunks, none, []⟩) ∧
      ∃ body form cs, Chunk.inserted 12 body ∈ chunks ∧
        CommentForm.Writes form request.source.newline cs body ∧
        ∀ c ∈ cs, form.ReadsAsOne request.source.newline c := by
  intro request
  let chunks : List Chunk := [.inserted 12 (text "// has('x')\n"), .copied 12 15]
  obtain ⟨program, hreads, hfolds, hasks, hnames⟩ :=
    TransformRequest.exists_reads request.source []
      (P := fun program =>
        program.FoldsWith [] [⟨0, 12, [], false⟩, ⟨12, 12, text "// has('x')\n", false⟩] [] ∧
        (∀ n ∈ (program.withoutPragmas [] []).subnodes,
          (program.foldContext [] [] []).asks n = none) ∧
        ∀ stmt ∈ program.subnodes, ∀ state ∈ [ElisionState.idle, .pending],
          ∀ v ∈ (state.step [] stmt).1.toOption.join, v.name = text "x")
      (by decide +kernel)
  have hrun := run_transform_of_edits hreads hfolds (by decide) (by decide)
    (by decide +kernel : request.source.replaceFrom request.source.length 0 _ =
      Chunk.outputs request.source chunks)
  have hchunks := printChunks_of_edits hreads hfolds (by decide) (by decide)
    (by decide +kernel : _ = Except.ok chunks)
  obtain ⟨chunks', hchunks', -, hinserted⟩ := transform_comments hreads (hrun {})
  cases hchunks.symm.trans hchunks'
  obtain ⟨body, hbody, hputs⟩ := hinserted 12 (text "// has('x')\n") (by decide)
  -- No line break comes before it, and there is no query that it could answer.
  obtain rfl : text "// has('x')\n" = body := by
    rcases hbody with h | h
    · exact h
    · have hfirst : CodePoint.ofChar '/' = CodePoint.ofChar '\n' := (List.cons.inj h).1
      exact absurd hfirst (by decide)
  obtain ⟨n, hn, query, -, hquery, -⟩ | ⟨form, cs, hwrites, hrecords⟩ := hputs
  · rw [hasks n hn] at hquery
    cases hquery
  refine ⟨program, chunks, hreads, hchunks, hrun, _, form, cs, by decide, hwrites, fun c hc => ?_⟩
  obtain ⟨stmt, hstmt, state, v, hv, -, hadmits, hreadsAsOne⟩ := hrecords c hc
  have hname : v.name = text "x" := by
    apply hnames stmt hstmt state (by cases state <;> decide)
    rw [hv]
    rfl
  rw [hreadsAsOne, hadmits, hname]
  cases form <;> decide

set_option maxRecDepth 100000 in
/-- A flag with a line feed in its name breaks its record: what follows it is a statement of the
code. -/
theorem transform_comments_brokenLine :
    let request : TransformRequest := { source := text "'has(\"a\\nb()//\")';\nc\n" }
    let record : Comment := ⟨text " has('a\nb()//')", true⟩
    let newline := request.source.newline
    let code := record.line ++ newline ++ text "c\n"
    ∃ program again, request.Reads {} program [] ∧
      (∀ w, ((transform request Job.write).run {} w).1 = .ok ⟨code, none, []⟩) ∧
      (program.foldModule [] [] []).program.printChunks =
        .ok [.inserted 19 (record.line ++ newline), .copied 19 21] ∧
      ¬ CommentForm.line.Admits record.content ∧
      ({ source := code } : TransformRequest).Reads {} again [] ∧
      again.children.map (fun n => (n.kind, n.info.start)) =
        [(.expressionStatement, 10), (.expressionStatement, 18)] := by
  intro request record newline code
  obtain ⟨program, hreads, hfolds⟩ :=
    TransformRequest.exists_reads request.source []
      (P := fun program =>
        program.FoldsWith [] [⟨0, 19, [], false⟩, ⟨19, 19, record.line ++ newline, false⟩] [])
      (by decide +kernel)
  obtain ⟨again, hagain, hstatements⟩ :=
    TransformRequest.exists_reads code []
      (P := fun again => again.children.map (fun n => (n.kind, n.info.start)) =
        [(.expressionStatement, 10), (.expressionStatement, 18)])
      (by decide +kernel)
  have hrun := run_transform_of_edits hreads hfolds (by decide) (by decide)
    (by decide +kernel : request.source.replaceFrom request.source.length 0 _ = code)
  have hchunks := printChunks_of_edits hreads hfolds (by decide) (by decide)
    (by decide +kernel : _ = Except.ok [.inserted 19 (record.line ++ newline), .copied 19 21])
  exact ⟨program, again, hreads, hrun, hchunks, by decide, hagain, hstatements⟩

end FlagFold
