/-
  FlagFold.Proofs.Fold.QueryRule

  What the folding of queries makes of a tree, without its state: each query whose
  flag is known is answered (`FoldContext.answer?`), and what becomes of a node
  depends on that node alone (`FoldContext.entry`).
-/

import FlagFold.Fold.Query
import FlagFold.Proofs.Tree.Traversal
import Mathlib.Data.Option.Basic

namespace FlagFold

namespace Node

/-- `isNamed` does not depend on the nodes below. -/
theorem isNamed_map (f : Node → Node) (info info' : Info) (shape : Shape Node)
    (name : Option Text) :
    (mk info' (shape.map f)).isNamed name = (mk info shape).isNamed name := by
  cases shape <;> rfl

/-- `isMember` depends on the names of the nodes below. -/
theorem isMember_map {f : Node → Node} {shape : Shape Node}
    (h : ∀ c ∈ shape.nodes, ∀ name, (f c).isNamed name = c.isNamed name) (info info' : Info)
    (object : Option Text) (property : String) :
    (mk info' (shape.map f)).isMember object property =
      (mk info shape).isMember object property := by
  cases shape with
  | member o p optional =>
    cases o <;> cases p <;> simp_all [Shape.map, Shape.nodes, isMember]
  | _ => rfl

end Node

namespace FoldContext

/-! ## The rule -/

/-- What `n` asks of the feature-query module, if it is a call that does. -/
def asks (ctx : FoldContext) (n : Node) : Option Query :=
  match n.shape with
  | .call callee arguments _ => callee.bind (ctx.binding.query? · arguments.length)
  | _ => none

/-- The flag that a query names as its first argument. -/
def flag? (n : Node) : Option Text :=
  match n.shape with
  | .call _ arguments _ => arguments.head?.bind Node.literal?
  | _ => none

/-- The answer to a query whose flag `ctx.features` has; a registration of a flag in
`ctx.staticOnly` has none. -/
def answer? (ctx : FoldContext) (n : Node) : Option Bool := do
  let query ← ctx.asks n
  let flag ← flag? n
  let value ← ctx.features.find? flag
  match query with
  | .value => some value
  | .presence => some true
  | .registration => if ctx.staticOnly.contains flag then none else some value

/-- A walk goes on below `n`: not below a query for a value or for presence, nor below a
registration that is answered. -/
def goesInto (ctx : FoldContext) (n : Node) : Bool :=
  match ctx.asks n with
  | none => true
  | some .registration => (ctx.answer? n).isNone
  | some _ => false

/-- What stands in the place of `n`, answered with `value`. -/
def answered (n : Node) (query : Query) (value : Bool) : Node :=
  match query, n.shape with
  | .registration, .call callee (first :: second :: _) optional =>
    .mk { n.info with comments := [], synthetic := true }
      (.call callee [first, Node.makeBoolean value second] optional)
  | _, _ => Node.makeBoolean value n

/-- What becomes of a node below the program. -/
def entry (ctx : FoldContext) (n : Node) : Entry :=
  match ctx.asks n, ctx.answer? n with
  | some query, some value => .skip (answered n query value)
  | some .registration, none | none, _ => .descend n.info
  | some _, none => .skip n

/-- `asks` depends on what the callee is called. -/
theorem asks_map {ctx : FoldContext} {f : Node → Node} {shape : Shape Node}
    (h : ∀ c ∈ shape.nodes, ∀ count, ctx.binding.query? (f c) count = ctx.binding.query? c count)
    (info info' : Info) :
    ctx.asks (.mk info' (shape.map f)) = ctx.asks (.mk info shape) := by
  cases shape with
  | call callee arguments optional =>
    cases callee with
    | none => rfl
    | some callee =>
      have hcallee := h callee (by simp [Shape.nodes])
      simp only [asks, Node.shape_mk, Shape.map, Option.map_some, Option.bind_some,
        List.length_map, hcallee]
  | _ => rfl

/-- `flag?` depends on the values of the arguments. -/
theorem flag?_map {f : Node → Node} {shape : Shape Node}
    (h : ∀ c ∈ shape.nodes, (f c).literal? = c.literal?) (info info' : Info) :
    flag? (.mk info' (shape.map f)) = flag? (.mk info shape) := by
  cases shape with
  | call callee arguments optional =>
    cases arguments with
    | nil => rfl
    | cons first rest => exact h first (by simp [Shape.nodes])
  | _ => rfl

/-- `answer?` depends on what a node asks and for which flag. -/
theorem answer?_congr {ctx : FoldContext} {n m : Node} (hasks : ctx.asks n = ctx.asks m)
    (hflag : flag? n = flag? m) : ctx.answer? n = ctx.answer? m := by
  rw [answer?, answer?, hasks, hflag]

/-- `goesInto` depends on what a node asks and for which flag. -/
theorem goesInto_congr {ctx : FoldContext} {n m : Node} (hasks : ctx.asks n = ctx.asks m)
    (hflag : flag? n = flag? m) : ctx.goesInto n = ctx.goesInto m := by
  rw [goesInto, goesInto, hasks, answer?_congr hasks hflag]

/-! ## The traversal keeps the rule -/

theorem asks_call {ctx : FoldContext} {n : Node} {query : Query} (h : ctx.asks n = some query) :
    ∃ callee arguments optional, n.shape = .call (some callee) arguments optional ∧
      ctx.binding.query? callee arguments.length = some query := by
  unfold asks at h
  split at h
  · obtain ⟨callee, rfl, hquery⟩ := Option.bind_eq_some_iff.mp h
    exact ⟨callee, _, _, ‹_›, hquery⟩
  · cases h

/-- A registration has two or three arguments, and would be one with two. -/
theorem query?_of_registration {b : Binding} {callee : Node} {count : Nat}
    (h : b.query? callee count = some .registration) :
    2 ≤ count ∧ b.query? callee 2 = some .registration := by
  unfold Binding.query? at h ⊢
  split at h
  case isTrue hone =>
    split at h
    · cases h
    · split at h <;> cases h
  case isFalse hone =>
    split at h
    case isTrue htwo => exact ⟨by simp at htwo; omega, by simpa using h⟩
    case isFalse => cases h

/-- A registration has two arguments at least. -/
theorem arguments_of_registration {b : Binding} {callee : Node} {arguments : List Node}
    (h : b.query? callee arguments.length = some .registration) :
    ∃ first second rest, arguments = first :: second :: rest := by
  have hcount := (query?_of_registration h).1
  cases arguments with
  | nil => simp at hcount
  | cons first rest =>
    cases rest with
    | nil => simp at hcount
    | cons second rest => exact ⟨first, second, rest, rfl⟩

/-- The callee of a registration is `b.addName`, or the member `add` of `b.name`. -/
theorem callee_of_registration {b : Binding} {callee : Node} {count : Nat}
    (h : b.query? callee count = some .registration) :
    callee.isNamed b.addName ∨ callee.isMember b.name "add" := by
  have htwo := (query?_of_registration h).2
  rw [← Bool.or_eq_true]
  by_contra hneither
  simp [Binding.query?, hneither] at htwo

/-- The first argument of an answered query is a literal. -/
theorem literal_of_answer {ctx : FoldContext} {n first : Node} {callee : Option Node}
    {rest : List Node} {optional value : Bool} (h : ctx.answer? n = some value)
    (hshape : n.shape = .call callee (first :: rest) optional) :
    ∃ flag, first.literal? = some flag := by
  simp only [answer?, flag?, hshape, List.head?_cons, Option.bind_eq_bind, Option.bind_some,
    Option.bind_eq_some_iff] at h
  obtain ⟨-, -, flag, hflag, -⟩ := h
  exact ⟨flag, hflag⟩

/-- The cases of `entry`: a query is answered, stays as it is, or is gone into. -/
theorem entry_cases (ctx : FoldContext) (n : Node) :
    (∃ query value, ctx.asks n = some query ∧ ctx.answer? n = some value ∧
      ctx.goesInto n = false ∧ ctx.entry n = .skip (answered n query value)) ∨
    (ctx.answer? n = none ∧ ctx.goesInto n = false ∧ ctx.entry n = .skip n) ∨
    (ctx.answer? n = none ∧ ctx.goesInto n = true ∧ ctx.entry n = .descend n.info ∧
      (ctx.asks n = none ∨ ctx.asks n = some .registration)) := by
  unfold entry goesInto
  cases hasks : ctx.asks n with
  | none =>
    have hanswer : ctx.answer? n = none := by simp [answer?, hasks]
    exact .inr (.inr ⟨hanswer, rfl, rfl, .inl rfl⟩)
  | some query =>
    cases hanswer : ctx.answer? n with
    | some value =>
      refine .inl ⟨query, value, rfl, rfl, ?_, rfl⟩
      cases query <;> simp
    | none =>
      cases query with
      | registration => exact .inr (.inr ⟨rfl, rfl, rfl, .inr rfl⟩)
      | value | presence => exact .inr (.inl ⟨rfl, rfl, rfl⟩)

theorem enterQuery_fst (ctx : FoldContext) {n : Node} {callee : Option Node}
    {arguments : List Node} {optional : Bool} {query : Query}
    (hshape : n.shape = .call callee arguments optional) (hasks : ctx.asks n = some query)
    (s : Folding) :
    (ctx.enterQuery query n callee arguments optional s).1 = ctx.entry n := by
  obtain ⟨own, arguments', optional', hshape', hquery⟩ := asks_call hasks
  rw [hshape] at hshape'
  cases hshape'
  have hflag : flag? n = arguments.head?.bind Node.literal? := by rw [flag?, hshape]
  cases query with
  | registration =>
    obtain ⟨first, second, rest, rfl⟩ := arguments_of_registration hquery
    rw [List.head?_cons, Option.bind_some] at hflag
    unfold enterQuery entry answer? foldRegistration? answered
    simp only [hasks, hflag, hshape, Option.bind_eq_bind, Option.bind_some]
    cases first.literal? with
    | none => rfl
    | some flag =>
      cases hfind : ctx.features.find? flag with
      | none => simp [hfind]
      | some value =>
        -- The flag is known; the call is answered unless the flag is to be left alone.
        by_cases hstatic : flag ∈ ctx.staticOnly
        · simp only [hfind, List.contains_iff_mem.mpr hstatic, Option.bind_some]
          rfl
        · simp [hfind, hstatic, guard]
  | value | presence =>
    unfold enterQuery entry answer? answered
    simp only [hasks, hflag, Option.bind_eq_bind, Option.bind_some]
    cases arguments.head?.bind Node.literal? with
    | none => rfl
    | some flag => cases hfind : ctx.features.find? flag <;> simp [hfind]

theorem visitor_enter_fst (ctx : FoldContext) (p : Place) (n : Node) (s : Folding) :
    (ctx.visitor.enter (some p) n s).1 = ctx.entry n := by
  have hnone : ctx.asks n = none → ctx.entry n = .descend n.info := by
    intro h
    simp [entry, h]
  unfold visitor
  simp only
  cases hshape : n.shape with
  | call callee arguments optional =>
    have hasks : ctx.asks n = callee.bind (ctx.binding.query? · arguments.length) := by
      rw [asks, hshape]
    simp only [← hasks]
    cases hquery : ctx.asks n with
    | none => simp only [hnone hquery]
    | some query => exact enterQuery_fst ctx hshape hquery s
  | _ => simp only [hnone (by rw [asks, hshape])]

end FoldContext

/-- `foldQueries` leaves the root of `program` and rebuilds each node below it by `entry`. -/
theorem Node.foldQueries_fst (program : Node) (ctx : FoldContext) (dynamic : List Text) :
    (program.foldQueries ctx dynamic).1 =
      .mk program.info (program.shape.map (·.rebuild ctx.entry)) := by
  cases program with
  | mk info shape =>
    have henter : ctx.visitor.enter none (.mk info shape) { dynamic } =
        (.descend info, { dynamic }) := rfl
    rw [foldQueries, traverse_mk, henter]
    have hplaces : ∀ s, (traversePlaces ctx.visitor shape.places s).1 =
        shape.nodes.map (·.rebuild ctx.entry) := traversePlaces_eq_map fun n _ p s =>
      traverse_eq_rebuild ctx.visitor_enter_fst (fun _ _ _ => rfl) n p s
    simp only [hplaces, Shape.refill_map]
    rfl

end FlagFold
