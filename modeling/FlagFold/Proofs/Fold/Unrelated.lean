/-
  FlagFold.Proofs.Fold.Unrelated

  Which flags can make a difference to a module: those that its pragmas name, and
  those that a call has as its first argument.  The work on a module for two feature
  maps that agree on these goes step by step the same way.  The calls that the second
  pass comes to are those that the first has left, and they name what the calls of the
  program name.
-/

import FlagFold.Proofs.Fold.Names
import FlagFold.Proofs.Fold.QueryRule
import FlagFold.Proofs.Fold.Run

namespace FlagFold

/-! ## The flags of a module -/

/-- The flags of the pragmas among the statements of `n`. -/
def Node.pragmaFlags (n : Node) : List Text :=
  n.shape.places.filterMap fun (place, stmt) =>
    if place.isStatement then stmt.pragma?.map (·.flag) else none

/-- The flags that `program` names, in its pragmas and as literal first arguments of its calls. -/
def Node.namedFlags (program : Node) : List Text :=
  program.subnodes.flatMap fun n => n.pragmaFlags ++ (FoldContext.flag? n).toList

theorem Node.mem_namedFlags_of_pragma {program n stmt : Node} {place : Place} {p : Pragma}
    (hn : n ∈ program.subnodes) (hstmt : (place, stmt) ∈ n.shape.places)
    (hplace : place.isStatement) (hp : stmt.pragma? = some p) : p.flag ∈ program.namedFlags := by
  refine List.mem_flatMap.mpr ⟨n, hn, List.mem_append_left _ (List.mem_filterMap.mpr ?_)⟩
  refine ⟨(place, stmt), hstmt, ?_⟩
  show (if place.isStatement then stmt.pragma?.map (·.flag) else none) = some p.flag
  rw [if_pos hplace, hp]
  rfl

theorem Node.mem_namedFlags_of_call {program n : Node} {flag : Text} (hn : n ∈ program.subnodes)
    (h : FoldContext.flag? n = some flag) : flag ∈ program.namedFlags :=
  List.mem_flatMap.mpr ⟨n, hn, List.mem_append_right _ (by rw [h]; exact List.mem_singleton_self _)⟩

/-- `FeatureMap.ofJson` has the members of the table, by their truth. -/
theorem FeatureMap.find?_ofJson (members : Table Json) (flag : Text) :
    (FeatureMap.ofJson members).find? flag = (members.find? flag).map Json.isTruthy := by
  induction members with
  | nil => rfl
  | cons member rest ih =>
    obtain ⟨key, value⟩ := member
    show (if key = flag then some value.isTruthy else (ofJson rest).find? flag) =
      (if key = flag then some value else Table.find? rest flag).map Json.isTruthy
    rw [ih]
    split <;> rfl

/-! ## Visits with visitors that do the same -/

/-- Two visitors that enter the nodes in `n` in the same way and leave in the same way traverse it
in the same way. -/
theorem Node.traverse_congr {σ : Type} {v v' : Visitor σ} (hleave : v.leave = v'.leave) (n : Node)
    (place : Option Place) (hself : ∀ s, v.enter place n s = v'.enter place n s)
    (hbelow : ∀ m ∈ n.subnodes, ∀ p ∈ m.shape.places, ∀ s,
      v.enter (some p.1) p.2 s = v'.enter (some p.1) p.2 s) (s : σ) :
    n.traverse v place s = n.traverse v' place s := by
  induction n using Node.induction generalizing place s with
  | mk info shape ih =>
    have hplaces : ∀ ps : List (Place × Node), (∀ p ∈ ps, p ∈ shape.places) →
        ∀ s, traversePlaces v ps s = traversePlaces v' ps s := by
      intro ps hps
      induction ps with
      | nil => exact fun s => rfl
      | cons p rest ihps =>
        intro s
        rw [List.forall_mem_cons] at hps
        have hp := Shape.mem_nodes_of_mem_places hps.1
        have hvisit := ih p.2 hp (some p.1) (hbelow _ (mem_subnodes_self _) p hps.1)
          fun m hm => hbelow m (mem_subnodes_of_mem_children hp hm)
        simp only [traversePlaces, hvisit, ihps hps.2]
    rw [traverse_mk, traverse_mk, hself, hleave]
    simp only [hplaces _ fun _ => id]

/-! ## Pragmas -/

section

variable {m m' : FeatureMap}

theorem ElisionState.step_congr {stmt : Node} (state : ElisionState)
    (h : ∀ p, stmt.pragma? = some p → m.find? p.flag = m'.find? p.flag) :
    state.step m stmt = state.step m' stmt := by
  unfold step
  cases hp : stmt.pragma? with
  | none => rfl
  | some p => simp only [Pragma.evaluate?, h p hp]

theorem Elision.enter_congr {p : Place × Node} (s : Elision)
    (h : p.1.isStatement → ∀ pragma, p.2.pragma? = some pragma →
      m.find? pragma.flag = m'.find? pragma.flag) :
    (visitor m).enter (some p.1) p.2 s = (visitor m').enter (some p.1) p.2 s := by
  by_cases hplace : p.1.isStatement
  · have hstep := s.machine.step_congr (h hplace)
    have henter : enterStatement m p.1 p.2 s = enterStatement m' p.1 p.2 s := by
      simp only [enterStatement, ElisionState.step_withComments, hstep]
      rfl
    simp only [visitor, hplace, if_true, henter]
  · simp only [visitor, hplace, Bool.false_eq_true, if_false]

/-- `elide` is the same for maps that agree on `namedFlags`. -/
theorem Node.elide_congr {program : Node}
    (h : ∀ flag ∈ program.namedFlags, m.find? flag = m'.find? flag) (binding : Binding) :
    program.elide m binding = program.elide m' binding := by
  have hleave : (Elision.visitor m).leave = (Elision.visitor m').leave := rfl
  refine traverse_congr hleave program none (fun s => rfl) (fun n hn p hp s => ?_) _
  exact Elision.enter_congr s fun hplace pragma hpragma =>
    h pragma.flag (mem_namedFlags_of_pragma hn hp hplace hpragma)

end

/-! ## Queries -/

namespace FoldContext

/-- `enterQuery` is the same for contexts that agree on the flag of the query. -/
theorem enterQuery_congr {ctx ctx' : FoldContext} {arguments : List Node}
    (h : ∀ flag, arguments.head?.bind Node.literal? = some flag →
      ctx.features.find? flag = ctx'.features.find? flag ∧
        ctx.staticOnly.contains flag = ctx'.staticOnly.contains flag) (query : Query) (n : Node)
    (callee : Option Node) (optional : Bool) (s : Folding) :
    ctx.enterQuery query n callee arguments optional s =
      ctx'.enterQuery query n callee arguments optional s := by
  cases hflag : arguments.head?.bind Node.literal? with
  | none =>
    -- A call without a literal is left as it is.
    have hnone : ∀ ctx : FoldContext,
        ctx.foldRegistration? n.info callee arguments optional = none := by
      intro ctx
      rcases arguments with _ | ⟨first, _ | ⟨second, rest⟩⟩
      · rfl
      · rfl
      · have hliteral : first.literal? = none := hflag
        simp only [foldRegistration?, hliteral]
        rfl
    cases query <;> simp only [enterQuery, hflag, hnone]
  | some flag =>
    obtain ⟨hfeatures, hstatic⟩ := h flag hflag
    have hfold : ctx.foldRegistration? n.info callee arguments optional =
        ctx'.foldRegistration? n.info callee arguments optional := by
      rcases arguments with _ | ⟨first, _ | ⟨second, rest⟩⟩
      · rfl
      · rfl
      · have hliteral : first.literal? = some flag := hflag
        simp only [foldRegistration?, hliteral, Option.bind_eq_bind, Option.bind_some, hfeatures,
          hstatic]
    cases query <;> simp only [enterQuery, hflag, hfeatures, hfold]

/-- `enter` is the same for contexts that agree on the flag of `n`. -/
theorem enter_congr {ctx ctx' : FoldContext} (hbinding : ctx.binding = ctx'.binding) {n : Node}
    (h : ∀ flag, flag? n = some flag → ctx.features.find? flag = ctx'.features.find? flag ∧
      ctx.staticOnly.contains flag = ctx'.staticOnly.contains flag) (place : Option Place)
    (s : Folding) : ctx.visitor.enter place n s = ctx'.visitor.enter place n s := by
  cases place with
  | none => rfl
  | some place =>
    cases hshape : n.shape with
    | call callee arguments optional =>
      have hquery := enterQuery_congr fun flag (hflag : arguments.head?.bind Node.literal? = _) =>
        h flag (by rw [flag?, hshape]; exact hflag)
      simp only [visitor, hshape, hbinding, hquery]
    | _ => simp only [visitor, hshape]

/-- `foldQueries` is the same for contexts that agree on the flags of all calls. -/
theorem foldQueries_congr {ctx ctx' : FoldContext} (hbinding : ctx.binding = ctx'.binding)
    {program : Node} (h : ∀ n ∈ program.subnodes, ∀ flag, flag? n = some flag →
      ctx.features.find? flag = ctx'.features.find? flag ∧
        ctx.staticOnly.contains flag = ctx'.staticOnly.contains flag) (dynamic : List Text) :
    program.foldQueries ctx dynamic = program.foldQueries ctx' dynamic := by
  have hleave : ctx.visitor.leave = ctx'.visitor.leave := rfl
  refine Node.traverse_congr hleave program none (fun s => ?_) (fun n hn p hp s => ?_) _
  · exact enter_congr hbinding (h program (Node.mem_subnodes_self program)) none s
  · have hchild : p.2 ∈ n.children := Shape.mem_nodes_of_mem_places hp
    have hbelow := Node.mem_subnodes_of_mem_children hchild (Node.mem_subnodes_self p.2)
    exact enter_congr hbinding (h p.2 (Node.mem_subnodes_trans hn hbelow)) (some p.1) s

/-- `elided` keeps the flag that a node names. -/
theorem flag?_elided (m : FeatureMap) (n : Node) (cs : List Comment) :
    flag? (n.elided m cs) = flag? n := by
  have hliteral : ∀ (n : Node) cs, (n.elided m cs).literal? = n.literal? := by
    refine Node.view_elided Node.literal? none ?_ fun info info' shape => ?_
    · rintro info (_ | _) h <;> first | rfl | cases h
    · exact Node.literal?_map _ info info' shape
  refine Node.view_elided flag? none ?_ (fun info info' shape => ?_) n cs
  · rintro info (_ | _) h <;> first | rfl | cases h
  · exact flag?_map (fun c _ => hliteral c []) info info'

/-- Some call in `n` names `flag`. -/
def IsNamedIn (n : Node) (flag : Text) : Prop := ∃ k ∈ n.subnodes, flag? k = some flag

theorem IsNamedIn.of_children {n c : Node} {flag : Text} (hc : c ∈ n.children)
    (h : IsNamedIn c flag) : IsNamedIn n flag := by
  obtain ⟨k, hk, hflag⟩ := h
  exact ⟨k, Node.mem_subnodes_of_mem_children hc hk, hflag⟩

/-- A flag is named by `n` itself or below it. -/
theorem isNamedIn_cases {n : Node} {flag : Text} (h : IsNamedIn n flag) :
    flag? n = some flag ∨ ∃ c ∈ n.children, IsNamedIn c flag := by
  cases n with
  | mk info shape =>
    obtain ⟨k, hk, hflag⟩ := h
    rw [Node.subnodes, Node.preorder_mk, if_pos rfl, List.mem_cons] at hk
    rcases hk with rfl | hk
    · exact .inl hflag
    · obtain ⟨c, hc, hk⟩ := List.mem_flatMap.mp hk
      exact .inr ⟨c, hc, k, hk, hflag⟩

/-- What a call of the elided tree names, a call of `n` names; by induction on the tree. -/
theorem isNamedIn_of_elided {m : FeatureMap} {n : Node} {cs : List Comment} {flag : Text}
    (h : IsNamedIn (n.elided m cs) flag) : IsNamedIn n flag := by
  induction n using Node.induction generalizing cs with
  | mk info shape ih =>
    obtain hself | ⟨c, hc, hbelow⟩ := isNamedIn_cases h
    · rw [flag?_elided] at hself
      exact ⟨_, Node.mem_subnodes_self _, hself⟩
    · -- What stands for a child is a placeholder, which has no calls, or what is left of it.
      have hchildren : ∀ c ∈ ((Node.mk info shape).elided m cs).children,
          IsNamedIn c flag → IsNamedIn (.mk info shape) flag := by
        refine Node.forall_mem_children_elided (fun item hitem cs => ⟨fun hremoved => ?_,
          fun hleft => ?_⟩) cs
        · obtain hnone | ⟨c, hc, -⟩ := isNamedIn_cases hremoved
          · cases hnone
          · cases hc
        · exact (ih item hitem hleft).of_children hitem
      exact hchildren c hc hbelow

end FoldContext

/-! ## The module -/

section

variable {program : Node} {m m' : FeatureMap} {staticOnly staticOnly' : List Text}

/-- `foldModule` is the same for maps, and for flags to be left alone, that agree on
`namedFlags`. -/
theorem Node.foldModule_congr (h : ∀ flag ∈ program.namedFlags,
      m.find? flag = m'.find? flag ∧ staticOnly.contains flag = staticOnly'.contains flag)
    (path : Text) :
    program.foldModule m staticOnly path = program.foldModule m' staticOnly' path := by
  have hbind : program.bindModule m path = program.bindModule m' path := by
    unfold bindModule
    rw [elide_congr fun flag hflag => (h flag hflag).1]
  -- The second pass sees the program as it is, or what the first pass has left of it.
  have hnamed : (program.bindModule m' path).2.fault = none →
      ∀ n ∈ (program.bindModule m' path).1.subnodes, ∀ flag, FoldContext.flag? n = some flag →
        m.find? flag = m'.find? flag ∧ staticOnly.contains flag = staticOnly'.contains flag := by
    intro hfault n hn flag hflag
    have hleft : FoldContext.IsNamedIn (program.bindModule m' path).1 flag := ⟨n, hn, hflag⟩
    have hprogram : FoldContext.IsNamedIn program flag := by
      unfold bindModule at hleft hfault
      split at hleft
      case isTrue => exact hleft
      case isFalse hpath =>
        rw [if_neg hpath] at hfault
        rw [elide_eq_elided hfault] at hleft
        exact FoldContext.isNamedIn_of_elided hleft
    obtain ⟨k, hk, hkflag⟩ := hprogram
    exact h flag (mem_namedFlags_of_call hk hkflag)
  unfold foldModule
  rw [hbind]
  generalize program.bindModule m' path = bound at hnamed ⊢
  obtain ⟨left, elision⟩ := bound
  cases hfault : elision.fault with
  | some fault => simp [hfault]
  | none =>
    let ctx : FoldContext := ⟨m, staticOnly, elision.binding⟩
    let ctx' : FoldContext := ⟨m', staticOnly', elision.binding⟩
    have hbinding : ctx.binding = ctx'.binding := rfl
    have hfold : left.foldQueries ctx [] = left.foldQueries ctx' [] :=
      FoldContext.foldQueries_congr hbinding (hnamed hfault) []
    simp only [hfault]
    rw [hfold]

end

/-- Two feature maps `m` and `m'` of any JSON values, and two sets of flags to be left alone, that
agree on the `namedFlags` of a module: the one map has such a flag just if the other has, and with a
value of the same truth. Both come to the same tree with the same names bound, the same dynamic
flags and the same notes, or to the same fault; and `transform` comes to the same code and map, or
the same failure, and says the same. -/
theorem transform_unrelated {request : TransformRequest} {settings : Settings} {program : Node}
    {staticOnly staticOnly' : List Text} {m m' : Table Json} {s : Json}
    (hreads : request.Reads settings program staticOnly) (hm : request.features = .ofJson m)
    (hs : textSet s = .ok staticOnly')
    (hagree : ∀ flag ∈ program.namedFlags,
      (m.find? flag).map Json.isTruthy = (m'.find? flag).map Json.isTruthy ∧
        (flag ∈ staticOnly ↔ flag ∈ staticOnly')) :
    let other : TransformRequest := { request with features := .ofJson m', staticOnly := s }
    program.foldModule request.features staticOnly request.path =
      program.foldModule other.features staticOnly' other.path ∧
    ∀ report w, (transform request report).run settings w =
      (transform other report).run settings w := by
  intro other
  have hfold : program.foldModule request.features staticOnly request.path =
      program.foldModule other.features staticOnly' other.path := by
    rw [hm]
    refine Node.foldModule_congr (fun flag hflag => ?_) request.path
    obtain ⟨hvalue, hstatic⟩ := hagree flag hflag
    rw [FeatureMap.find?_ofJson, FeatureMap.find?_ofJson, hvalue, Bool.eq_iff_iff,
      List.contains_iff_mem, List.contains_iff_mem]
    exact ⟨rfl, hstatic⟩
  refine ⟨hfold, fun report w => ?_⟩
  obtain ⟨hset, language, hlanguage, hparse⟩ := hreads
  have hlanguage' : moduleLanguage other.path other.map = .ok language := hlanguage
  have hparse' : parseModule settings.trees other.source language.name other.path = .ok program :=
    hparse
  rw [transform, (Job.yields_lift id hset).run_bind, (Job.yields_lift id hlanguage).run_bind,
    Job.run_read_bind, transform, (Job.yields_lift id hs).run_bind,
    (Job.yields_lift id hlanguage').run_bind, Job.run_read_bind]
  dsimp only
  rw [(Job.yields_lift id hparse).run_bind, (Job.yields_lift id hparse').run_bind, hfold]
  simp only [Job.run_lift]
  rfl

set_option maxRecDepth 100000 in
/-- A flag that is known with another value of the same truth, beside one that the module does not
name and that is to be left alone. -/
theorem transform_unrelated_otherValue :
    let request : TransformRequest :=
      { source := text "'has(\"b\")';\nimport has from './has';\nhas('a');\n"
        features := .ofJson [(text "a", .int 3)] }
    let other : TransformRequest :=
      { request with
        features := .ofJson [(text "a", .str (text "no")), (text "z", .bool true)]
        staticOnly := .str (text "z") }
    ∃ program, request.Reads {} program [] ∧ program.namedFlags = [text "b", text "a"] ∧
      ∀ w, (transform request Job.write).run {} w = (transform other Job.write).run {} w := by
  intro request other
  obtain ⟨program, hreads, hflags⟩ := TransformRequest.exists_reads request.source request.features
    (P := fun program => program.namedFlags = [text "b", text "a"]) (by decide +kernel)
  have hagree : ∀ flag ∈ [text "b", text "a"],
      (Table.find? [(text "a", Json.int 3)] flag).map Json.isTruthy =
        (Table.find? [(text "a", .str (text "no")), (text "z", .bool true)] flag).map
          Json.isTruthy ∧
      (flag ∈ ([] : List Text) ↔ flag ∈ [text "z"]) := by decide +kernel
  obtain ⟨-, hrun⟩ := transform_unrelated (s := .str (text "z")) hreads rfl rfl
    fun flag hflag => hagree flag (hflags ▸ hflag)
  exact ⟨program, hreads, hflags, hrun Job.write⟩

end FlagFold
