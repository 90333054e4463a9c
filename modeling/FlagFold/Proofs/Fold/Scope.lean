/-
  FlagFold.Proofs.Fold.Scope

  Which calls the folding of queries takes for queries.  It goes by the spelling of
  the callee alone: what becomes of a call depends on the call and not on where it
  stands (`Node.foldQueries_spelled`), so that a function which declares the bound
  name anew makes no difference to the calls in it (`transform_redeclared`).
-/

import FlagFold.Proofs.Fold.Dynamic
import FlagFold.Proofs.Fold.Names
import FlagFold.Proofs.Fold.Run
import FlagFold.Proofs.Tree.Occurrences

namespace FlagFold

/-! ## Declarations -/

/-- The kinds of functions with a body. -/
def Kind.isFunction : Kind → Bool
  | generic name => ["function_declaration", "function_expression", "arrow_function",
      "method_definition", "generator_function", "generator_function_declaration"].contains name
  | _ => false

namespace Node

/-- `n` stands before the pattern of a parameter. -/
def isModifier (n : Node) : Bool :=
  n.kind = .generic "decorator" || n.kind = .generic "accessibility_modifier" ||
    n.kind = .generic "override_modifier"

/-- The names that a pattern declares, or a list of parameters. -/
def patternNames (source : Text) : Node → List Text :=
  foldUp fun info shape =>
    match shape with
    | .identifier name => [name]
    | .generic kind children =>
      match kind with
      | "shorthand_property_identifier_pattern" => [source.slice info.start info.stop]
      | "formal_parameters" | "array_pattern" | "object_pattern" | "rest_pattern" =>
        children.flatMap (·.2)
      -- A value by default declares nothing, and neither does a key.
      | "assignment_pattern" | "object_assignment_pattern" | "required_parameter"
      | "optional_parameter" => ((children.find? (!·.1.isModifier)).map (·.2)).getD []
      | "pair_pattern" => (children.getLast?.map (·.2)).getD []
      | _ => []
    | _ => []

/-- The names that `stmt` declares as variables. -/
def variableNames (source : Text) (stmt : Node) : List Text :=
  match stmt.shape with
  | .variableDeclaration _ ds => ds.flatMap fun d =>
    match d.shape with
    | .variableDeclarator (some target) _ => target.patternNames source
    | _ => []
  | _ => []

/-- The names of the formal parameters of `f`; that of `x => …` has no list around it. -/
def parameterNames (source : Text) (f : Node) : List Text :=
  let lists := f.children.filter (·.kind = .generic "formal_parameters")
  let single := if f.kind = .generic "arrow_function" then f.children.head?.bind name? else none
  single.toList ++ lists.flatMap (·.patternNames source)

/-- The names that the block of `f` declares as variables itself. -/
def bodyNames (source : Text) (f : Node) : List Text :=
  let blocks := f.children.filter (·.kind = .generic "statement_block")
  blocks.flatMap fun block => block.children.flatMap (·.variableNames source)

/-- `f` is a function that declares `name` as a parameter or in its block. -/
def declares (source : Text) (f : Node) (name : Text) : Bool :=
  f.kind.isFunction && (f.parameterNames source ++ f.bodyNames source).contains name

/-- The name that a call spells: that of its callee, or of the object of which that is a member. -/
def calledName? (n : Node) : Option Text :=
  match n.shape with
  | .call (some callee) _ _ =>
    match callee.shape with
    | .identifier name => some name
    | .member (some object) _ _ => object.name?
    | _ => none
  | _ => none

end Node

/-- The names that `b` binds. -/
def Binding.names (b : Binding) : List Text := [b.name, b.existsName, b.addName].filterMap id

/-- `o` is a call that spells a name of `b` which a function around it declares anew. -/
def Occurrence.isRedeclared (b : Binding) (source : Text) (o : Occurrence) : Bool :=
  o.node.calledName?.any fun name =>
    b.names.contains name && o.above.any (·.declares source name)

/-! ## Spelling -/

namespace FoldContext

variable {ctx : FoldContext}

theorem exists_of_isNamed {n : Node} {name : Option Text} (h : n.isNamed name) :
    ∃ t, name = some t ∧ n.shape = .identifier t := by
  unfold Node.isNamed at h
  split at h
  case h_1 own hshape => exact ⟨own, by simpa [eq_comm] using h, hshape⟩
  case h_2 => cases h

/-- A query spells a bound name. -/
theorem calledName?_of_asks {n : Node} {query : Query} (h : ctx.asks n = some query) :
    ∃ name ∈ ctx.binding.names, n.calledName? = some name := by
  obtain ⟨callee, arguments, optional, hshape, hquery⟩ := asks_call h
  -- The callee is a bound name or a member of the name of the module.
  have hnamed : ∀ bound, callee.isNamed bound →
      bound ∈ [ctx.binding.name, ctx.binding.existsName, ctx.binding.addName] →
      ∃ name ∈ ctx.binding.names, n.calledName? = some name := by
    intro bound hcallee hbound
    obtain ⟨t, rfl, hname⟩ := exists_of_isNamed hcallee
    refine ⟨t, List.mem_filterMap.mpr ⟨_, hbound, rfl⟩, ?_⟩
    simp only [Node.calledName?, hshape, hname]
  have hmember : ∀ property, callee.isMember ctx.binding.name property →
      ∃ name ∈ ctx.binding.names, n.calledName? = some name := by
    intro property hcallee
    unfold Node.isMember at hcallee
    split at hcallee
    case h_1 object p isOptional hcallee' =>
      rw [Bool.and_eq_true] at hcallee
      obtain ⟨t, hbound, hobject⟩ := exists_of_isNamed hcallee.1
      refine ⟨t, List.mem_filterMap.mpr ⟨_, List.mem_cons_self, hbound⟩, ?_⟩
      simp only [Node.calledName?, hshape, hcallee', Node.name?, hobject]
    case h_2 => cases hcallee
  unfold Binding.query? at hquery
  split at hquery
  · split at hquery
    case isTrue hvalue =>
      rw [Bool.or_eq_true, Bool.and_eq_true] at hvalue
      exact hvalue.elim (fun h => hnamed _ h.2 (by simp)) (hmember _)
    case isFalse =>
      rw [Option.ite_none_right_eq_some, Bool.or_eq_true] at hquery
      exact hquery.1.elim (fun h => hnamed _ h (by simp)) (hmember _)
  · rw [Option.ite_none_right_eq_some, Option.ite_none_right_eq_some] at hquery
    obtain ⟨-, hadd, -⟩ := hquery
    rw [Bool.or_eq_true] at hadd
    exact hadd.elim (fun h => hnamed _ h (by simp)) (hmember _)

/-! ## What the pass looks at -/

end FoldContext

/-- How the pass comes to a node. -/
inductive Reach where
  /-- It looks at the node. -/
  | visited
  /-- The node is in a query without an answer, which is left as it is. -/
  | leftOut
  /-- The node is in a query that is answered. -/
  | answered
  deriving DecidableEq

namespace FoldContext

variable (ctx : FoldContext)

/-- How the pass comes to a node, given the nodes above it from the root on. -/
def reach : List Node → Reach
  | [] => .visited
  | n :: rest =>
    if ctx.goesInto n then reach rest
    else if (ctx.answer? n).isSome then .answered
    else .leftOut

theorem reach_eq_visited (above : List Node) :
    ctx.reach above = .visited ↔ above.all ctx.goesInto := by
  induction above with
  | nil => simp [reach]
  | cons n rest ih =>
    rw [reach, List.all_cons, Bool.and_eq_true]
    split
    case isTrue hgoes => rw [ih]; exact ⟨fun h => ⟨hgoes, h⟩, And.right⟩
    case isFalse hgoes =>
      refine ⟨fun h => ?_, fun h => absurd h.1 hgoes⟩
      split at h <;> cases h

/-- In the rebuilt tree, a node that is `visited` is rebuilt, and one that is `leftOut` stays; by
induction on the tree. -/
theorem at?_rebuild {n : Node} {o : Occurrence} (ho : o ∈ n.occurrences) :
    (ctx.reach o.above = .visited →
      (n.rebuild ctx.entry).at? o.path = some (o.node.rebuild ctx.entry)) ∧
    (ctx.reach o.above = .leftOut → (n.rebuild ctx.entry).at? o.path = some o.node) := by
  induction n using Node.induction generalizing o with
  | mk info shape ih =>
    have hpath := Node.at?_path ho
    rw [Node.occurrences_mk, List.mem_cons] at ho
    rcases ho with rfl | ho
    · exact ⟨fun _ => rfl, fun h => by cases h⟩
    obtain ⟨p, hp, ho⟩ := List.mem_flatMap.mp ho
    obtain ⟨inner, hinner, rfl⟩ := List.mem_map.mp ho
    have hmem := Shape.mem_nodes_of_mem_places hp
    obtain ⟨hvisited, hleft⟩ := ih p.2 hmem hinner
    simp only [Occurrence.below, reach] at hpath ⊢
    rcases ctx.entry_cases (.mk info shape) with
      ⟨query, value, -, hanswer, hgoes, -⟩ | ⟨hanswer, hgoes, hentry⟩ | ⟨-, hgoes, hentry, -⟩
    · rw [hgoes, hanswer]
      simp
    · rw [hgoes, hanswer, Node.rebuild_mk, hentry]
      exact ⟨fun h => (by cases h), fun _ => hpath⟩
    · rw [if_pos hgoes, Node.rebuild_mk, hentry]
      simp only [Node.at?, Node.shape_mk, Shape.at?_map, Shape.at?_step hp, Option.map_some,
        Option.bind_some]
      exact ⟨hvisited, hleft⟩

/-- `rebuild` of a node is its answer, if it has one; otherwise it keeps its place and its shape. -/
theorem rebuild_eq (n : Node) :
    (∀ value, ctx.answer? n = some value →
      ∃ query, ctx.asks n = some query ∧ n.rebuild ctx.entry = answered n query value) ∧
    (ctx.answer? n = none →
      ∃ f : Node → Node, n.rebuild ctx.entry = .mk n.info (n.shape.map f)) := by
  cases n with
  | mk info shape =>
    rw [Node.rebuild_mk]
    rcases ctx.entry_cases (.mk info shape) with
      ⟨query, value, hasks, hanswer, -, hentry⟩ | ⟨hanswer, -, hentry⟩ | ⟨hanswer, -, hentry, -⟩
    · rw [hanswer, hentry]
      refine ⟨?_, fun h => by cases h⟩
      rintro _ ⟨⟩
      exact ⟨query, hasks, rfl⟩
    · rw [hanswer, hentry]
      refine ⟨fun _ h => (by cases h), fun _ => ⟨fun n => n, ?_⟩⟩
      rw [Node.shape_mk, Shape.map_id', Node.info_mk]
    · rw [hanswer, hentry]
      exact ⟨fun _ h => (by cases h), fun _ => ⟨_, rfl⟩⟩

end FoldContext

/-- `foldQueries` goes by the spelling of callees. Of the nodes that it visits, those are replaced
that are queries with an answer, and any other keeps its place and its form; the flags reported are
those of the queries for an unknown flag, in order. All of these spell a bound name. What is
declared around a call makes no difference: wherever the same call stands, in this program or in
another, the same becomes of it. -/
theorem Node.foldQueries_spelled {program : Node} (hroot : program.kind = .program)
    (ctx : FoldContext) (dynamic : List Text) :
    let folded := program.foldQueries ctx dynamic
    let visited := program.occurrences.filter fun o => ctx.reach o.above = .visited
    (∀ o ∈ visited, ∃ m, folded.1.at? o.path = some m ∧
      (∀ value, ctx.answer? o.node = some value →
        ∃ query, ctx.asks o.node = some query ∧ m = FoldContext.answered o.node query value) ∧
      (ctx.answer? o.node = none →
        ∃ f : Node → Node, m = .mk o.node.info (o.node.shape.map f))) ∧
    (∀ o ∈ program.occurrences, ctx.reach o.above = .leftOut →
      folded.1.at? o.path = some o.node) ∧
    folded.2.dynamic =
      (visited.filterMap fun o => ctx.unknown? o.node).foldl Folding.addDynamic dynamic ∧
    (∀ o ∈ program.occurrences, (ctx.answer? o.node).isSome ∨ (ctx.unknown? o.node).isSome →
      ∃ name ∈ ctx.binding.names, o.node.calledName? = some name) ∧
    ∀ (other : Node) (dynamic' : List Text), other.kind = .program →
      ∀ o ∈ visited, ∀ o' ∈ other.occurrences, ctx.reach o'.above = .visited →
        o'.node = o.node →
        (other.foldQueries ctx dynamic').1.at? o'.path = folded.1.at? o.path := by
  intro folded visited
  have hfolded : ∀ {root : Node} (found : List Text), root.kind = .program →
      (root.foldQueries ctx found).1 = root.rebuild ctx.entry := by
    intro root found hkind
    rw [foldQueries_fst]
    cases root with
    | mk info shape => rw [ctx.rebuild_of_not_call (by simp [hkind])]; rfl
  have hat : ∀ o ∈ visited, folded.1.at? o.path = some (o.node.rebuild ctx.entry) := by
    intro o ho
    obtain ⟨ho, hreach⟩ := List.mem_filter.mp ho
    rw [hfolded dynamic hroot]
    exact (ctx.at?_rebuild ho).1 (by simpa using hreach)
  refine ⟨fun o ho => ⟨_, hat o ho, ctx.rebuild_eq o.node⟩, fun o ho hreach => ?_, ?_, ?_, ?_⟩
  · rw [hfolded dynamic hroot]
    exact (ctx.at?_rebuild ho).2 hreach
  · have hvisited : visited.map (·.node) = program.preorder ctx.goesInto := by
      rw [← map_node_filter_occurrences]
      congr 1
      exact List.filter_congr fun o _ => Bool.decide_congr (ctx.reach_eq_visited o.above) |>.trans
        (Bool.decide_coe _)
    rw [dynamic_foldQueries hroot, FoldContext.unknowns, ← hvisited, List.filterMap_map]
    rfl
  · intro o ho hquery
    -- Without a query there is neither an answer nor a flag to be reported.
    have hasks : ∃ query, ctx.asks o.node = some query := by
      rw [← Option.isSome_iff_exists, Option.isSome_iff_ne_none]
      intro hnone
      have hanswer : ctx.answer? o.node = none := by simp [FoldContext.answer?, hnone]
      rw [hanswer, FoldContext.unknown?_of_asks_eq_none hnone] at hquery
      simp at hquery
    obtain ⟨query, hasks⟩ := hasks
    exact FoldContext.calledName?_of_asks hasks
  · intro other dynamic' hkind o ho o' ho' hreach hsame
    rw [hat o ho, hfolded dynamic' hkind, (ctx.at?_rebuild ho').1 hreach, hsame]

/-- A call of a parameter named like the module, in a function behind the import of the module. -/
def parameterCall : Node :=
  let name : Node := .mk {} (.identifier (text "has"))
  let call : Node := .mk {} (.call (some name) [.mk {} (.string (text "x") [])] false)
  .mk {} (.program [
    .mk {} (.importDeclaration [.mk {} (.importDefault (some name))]
      (some (.mk {} (.string (text "a/has") [])))),
    .mk {} (.generic "function_declaration" [.mk {} (.identifier (text "f")),
      .mk {} (.generic "formal_parameters" [name]),
      .mk {} (.generic "statement_block" [.mk {} (.expressionStatement (some call))])])] [])

/-- In `parameterCall` the call spells the bound name and is answered. -/
theorem Node.foldQueries_spelled_parameterCall :
    let ctx : FoldContext := ⟨[(text "x", true)], [], { name := some (text "has") }⟩
    parameterCall.kind = .program ∧
    ∃ o ∈ parameterCall.occurrences, o.isRedeclared ctx.binding parameterCall.source ∧
      (parameterCall.foldQueries ctx []).1.at? o.path = some (makeBoolean true o.node) := by
  intro ctx
  have hroot : parameterCall.kind = .program := rfl
  obtain ⟨hvisited, -⟩ := Node.foldQueries_spelled hroot ctx []
  have hcall : ∃ o ∈ parameterCall.occurrences.filter fun o => ctx.reach o.above = .visited,
      o.isRedeclared ctx.binding parameterCall.source ∧ ctx.asks o.node = some .value ∧
        ctx.answer? o.node = some true := by decide +kernel
  obtain ⟨o, ho, hredeclared, hasks, hanswer⟩ := hcall
  obtain ⟨m, hm, hanswered, -⟩ := hvisited o ho
  obtain ⟨query, hquery, rfl⟩ := hanswered true hanswer
  obtain rfl : query = .value := Option.some.inj (hquery.symm.trans hasks)
  exact ⟨hroot, o, List.mem_of_mem_filter ho, hredeclared, hm⟩

set_option maxRecDepth 100000 in
/-- A call of a parameter that is named like the import of the feature-query module is taken for a
query: it is answered where the flag is known, and else reported. -/
theorem transform_redeclared :
    let source := text "import has from 'a/has';\nfunction f(has) \x7b return has('x'); \x7d\n"
    let known := [(text "x", true)]
    (∃ program, ({ source, features := known } : TransformRequest).Reads {} program [] ∧
      ∃ o ∈ program.occurrences,
        o.isRedeclared (program.foldModule known [] []).binding program.source ∧
        ((program.foldModule known [] []).program.at? o.path).any (·.kind = .boolean)) ∧
    (∀ w, ((transform { source, features := known } Job.write).run {} w).1 =
      .ok ⟨text "import has from 'a/has';\nfunction f(has) \x7b return true; \x7d\n", none, []⟩) ∧
    ∀ w, ((transform { source } Job.write).run {} w).1 = .ok ⟨source, none, [text "x"]⟩ := by
  intro source known
  obtain ⟨program, hreads, hredeclared, hknown, hunknown⟩ :=
    TransformRequest.exists_reads source known
      (P := fun program => (∃ o ∈ program.occurrences,
          o.isRedeclared (program.foldModule known [] []).binding program.source ∧
          ((program.foldModule known [] []).program.at? o.path).any (·.kind = .boolean)) ∧
        program.FoldsWith known [⟨50, 58, text "true", false⟩] [] ∧
        program.FoldsWith [] [] [text "x"])
      (by decide +kernel)
  refine ⟨⟨program, hreads, hredeclared⟩, ?_, ?_⟩
  · exact run_transform_of_edits hreads hknown (by decide) (by decide) (by decide +kernel)
  · have hreads' : ({ source } : TransformRequest).Reads {} program [] :=
      ⟨hreads.staticOnly, hreads.program⟩
    exact run_transform_of_edits hreads' hunknown (by simp) .nil (by decide +kernel)

end FlagFold
