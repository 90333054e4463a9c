/-
  FlagFold.Proofs.Fold.Statements

  Which statements of a program are left in its list after both passes: those that
  the rule for lists does not take out (`Node.survivors`), in their order, each of
  the kind and at the place it had.  This is said of the tree that is printed, and
  holds of the text where its top-level statements are read back as those of the tree;
  they are read otherwise where the semicolon of a pragma has parted statements.
-/

import FlagFold.Proofs.Fold.Bare
import FlagFold.Proofs.Fold.Outcome
import FlagFold.Proofs.Fold.Run

namespace FlagFold

namespace Node

/-- The statements of `program` that are printed, by kind and span. -/
def standing (program : Node) : List (Kind × Nat × Nat) :=
  (program.children.filter (!·.isPlaceholder)).map fun n => (n.kind, n.span)

/-- The statements of `program` that the rule for its list does not take out. -/
def ruledStatements (features : FeatureMap) (program : Node) : List Node :=
  (program.children.zipIdx.filter fun p =>
    !isTakenOut features .program program.children p.2).map (·.1)

/-- The statements of `program` that stay. In the feature-query module itself no pragma is looked
at. -/
def survivors (features : FeatureMap) (path : Text) (program : Node) : List Node :=
  if isQueryModulePath (some path) then program.children else program.ruledStatements features

/-! ## Pragmas -/

theorem kind_byListRule (features : FeatureMap) (n : Node) :
    (n.byListRule features).kind = n.kind := by
  cases n with
  | mk info shape =>
    rw [byListRule_mk]
    cases shape <;> rfl

theorem info_byListRule (features : FeatureMap) (n : Node) :
    (n.byListRule features).info = n.info := by
  cases n with
  | mk info shape => rw [byListRule_mk]; rfl

theorem kind_eraseComments (n : Node) : n.eraseComments.kind = n.kind := by
  cases n with
  | mk info shape => rw [eraseComments_mk, kind, shape_mk, Shape.kind_map]; rfl

theorem info_eraseComments (n : Node) : n.eraseComments.info = { n.info with comments := [] } := by
  cases n with
  | mk info shape => rw [eraseComments_mk]; rfl

/-- `standing` does not depend on comments. -/
theorem standing_eraseComments (program : Node) :
    program.eraseComments.standing = program.standing := by
  have hchildren : program.eraseComments.children = program.children.map eraseComments := by
    cases program with
    | mk info shape => rw [eraseComments_mk, children_mk, Shape.nodes_map]; rfl
  have hplaceholder : ∀ n : Node, n.eraseComments.isPlaceholder = n.isPlaceholder := by
    intro n
    simp only [isPlaceholder, kind_eraseComments, info_eraseComments]
  have hspan : ∀ n : Node, n.eraseComments.span = n.span := by
    intro n
    simp only [span, info_eraseComments]
  rw [standing, standing, hchildren, List.filter_map, List.map_map]
  simp only [Function.comp_def, hplaceholder, kind_eraseComments, hspan]

/-- `byListRule` leaves the `ruledStatements` standing. -/
theorem standing_byListRule {program : Node} (hroot : program.kind = .program)
    (huntouched : program.Untouched) (features : FeatureMap) :
    (program.byListRule features).standing =
      (program.ruledStatements features).map fun n => (n.kind, n.span) := by
  cases program with
  | mk info shape =>
    cases shape with
    | program body source =>
      have hbody : ((mk info (.program body source)).byListRule features).children =
          body.zipIdx.map fun p =>
            if isTakenOut features .program body p.2 then makeRemoved p.1
            else p.1.byListRule features := by
        rw [byListRule_mk]
        simp only [Shape.map, ruledShape, children_mk, Shape.nodes, ruledItems,
          List.mapIdx_eq_zipIdx_map, List.map_map, List.zipIdx_map]
        simp [Function.comp_def]
      -- In a tree as it comes from the parser nothing is a placeholder, so that the placeholders
      -- are the statements taken out.
      have hplaceholder : ∀ p ∈ body.zipIdx,
          (if isTakenOut features .program body p.2 then makeRemoved p.1
            else p.1.byListRule features).isPlaceholder =
          isTakenOut features .program body p.2 := by
        intro p hp
        have hsynthetic : p.1.info.synthetic = false :=
          (huntouched.of_mem_children (List.fst_mem_of_mem_zipIdx hp)).synthetic
        cases isTakenOut features .program body p.2 with
        | true => rfl
        | false => simp [isPlaceholder, info_byListRule, hsynthetic]
      have hfilter : body.zipIdx.filter ((fun n : Node => !n.isPlaceholder) ∘ fun p =>
            if isTakenOut features .program body p.2 then makeRemoved p.1
            else p.1.byListRule features) =
          body.zipIdx.filter fun p => !isTakenOut features .program body p.2 :=
        List.filter_congr fun p hp => congrArg (!·) (hplaceholder p hp)
      rw [standing, hbody, List.filter_map, hfilter, List.map_map, ruledStatements, List.map_map]
      refine List.map_congr_left fun p hp => ?_
      have hstays : isTakenOut features .program body p.2 = false := by
        simpa using (List.mem_filter.mp hp).2
      simp [hstays, kind_byListRule, span, info_byListRule]
    | _ => cases hroot

/-- `elided` leaves the `ruledStatements` standing. -/
theorem standing_elided {program : Node} (hroot : program.kind = .program)
    (huntouched : program.Untouched) (features : FeatureMap) :
    (program.elided features []).standing =
      (program.ruledStatements features).map fun n => (n.kind, n.span) := by
  rw [← standing_eraseComments, eraseComments_elided, standing_eraseComments,
    standing_byListRule hroot huntouched]

/-! ## Queries -/

/-- If no statement is a call, `foldQueries` leaves all of them standing. -/
theorem standing_foldQueries {program : Node} (hcalls : ∀ n ∈ program.children, n.kind ≠ .call)
    (ctx : FoldContext) (dynamic : List Text) :
    (program.foldQueries ctx dynamic).1.standing = program.standing := by
  have hkind : ∀ n ∈ program.children, (n.rebuild ctx.entry).kind = n.kind := by
    intro n hn
    have hcall := hcalls n hn
    cases n with
    | mk info shape =>
      rw [FoldContext.rebuild_of_not_call ctx hcall, kind, shape_mk, Shape.kind_map]
      rfl
  have hchildren : (program.foldQueries ctx dynamic).1.children =
      program.children.map (·.rebuild ctx.entry) := by
    rw [foldQueries_fst, children_mk, Shape.nodes_map]
    rfl
  rw [standing, hchildren, List.filter_map, List.map_map]
  simp only [Function.comp_def, FoldContext.isPlaceholder_rebuild, FoldContext.span_rebuild]
  refine List.map_congr_left fun n hn => ?_
  rw [hkind n (List.mem_filter.mp hn).1]

/-! ## Both passes -/

/-- `bindModule` leaves the `survivors` standing, and none of them is a call. -/
theorem standing_bindModule {program : Node} (h : program.Delivered)
    (hcalls : ∀ n ∈ program.children, n.kind ≠ .call) (features : FeatureMap) (path : Text) :
    (program.bindModule features path).1.standing =
        (program.survivors features path).map (fun n => (n.kind, n.span)) ∧
      ∀ n ∈ (program.bindModule features path).1.children, n.kind ≠ .call := by
  unfold bindModule survivors
  split
  case isTrue =>
    refine ⟨?_, hcalls⟩
    rw [standing, List.filter_eq_self.mpr fun n hn => ?_]
    simp [isPlaceholder, (h.untouched.of_mem_children hn).synthetic]
  case isFalse =>
    rw [elide_eq_elided (elide_fault_of_wellTyped h.wellTyped features {})]
    refine ⟨standing_elided h.root h.untouched features, fun n hn => ?_⟩
    obtain ⟨item, hitem, hstands⟩ :=
      exists_of_mem_children_elided features h.untouched (S := fun _ => True) (by simp) [] n hn
    rcases hstands with ⟨-, -, cs, rfl⟩ | ⟨cs, rfl, -⟩
    · exact fun hcall => by cases hcall
    · rw [kind_elided]
      exact hcalls item hitem

/-- `foldModule` of a delivered program leaves the `survivors` standing, each of the kind and at the
place it had. -/
theorem standing_foldModule {program : Node} (h : program.Delivered)
    (hcalls : ∀ n ∈ program.children, n.kind ≠ .call) (features : FeatureMap)
    (staticOnly : List Text) (path : Text) :
    (program.foldModule features staticOnly path).program.standing =
      (program.survivors features path).map fun n => (n.kind, n.span) := by
  obtain ⟨hstanding, hcalls'⟩ := standing_bindModule h hcalls features path
  rw [← hstanding]
  unfold foldModule
  generalize program.bindModule features path = bound at hcalls'
  obtain ⟨left, elision⟩ := bound
  simp only at hcalls' ⊢
  split
  · rfl
  · split
    · exact standing_foldQueries hcalls' _ _
    · rfl

/-- If `statements` say what the statements of `program` say that are no placeholders, they are of
the same kinds. -/
theorem kinds_of_bare {program : Node} {statements : List Node}
    (h : statements.map bare = (program.children.filter (!·.isPlaceholder)).map bare) :
    statements.map kind = program.standing.map (·.1) := by
  have hkinds : ∀ ns : List Node, (ns.map bare).map kind = ns.map kind := by
    intro ns
    rw [List.map_map]
    exact List.map_congr_left fun n _ => kind_bare n
  calc statements.map kind
      = ((program.children.filter (!·.isPlaceholder)).map bare).map kind := by rw [← h, hkinds]
    _ = program.standing.map (·.1) := by
      rw [hkinds, standing, List.map_map]
      rfl

end Node

/-! ## The output -/

/-- The code is that of the tree `left` printed, in which just the `survivors` of `program` stand,
in order, each of the kind and at the place it has in the source. Read again, the code holds
statements of these kinds if its top-level statements say what those of `left` say, wherever they
are found. -/
theorem transform_standing {request : TransformRequest} {settings : Settings} {program : Node}
    {staticOnly : List Text} (h : request.Reads settings program staticOnly)
    (hdelivered : program.Delivered) (hcalls : ∀ n ∈ program.children, n.kind ≠ .call)
    {w : World} {result : Transformed}
    (hresult : ((transform request Job.write).run settings w).1 = .ok result) :
    let left := (program.foldModule request.features staticOnly request.path).program
    let stay := program.survivors request.features request.path
    left.print = .ok result.code ∧ left.standing = stay.map (fun n => (n.kind, n.span)) ∧
      ∀ again, (request.again result.code).Reads settings again staticOnly →
        again.children.map Node.bare =
          (left.children.filter (!·.isPlaceholder)).map Node.bare →
        again.children.map Node.kind = stay.map Node.kind := by
  intro left stay
  have hfault := Node.fault_foldModule hdelivered request.features staticOnly request.path
  have hstanding : left.standing = stay.map fun n => (n.kind, n.span) :=
    Node.standing_foldModule hdelivered hcalls request.features staticOnly request.path
  obtain ⟨hprinted, -⟩ := printChained_of_run_transform h hresult hfault
  refine ⟨Node.print_of_printChained hprinted, hstanding, fun again _ hsaid => ?_⟩
  rw [Node.kinds_of_bare hsaid, hstanding, List.map_map]
  rfl

/-- What is said by a name and by another one in parentheses. -/
def twoStatements : List Node :=
  let name (t : String) : Node := .mk {} (.identifier (text t))
  [.mk {} (.expressionStatement (some (name "a"))),
    .mk {} (.expressionStatement (some
      (.mk {} (.generic "parenthesized_expression" [name "b"]))))]

set_option maxRecDepth 100000 in
/-- A pragma between two statements, the first of which ends in a semicolon. -/
theorem transform_standing_apart :
    let request : TransformRequest := { source := text "a;\n'has(\"x\")';\n(b)\n" }
    let code := text "a;\n// has('x')\n(b)\n"
    ∃ program again, request.Reads {} program [] ∧ program.Delivered ∧
      (∀ n ∈ program.children, n.kind ≠ .call) ∧
      ((transform request Job.write).run {} {}).1 = .ok ⟨code, none, []⟩ ∧
      (request.again code).Reads {} again [] ∧
      let left := (program.foldModule [] [] []).program
      again.children.map Node.bare =
          (left.children.filter (!·.isPlaceholder)).map Node.bare ∧
        left.print = .ok code ∧
        left.standing = [(.expressionStatement, 0, 2), (.expressionStatement, 15, 18)] ∧
        again.children.map Node.kind = [.expressionStatement, .expressionStatement] := by
  intro request code
  obtain ⟨program, hreads, hdelivered, hcalls, hfolds, hsurvivors, hsaid⟩ :=
    TransformRequest.exists_reads request.source []
      (P := fun program => program.Delivered ∧ (∀ n ∈ program.children, n.kind ≠ .call) ∧
        program.FoldsWith [] [⟨3, 15, [], false⟩, ⟨15, 15, text "// has('x')\n", false⟩] [] ∧
        (program.survivors [] []).map (fun n => (n.kind, n.span)) =
          [(.expressionStatement, 0, 2), (.expressionStatement, 15, 18)] ∧
        ((program.foldModule [] [] []).program.children.filter (!·.isPlaceholder)).map Node.bare =
          twoStatements)
      (by decide +kernel)
  obtain ⟨again, hreads', hsaid'⟩ :=
    TransformRequest.exists_reads code []
      (P := fun again => again.children.map Node.bare = twoStatements) (by decide +kernel)
  have hrun : ((transform request Job.write).run {} {}).1 = .ok ⟨code, none, []⟩ :=
    run_transform_of_edits hreads hfolds (by decide) (by decide) (by decide +kernel) {}
  obtain ⟨hprint, hstanding, hread⟩ := transform_standing hreads hdelivered hcalls hrun
  have hbare := hsaid'.trans hsaid.symm
  have hkinds : (program.survivors [] []).map Node.kind =
      [.expressionStatement, .expressionStatement] := by
    have h := congrArg (List.map (·.1)) hsurvivors
    rwa [List.map_map] at h
  exact ⟨program, again, hreads, hdelivered, hcalls, hrun, hreads', hbare, hprint,
    hstanding.trans hsurvivors, (hread again hreads' hbare).trans hkinds⟩

set_option maxRecDepth 100000 in
/-- Without that semicolon the one of the pragma parts the statements. It is cut out with the
pragma, and in the output the two are one call. -/
theorem transform_standing_joined :
    let request : TransformRequest := { source := text "a\n'has(\"x\")';\n(b)\n" }
    let code := text "a\n// has('x')\n(b)\n"
    ∃ program again, request.Reads {} program [] ∧
      (program.survivors [] []).map Node.kind = [.expressionStatement, .expressionStatement] ∧
      (∀ w, ((transform request Job.write).run {} w).1 = .ok ⟨code, none, []⟩) ∧
      ({ source := code } : TransformRequest).Reads {} again [] ∧
      again.children.map Node.kind = [.expressionStatement] := by
  intro request code
  obtain ⟨program, hreads, hfolds, hsurvivors⟩ :=
    TransformRequest.exists_reads request.source []
      (P := fun program =>
        program.FoldsWith [] [⟨2, 14, [], false⟩, ⟨14, 14, text "// has('x')\n", false⟩] [] ∧
        (program.survivors [] []).map Node.kind = [.expressionStatement, .expressionStatement])
      (by decide +kernel)
  obtain ⟨again, hagain, hkinds⟩ :=
    TransformRequest.exists_reads code []
      (P := fun again => again.children.map Node.kind = [.expressionStatement])
      (by decide +kernel)
  have hrun := run_transform_of_edits hreads hfolds (by decide) (by decide)
    (by decide +kernel : request.source.replaceFrom request.source.length 0 _ = code)
  exact ⟨program, again, hreads, hsurvivors, hrun, hagain, hkinds⟩

end FlagFold
