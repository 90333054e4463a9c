/-
  FlagFold.Proofs.Fold.ListRule

  Elision is a rule for each statement list alone: pragmas go, and so does a
  statement that loads a module right behind a pragma of the same list that holds.
  The pass reads all lists of a tree with one machine in one traversal; that it
  nevertheless keeps to the rule is `Node.elide_eq_byListRule`.
-/

import FlagFold.Proofs.Fold.Typed

namespace FlagFold

/-! ## The rule -/

/-- The list of a node of this kind has a statement at `index`. The first child of a `switch_case`
is its value. -/
def Kind.hasStatementAt : Kind → Nat → Bool
  | program, _ => true
  | generic name, index =>
    name = "statement_block" || name = "switch_default" || name = "switch_case" && 0 < index
  | _, _ => false

/-- `n` is a pragma that evaluates to true under `features`. -/
def Node.opensElision (features : FeatureMap) (n : Node) : Bool :=
  n.pragma?.any fun p => p.evaluate? features = some true

/-- `n` may be elided behind a pragma, as it loads a module and does nothing else. -/
def Node.loadsModule (n : Node) : Bool :=
  match n.elidableModule with
  | .ok (some _) => true
  | _ => false

/-- The item at `index` comes right behind a statement of its list that `opensElision`. -/
def isGuarded (features : FeatureMap) (parent : Kind) (items : List Node) : Nat → Bool
  | 0 => false
  | index + 1 => parent.hasStatementAt index && items[index]?.any (·.opensElision features)

/-- The item at `index` has to be taken out: it is a pragma, or it loads a module and is guarded. -/
def isTakenOut (features : FeatureMap) (parent : Kind) (items : List Node) (index : Nat) : Bool :=
  parent.hasStatementAt index && items[index]?.any fun stmt =>
    stmt.pragma?.isSome || stmt.loadsModule && isGuarded features parent items index

/-- A list with placeholders for what has to be taken out of it. Each item comes with what stays of
it otherwise. -/
def ruledItems (features : FeatureMap) (parent : Kind) (items : List (Node × Node)) : List Node :=
  items.mapIdx fun index item =>
    if isTakenOut features parent (items.map (·.1)) index then .makeRemoved item.1 else item.2

/-- The item of `ruledItems` at `index`. -/
theorem getElem?_ruledItems (features : FeatureMap) (parent : Kind) (items : List Node)
    (ruled : Node → Node) (index : Nat) :
    (ruledItems features parent (items.map fun n => (n, ruled n)))[index]? =
      items[index]?.map fun item =>
        if isTakenOut features parent items index then .makeRemoved item else ruled item := by
  have hitems : (fun p : Node × Node => p.1) ∘ (fun n => (n, ruled n)) = fun n => n := rfl
  rw [ruledItems, List.getElem?_mapIdx, List.getElem?_map, Option.map_map, List.map_map, hitems,
    List.map_id']
  rfl

/-- A shape with the rule kept in its list. -/
def ruledShape (features : FeatureMap) : Shape (Node × Node) → Shape Node
  | .program body source => .program (ruledItems features .program body) source
  | .generic kind children => .generic kind (ruledItems features (.generic kind) children)
  | shape => shape.map (·.2)

/-- A tree with the rule kept in all of its lists, but for those below a statement that is taken
out. -/
def Node.byListRule (features : FeatureMap) : Node → Node :=
  Node.foldUp fun info shape => .mk info (ruledShape features shape)

/-- A tree without its comments. -/
def Node.eraseComments : Node → Node :=
  Node.foldUp fun info shape => .mk { info with comments := [] } (shape.map (·.2))

theorem Node.eraseComments_mk (info : Info) (shape : Shape Node) :
    (Node.mk info shape).eraseComments =
      .mk { info with comments := [] } (shape.map (·.eraseComments)) := by
  rw [eraseComments, Node.foldUp_mk, Shape.map_map]
  rfl

@[simp] theorem Node.eraseComments_withComments (n : Node) (cs : List Comment) :
    (n.withComments cs).eraseComments = n.eraseComments := by
  cases n with
  | mk info shape => rw [withComments, eraseComments_mk, info_mk, shape_mk, eraseComments_mk]

theorem Node.byListRule_mk (features : FeatureMap) (info : Info) (shape : Shape Node) :
    (Node.mk info shape).byListRule features =
      .mk info (ruledShape features (shape.map fun n => (n, n.byListRule features))) := by
  rw [byListRule, Node.foldUp_mk]

theorem ruledShape_of_no_list (features : FeatureMap) {shape : Shape (Node × Node)}
    (hprogram : shape.kind ≠ .program) (hgeneric : ∀ name, shape.kind ≠ .generic name) :
    ruledShape features shape = shape.map (·.2) := by
  cases shape <;> first | rfl | simp_all [Shape.kind]

/-- `byListRule` of a node that holds no list only changes what is below it. -/
theorem Node.byListRule_of_no_list (features : FeatureMap) {info : Info} {shape : Shape Node}
    (hprogram : shape.kind ≠ .program) (hgeneric : ∀ name, shape.kind ≠ .generic name) :
    (Node.mk info shape).byListRule features = .mk info (shape.map (·.byListRule features)) := by
  rw [byListRule_mk, ruledShape_of_no_list features (by rwa [Shape.kind_map])
    (by rwa [Shape.kind_map]), Shape.map_map]
  rfl

/-! ## One step of the machine -/

/-- The machine is `pending` behind a statement that `opensElision`, and behind nothing else. -/
theorem ElisionState.step_snd (features : FeatureMap) (state : ElisionState) (stmt : Node) :
    (state.step features stmt).2 = if stmt.opensElision features then .pending else .idle := by
  unfold step Node.opensElision
  cases stmt.pragma? with
  | none => cases state <;> rfl
  | some p =>
    cases hvalue : p.evaluate? features with
    | none => simp [hvalue]
    | some value => cases value <;> simp [hvalue]

/-- The machine takes out pragmas, and what loads a module where it is `pending`. -/
theorem ElisionState.step_fst (features : FeatureMap) (state : ElisionState) (stmt : Node) :
    (∃ v, (state.step features stmt).1 = .ok (some v)) ↔
      (stmt.pragma?.isSome || stmt.loadsModule && (state = .pending : Bool)) := by
  unfold step Node.loadsModule
  cases stmt.pragma? with
  | some p => cases hvalue : p.evaluate? features <;> simp [hvalue]
  | none =>
    cases state with
    | idle => simp
    | pending => rcases stmt.elidableModule with _ | _ | _ <;> simp [Except.map]

/-! ## One list -/

theorem Kind.hasStatementAt_succ {parent : Kind} {index : Nat} (h : parent.hasStatementAt index) :
    parent.hasStatementAt (index + 1) := by
  cases parent <;> simp_all [hasStatementAt]
  grind

/-- The children of a generic node are statements where its kind has them. -/
theorem Place.isStatement_children (name : String) (index following : Nat) :
    Place.isStatement ⟨.generic name, .children, some index, following⟩ =
      (Kind.generic name).hasStatementAt index := by
  simp only [Place.isStatement, Kind.isStatementList, Kind.isSwitchClause, Kind.hasStatementAt]
  grind

/-- Where `parent` has no statement, nothing is guarded. -/
theorem isGuarded_of_not_hasStatementAt {features : FeatureMap} {parent : Kind}
    {items : List Node} {index : Nat} (h : ¬ parent.hasStatementAt index) :
    isGuarded features parent items index = false := by
  cases index with
  | zero => rfl
  | succ index =>
    have hbefore : parent.hasStatementAt index = false := by
      by_contra hindex
      exact h (Kind.hasStatementAt_succ (by simpa using hindex))
    rw [isGuarded, hbefore, Bool.false_and]

/-- `elidedItems` of a list: its first item is taken out or kept, and the rest is read with the
machine behind it. -/
theorem elidedItems_cons (features : FeatureMap) {parent : Kind} {field : Field}
    (hplace : ∀ index following,
      Place.isStatement ⟨parent, field, some index, following⟩ = parent.hasStatementAt index)
    (index : Nat) (machine : ElisionState) (carried : List Comment)
    (stmt : Node) (kept : List Comment → Node) (rest : List (Node × (List Comment → Node))) :
    ∃ n machine' carried',
      (elidedItems features parent field index machine carried ((stmt, kept) :: rest) =
        let read := elidedItems features parent field (index + 1) machine' carried' rest
        (n :: read.1, read.2)) ∧
      (parent.hasStatementAt index ∧
          (machine' = if stmt.opensElision features then .pending else .idle) ∧
          ((stmt.pragma?.isSome || stmt.loadsModule && (machine = .pending : Bool)) ∧
            (∃ v, (machine.step features stmt).1 = .ok (some v) ∧
              let left := carried ++ stmt.comments ++ [⟨v.comment, true⟩]
              let last := rest.length = 0 && parent.isSwitchClause
              n = (Node.makeRemoved stmt).withComments (if last then left else []) ∧
                carried' = if last then [] else left) ∨
          ¬ (stmt.pragma?.isSome || stmt.loadsModule && (machine = .pending : Bool)) ∧
            n = kept carried ∧ carried' = []) ∨
        ¬ parent.hasStatementAt index ∧ machine' = machine ∧ n = kept [] ∧ carried' = carried) := by
  simp only [elidedItems, hplace]
  by_cases hstatement : parent.hasStatementAt index
  · have hnext := ElisionState.step_snd features machine stmt
    have htaken := ElisionState.step_fst features machine stmt
    rw [if_pos hstatement]
    rcases hstep : machine.step features stmt with ⟨verdict, machine'⟩
    rw [hstep] at hnext htaken
    rcases verdict with fault | _ | v
    · exact ⟨_, machine', [], rfl, .inl ⟨hstatement, hnext, .inr ⟨by simpa using htaken, rfl, rfl⟩⟩⟩
    · exact ⟨_, machine', [], rfl, .inl ⟨hstatement, hnext, .inr ⟨by simpa using htaken, rfl, rfl⟩⟩⟩
    · exact ⟨_, machine', _, rfl,
        .inl ⟨hstatement, hnext, .inl ⟨htaken.mp ⟨v, rfl⟩, v, rfl, rfl, rfl⟩⟩⟩
  · rw [if_neg hstatement]
    exact ⟨_, machine, carried, rfl, .inr ⟨hstatement, rfl, rfl, rfl⟩⟩

/-- But for comments, `elidedItems` of `rest` is the rule for the whole list `before ++ rest`, if
the machine is `pending` just where the first item of `rest` is guarded; by induction on `rest`. -/
theorem elidedItems_eq (features : FeatureMap) {parent : Kind} {field : Field}
    (hplace : ∀ index following,
      Place.isStatement ⟨parent, field, some index, following⟩ = parent.hasStatementAt index)
    (before : List Node) {rest : List (Node × (List Comment → Node))} {ruled : Node → Node}
    (hkept : ∀ item ∈ rest, ∀ cs, (item.2 cs).eraseComments = (ruled item.1).eraseComments)
    (machine : ElisionState)
    (hmachine : machine = if isGuarded features parent (before ++ rest.map (·.1)) before.length
      then .pending else .idle)
    (carried : List Comment) :
    (elidedItems features parent field before.length machine carried rest).1.map
        (·.eraseComments) =
      rest.mapIdx fun index item => Node.eraseComments <|
        if isTakenOut features parent (before ++ rest.map (·.1)) (before.length + index)
        then .makeRemoved item.1 else ruled item.1 := by
  induction rest generalizing before machine carried with
  | nil => rfl
  | cons item rest ih =>
    obtain ⟨stmt, kept⟩ := item
    simp only [List.forall_mem_cons] at hkept
    simp only [List.map_cons] at hmachine ⊢
    have hstmt : (before ++ stmt :: rest.map (·.1))[before.length]? = some stmt := by simp
    -- The machine is pending just where the rule says that the first item is guarded.
    have hpending : (machine = .pending : Bool) =
        isGuarded features parent (before ++ stmt :: rest.map (·.1)) before.length := by
      rw [hmachine]
      split <;> simp_all
    obtain ⟨n, machine', carried', heq, hcases⟩ :=
      elidedItems_cons features hplace before.length machine carried stmt kept rest
    -- The rest of the list is behind one item more.
    have hrest : (machine' = if parent.hasStatementAt before.length && stmt.opensElision features
          then .pending else .idle) →
        (elidedItems features parent field (before.length + 1) machine' carried' rest).1.map
            (·.eraseComments) =
          rest.mapIdx fun index item => Node.eraseComments <|
            if isTakenOut features parent (before ++ stmt :: rest.map (·.1))
              (before.length + (index + 1))
            then .makeRemoved item.1 else ruled item.1 := by
      intro hnext
      have h := ih (before ++ [stmt]) hkept.2 machine' (by
        rw [hnext, List.append_assoc, List.singleton_append, List.length_append,
          List.length_singleton, isGuarded, hstmt, Option.any_some]) carried'
      simp only [List.append_assoc, List.singleton_append, List.length_append,
        List.length_singleton] at h
      rw [h]
      simp only [Nat.add_assoc, Nat.add_comm 1]
    rw [heq]
    simp only [List.map_cons, List.mapIdx_cons, Nat.add_zero]
    rw [isTakenOut, hstmt, Option.any_some, ← hpending]
    rcases hcases with ⟨hstatement, hnext, hitem⟩ | ⟨hstatement, hnext, hn, -⟩
    · rw [hstatement, Bool.true_and]
      rw [hstatement, Bool.true_and] at hrest
      rcases hitem with ⟨htaken, v, -, hn, -⟩ | ⟨htaken, hn, -⟩
      · rw [if_pos htaken]
        simp only [hrest hnext, hn, Node.eraseComments_withComments]
      · rw [if_neg htaken]
        simp only [hrest hnext, hn, hkept.1]
    · -- Where there is no statement the machine is idle.
      have hidle : machine = .idle := by
        rw [hmachine, isGuarded_of_not_hasStatementAt hstatement]
        rfl
      rw [Bool.eq_false_iff.mpr hstatement, Bool.false_and] at hrest ⊢
      simp only [hrest (hnext.trans hidle), hn, hkept.1, Bool.false_eq_true, if_false]

/-- But for comments, `elidedItems` of a whole list is `ruledItems`. -/
theorem elidedItems_eq_ruledItems {features : FeatureMap} {parent : Kind} {field : Field}
    (hplace : ∀ index following,
      Place.isStatement ⟨parent, field, some index, following⟩ = parent.hasStatementAt index)
    {items : List Node} {kept : Node → List Comment → Node} {ruled : Node → Node}
    (hkept : ∀ n ∈ items, ∀ cs, (kept n cs).eraseComments = (ruled n).eraseComments) :
    (elidedItems features parent field 0 .idle []
        (items.map fun n => (n, kept n))).1.map (·.eraseComments) =
      (ruledItems features parent (items.map fun n => (n, ruled n))).map (·.eraseComments) := by
  have hitems : ∀ item ∈ items.map fun n => (n, kept n), ∀ cs,
      (item.2 cs).eraseComments = (ruled item.1).eraseComments := by simpa using hkept
  have h := elidedItems_eq features hplace [] hitems .idle rfl []
  rw [List.length_nil] at h
  rw [h]
  simp only [ruledItems, List.mapIdx_eq_zipIdx_map, List.map_map, List.zipIdx_map,
    List.nil_append, Nat.zero_add]
  rfl

/-! ## The tree -/

/-- But for comments, `elided` is `byListRule`; by induction on the tree. -/
theorem Node.eraseComments_elided (features : FeatureMap) (n : Node) (carried : List Comment) :
    (n.elided features carried).eraseComments = (n.byListRule features).eraseComments := by
  induction n using Node.induction generalizing carried with
  | mk info shape ih =>
    rw [elided_mk, byListRule_mk]
    simp only [eraseComments_mk, Node.mk.injEq, true_and]
    cases shape with
    | program body source =>
      simp only [Shape.map, elidedShape, ruledShape, Shape.program.injEq, and_true]
      exact elidedItems_eq_ruledItems (fun _ _ => rfl) ih
    | generic kind children =>
      simp only [Shape.map, elidedShape, ruledShape, Shape.generic.injEq, true_and]
      exact elidedItems_eq_ruledItems (Place.isStatement_children kind) ih
    | _ =>
      -- In any other form there are no statements, and both leave it to what is below it.
      rw [elidedShape_of_not_isStatementList (by rw [Shape.kind_map]; exact Bool.false_ne_true),
        ruledShape_of_no_list features (by rw [Shape.kind_map]; simp [Shape.kind])
          (by rw [Shape.kind_map]; simp [Shape.kind])]
      simp only [Shape.map_map]
      exact Shape.map_congr fun n hn => ih n hn []

/-- `elide` meets no fault in a well-typed program, and without a fault it takes out what
`byListRule` does, and changes nothing else but comments. -/
theorem Node.elide_eq_byListRule (program : Node) (features : FeatureMap) (binding : Binding) :
    (program.WellTyped → (program.elide features binding).2.fault = none) ∧
    ((program.elide features binding).2.fault = none →
      (program.elide features binding).1.eraseComments =
        (program.byListRule features).eraseComments) := by
  refine ⟨fun h => elide_fault_of_wellTyped h features binding, fun h => ?_⟩
  rw [elide_eq_elided h, eraseComments_elided]

/-- A block that ends in a pragma that holds, and a module loaded behind the block. -/
def blockBeforeRequire : Node :=
  let pragma : Node := .mk {} (.string (text "has(\"x\")") [])
  let load : Node := .mk {} (.call (some (.mk {} (.identifier (text "require"))))
    [.mk {} (.string (text "y") [])] false)
  .mk {} (.program [
    .mk {} (.generic "statement_block" [.mk {} (.expressionStatement (some pragma))]),
    .mk {} (.expressionStatement (some load))] [])

/-- In `blockBeforeRequire` the pragma does not reach out of its block. -/
theorem Node.elide_eq_byListRule_block :
    blockBeforeRequire.WellTyped ∧
    (blockBeforeRequire.elide [(text "x", true)] {}).2.fault = none ∧
    (blockBeforeRequire.elide [(text "x", true)] {}).1.eraseComments =
      (blockBeforeRequire.byListRule [(text "x", true)]).eraseComments := by
  have h := Node.elide_eq_byListRule blockBeforeRequire [(text "x", true)] {}
  have htyped : blockBeforeRequire.WellTyped := by decide
  exact ⟨htyped, h.1 htyped, h.2 (h.1 htyped)⟩

end FlagFold
