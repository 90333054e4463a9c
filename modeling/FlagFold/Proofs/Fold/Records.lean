/-
  FlagFold.Proofs.Fold.Records

  What the evaluation of pragmas records about the statements that it takes out.
  Each verdict of the machine is recorded in one comment, and comments that travel
  to the next statement, to the end of a list or with a placeholder keep their
  order: in the order of the source, what is noted in the tree that is left is
  what has been recorded.
-/

import FlagFold.Proofs.Fold.Outcome

namespace FlagFold

/-! ## The verdicts of the machine -/

/-- The comment for what the machine says about `n` on entering it, if `n` is a statement and is
taken out. -/
def Elision.record (features : FeatureMap) (place : Option Place) (n : Node) (s : Elision) :
    List Text :=
  match place with
  | none => []
  | some p =>
    if s.fault.isNone && p.isStatement then
      match (s.machine.step features (n.withComments (s.carried ++ n.comments))).1 with
      | .ok (some v) => [v.comment]
      | _ => []
    else []

/-- The comments for all verdicts of the machine, in the order of the traversal. -/
def Node.records (program : Node) (features : FeatureMap) : List Text :=
  program.logged (Elision.visitor features) (Elision.record features) none {}

/-- `elide` with its verdicts logged leaves the same tree and state as without, and the log is
`records`. -/
theorem Node.elide_logging (program : Node) (features : FeatureMap) :
    program.traverse ((Elision.visitor features).logging (Elision.record features)) none ({}, []) =
      ((program.elide features {}).1, (program.elide features {}).2, program.records features) := by
  rw [traverse_logging, List.nil_append]
  rfl

namespace Elision

/-- What is recorded in the visit of the places `ps`. -/
def placeRecords (features : FeatureMap) (ps : List (Place × Node)) (s : Elision) : List Text :=
  loggedPlaces (visitor features) (record features) ps s

section

variable (features : FeatureMap)

/-- The visit of a node that is no statement leaves a settled state, and its records are those below
it. -/
theorem visit_of_not_isStatement (place : Option Place) {n : Node} (hn : n.WellTyped)
    {s : Elision} (hs : s.Settled) (hplace : ∀ p, place = some p → ¬ p.isStatement) :
    (n.traverse (visitor features) place s).2.Settled ∧
      n.logged (visitor features) (record features) place s =
        placeRecords features n.shape.places s := by
  constructor
  · rcases traverse_of_not_isStatement place (elided features n) hs hplace with hfault | ⟨-, hafter⟩
    · rw [traverse_fault hn features place hs.fault] at hfault
      cases hfault
    · exact hafter
  · cases n with
    | mk info shape =>
      have henter : (visitor features).enter place (.mk info shape) s = (.descend info, s) := by
        simp only [visitor, hs.fault, Option.isSome_none, Bool.false_eq_true, if_false]
        cases place with
        | none => rfl
        | some p => simp only [if_neg (hplace p rfl), Node.info_mk]
      have hrecord : record features place (.mk info shape) s = [] := by
        cases place with
        | none => rfl
        | some p => simp only [record, hplace p rfl, Bool.and_false, Bool.false_eq_true, if_false]
      rw [Node.logged_mk, henter, hrecord]
      rfl

/-- The record of a statement that is taken out is its verdict; that of any other is what is
recorded below it. -/
theorem logged_of_isStatement {p : Place} {n : Node} (hn : n.WellTyped) {s : Elision}
    (hs : s.fault = none) (hplace : p.isStatement) :
    (∃ v, (s.machine.step features n).1 = .ok (some v) ∧
      n.logged (visitor features) (record features) (some p) s = [v.comment]) ∨
    (s.machine.step features n).1 = .ok none ∧ ∃ after : Elision, after.Settled ∧
      n.logged (visitor features) (record features) (some p) s =
        placeRecords features n.shape.places after := by
  cases n with
  | mk info shape =>
    have henter : (visitor features).enter (some p) (.mk info shape) s =
        enterStatement features p (.mk info shape) s := by
      simp only [visitor, hs, Option.isSome_none, Bool.false_eq_true, if_false, hplace, if_true]
    have hfault := enterStatement_fault hn features p hs
    rw [Node.logged_mk, henter]
    simp only [record, hs, Option.isNone_none, hplace, Bool.and_self, if_true,
      ElisionState.step_withComments]
    rcases enterStatement_cases features p (.mk info shape) s with
      hsome | ⟨v, machine, hstep, notes, hskip⟩ | ⟨hstep, after, hdescend, hafter⟩
    · rw [hfault] at hsome
      cases hsome
    · rw [hskip, hstep]
      exact .inl ⟨v, rfl, rfl⟩
    · rw [hdescend, hstep]
      exact .inr ⟨rfl, after, hafter, rfl⟩

/-- The visit of a statement: taken out, it leaves its verdict as the last comment `carried`; kept,
it leaves a settled state. -/
theorem visit_of_isStatement {p : Place} {n : Node} (hn : n.WellTyped) {s : Elision}
    (hs : s.fault = none) (hplace : p.isStatement) :
    let after := (n.traverse (visitor features) (some p) s).2
    let logged := n.logged (visitor features) (record features) (some p) s
    (∃ v, s.machine.step features n = (.ok (some v), after.machine) ∧ logged = [v.comment] ∧
      after.fault = none ∧ after.carried = if p.following = 0 && p.parent.isSwitchClause then []
        else s.carried ++ n.comments ++ [⟨v.comment, true⟩]) ∨
    s.machine.step features n = (.ok none, .idle) ∧ after.Settled ∧
      ∃ entered : Elision, entered.Settled ∧
        logged = placeRecords features n.shape.places entered := by
  intro after logged
  have hlogged := logged_of_isStatement features hn hs hplace
  rcases traverse_of_isStatement (elided features n) hs hplace with
    hfault | ⟨v, machine, hstep, -, hfault, hmachine, hcarried⟩ | ⟨hstep, -, hafter⟩
  · rw [traverse_fault hn features (some p) hs] at hfault
    cases hfault
  · rcases hlogged with ⟨v', hstep', hlog⟩ | ⟨hstep', -⟩
    · obtain rfl : v = v' := by simpa [hstep] using hstep'
      exact .inl ⟨v, hmachine ▸ hstep, hlog, hfault, hcarried⟩
    · simp [hstep] at hstep'
  · rcases hlogged with ⟨v', hstep', -⟩ | ⟨-, hlog⟩
    · simp [hstep] at hstep'
    · exact .inr ⟨hstep, hafter, hlog⟩

end

/-! ## Where the records stand -/

variable {features : FeatureMap}

/-- What is `noted` in the elided node is what the comments `cs` say, and then what is recorded
below it. -/
def NotesRecords (features : FeatureMap) (n : Node) : Prop :=
  ∀ (s : Elision) (cs : List Comment), s.Settled → (∀ c ∈ cs, c.leading) →
    (n.elided features cs).noted =
      Comment.contents cs ++ placeRecords features n.shape.places s

/-- A placeholder notes what its comments say. -/
theorem noted_makeRemoved (stmt : Node) (cs : List Comment) :
    ((Node.makeRemoved stmt).withComments cs).noted = Comment.contents cs :=
  Node.noted_mk { (Node.makeRemoved stmt).info with comments := cs } .removed

/-- What is `noted` in the items that `elidedItems` leaves, and the comments left at their end, are
what the `carried` comments say, and then what is recorded in the visit of the list. -/
theorem noted_elidedItems (parent : Kind) (field : Field) {items : List Node} (index : Nat)
    {s : Elision} (hnotes : ∀ n ∈ items, NotesRecords features n)
    (htyped : ∀ n ∈ items, n.WellTyped) (hbare : ∀ n ∈ items, n.comments = [])
    (hs : s.fault = none) (hcarried : ∀ c ∈ s.carried, c.leading)
    (hbefore : (∀ k, ¬ Place.isStatement ⟨parent, field, some index, k⟩) → s.Settled) :
    let read := elidedItems features parent field index s.machine s.carried
      (items.map fun n => (n, n.elided features))
    read.1.flatMap Node.noted ++ Comment.contents read.2 =
      Comment.contents s.carried ++
        placeRecords features (listPlaces parent field index items) s := by
  induction items generalizing index s with
  | nil => simp [elidedItems, listPlaces, placeRecords]
  | cons n rest ih =>
    rw [List.forall_mem_cons] at hnotes htyped hbare
    simp only [listPlaces, List.map_cons, elidedItems, List.length_map]
    rw [placeRecords, loggedPlaces_cons, ← placeRecords]
    by_cases hplace : Place.isStatement ⟨parent, field, some index, rest.length⟩
    · have hvisit := visit_of_isStatement features htyped.1 hs hplace
      -- Behind a statement nothing is asked of the state.
      have hnext : ¬ ∀ k, ¬ Place.isStatement ⟨parent, field, some (index + 1), k⟩ :=
        fun h => h 0 (isStatement_succ hplace 0)
      generalize (n.traverse (visitor features) _ s).2 = after at hvisit ⊢
      rw [if_pos hplace]
      rcases hvisit with ⟨v, hstep, hlogged, hfault, hpassed⟩ | ⟨hstep, hafter, entered, hentered,
        hlogged⟩
      · -- Taken out: the record goes along with the comments that were on their way.
        rw [hbare.1, List.append_nil] at hpassed
        have hleading : ∀ c ∈ after.carried, c.leading := by
          rw [hpassed]
          split
          · simp
          · simpa [or_imp, forall_and] using hcarried
        have hrest := ih (index + 1) hnotes.2 htyped.2 hbare.2 hfault hleading
          fun h => absurd h hnext
        rw [hstep, hlogged, hbare.1]
        simp only [List.append_nil]
        rw [← hpassed, List.flatMap_cons, noted_makeRemoved, List.append_assoc, hrest, hpassed]
        split <;> simp [Comment.contents]
      · -- Kept: the statement takes over the comments.
        have hnone : ∀ c ∈ after.carried, c.leading := by
          rw [hafter.carried]
          simp
        have hrest := ih (index + 1) hnotes.2 htyped.2 hbare.2 hafter.fault hnone
          fun h => absurd h hnext
        rw [hafter.carried, hafter.machine] at hrest
        rw [hstep, hlogged]
        simp only
        rw [List.flatMap_cons, hnotes.1 entered s.carried hentered hcarried, List.append_assoc,
          hrest, List.append_assoc]
        rfl
    · -- No statement has come yet, and nothing is on its way.
      have hsettled : s.Settled := hbefore fun k => hplace
      obtain ⟨hafter, hlogged⟩ := visit_of_not_isStatement features
        (some ⟨parent, field, some index, rest.length⟩) htyped.1 hsettled
        (by rintro _ ⟨⟩; exact hplace)
      have hnone : ∀ c ∈ (n.traverse (visitor features)
          (some ⟨parent, field, some index, rest.length⟩) s).2.carried, c.leading := by
        rw [hafter.carried]
        simp
      have hrest := ih (index + 1) hnotes.2 htyped.2 hbare.2 hafter.fault hnone fun _ => hafter
      rw [hafter.carried, hafter.machine] at hrest
      rw [if_neg hplace, hsettled.carried, hsettled.machine, hlogged]
      simp only
      rw [List.flatMap_cons, hnotes.1 s [] hsettled (by simp), List.append_assoc, hrest]
      rfl

/-- Where no place is that of a statement, `placeRecords` are what is `noted` in the elided
nodes. -/
theorem noted_of_not_isStatement {ps : List (Place × Node)}
    (hnotes : ∀ p ∈ ps, NotesRecords features p.2) (htyped : ∀ p ∈ ps, p.2.WellTyped)
    (hplace : ∀ p ∈ ps, ¬ p.1.isStatement) {s : Elision} (hs : s.Settled) :
    (ps.map (·.2)).flatMap (fun n => (n.elided features []).noted) =
      placeRecords features ps s := by
  induction ps generalizing s with
  | nil => rfl
  | cons p rest ih =>
    rw [List.forall_mem_cons] at hnotes htyped hplace
    obtain ⟨hafter, hlogged⟩ := visit_of_not_isStatement features (some p.1) htyped.1 hs
      (by rintro _ ⟨⟩; exact hplace.1)
    rw [List.map_cons, List.flatMap_cons, hnotes.1 s [] hs (by simp),
      ih hnotes.2 htyped.2 hplace.2 hafter, placeRecords, placeRecords, placeRecords,
      loggedPlaces_cons, hlogged]
    rfl

/-- Of `cs ++ Comment.atEnd after`, with all `cs` leading, exactly `cs` are leading. -/
theorem filter_leading {cs : List Comment} (hcs : ∀ c ∈ cs, c.leading) (after : List Comment) :
    (cs ++ Comment.atEnd after).filter (·.leading) = cs ∧
      (cs ++ Comment.atEnd after).filter (!·.leading) = Comment.atEnd after := by
  have hafter : ∀ c ∈ Comment.atEnd after, c.leading = false := by
    simp [Comment.atEnd]
  constructor
  · rw [List.filter_append, List.filter_eq_self.mpr hcs, List.filter_eq_nil_iff.mpr,
      List.append_nil]
    exact fun c hc => by simp [hafter c hc]
  · rw [List.filter_append, List.filter_eq_nil_iff.mpr (by simpa using hcs), List.nil_append,
      List.filter_eq_self]
    exact fun c hc => by simp [hafter c hc]

theorem contents_atEnd (cs : List Comment) :
    Comment.contents (Comment.atEnd cs) = Comment.contents cs := by
  simp [Comment.contents, Comment.atEnd]

/-- Every `Untouched` and well-typed node `NotesRecords`; by induction on the tree. -/
theorem notesRecords {n : Node} (h : n.Untouched) (htyped : n.WellTyped) :
    NotesRecords features n := by
  induction n using Node.induction with
  | mk info shape ih =>
    intro s cs hs hcs
    have hcomments : info.comments = [] := h.comments
    have hsynthetic : info.synthetic = false := h.synthetic
    have hkept : ∀ c ∈ shape.nodes, NotesRecords features c := fun c hc =>
      ih c hc (h.of_mem_children hc) (htyped.of_mem_children hc)
    have htyped' : ∀ c ∈ shape.nodes, c.WellTyped := fun c hc => htyped.of_mem_children hc
    -- What is noted in a node that is left with comments around the nodes that it holds.
    have hnoted : ∀ (left : Shape Node) (after : List Comment),
        (Node.mk { info with comments := cs ++ info.comments ++ Comment.atEnd after } left).noted =
          Comment.contents cs ++ (left.nodes.flatMap Node.noted ++ Comment.contents after) := by
      intro left after
      obtain ⟨hbefore, hafter⟩ := filter_leading hcs after
      rw [Node.noted_mk, hsynthetic, if_neg Bool.false_ne_true, hcomments, List.append_nil, hbefore,
        hafter, contents_atEnd, List.append_assoc]
    by_cases hlist : shape.kind.isStatementList
    · have hbare : ∀ c ∈ shape.nodes, c.comments = [] := fun c hc => (h.of_mem_children hc).comments
      have hnone : ∀ c ∈ s.carried, c.leading := by
        rw [hs.carried]
        simp
      rw [Node.elided_mk]
      cases shape with
      | program body source =>
        have hitems := noted_elidedItems .program .body 0 hkept htyped' hbare hs.fault hnone
          fun _ => hs
        rw [hs.machine, hs.carried] at hitems
        exact (hnoted _ _).trans (congrArg _ hitems)
      | generic name items =>
        have hitems := noted_elidedItems (.generic name) .children 0 hkept htyped' hbare hs.fault
          hnone fun _ => hs
        rw [hs.machine, hs.carried] at hitems
        exact (hnoted _ _).trans (congrArg _ hitems)
      | _ => simp [Shape.kind, Kind.isStatementList] at hlist
    · have hmem : ∀ p ∈ shape.places, p.2 ∈ shape.nodes := fun p hp =>
        Shape.mem_nodes_of_mem_places hp
      have hplaces := noted_of_not_isStatement (fun p hp => hkept p.2 (hmem p hp))
        (fun p hp => htyped' p.2 (hmem p hp))
        (fun p hp => not_isStatement_of_mem_places hlist hp) hs
      have hleft := hnoted (shape.map (·.elided features [])) []
      rw [Shape.map_snd_places] at hplaces
      rw [Shape.nodes_map, List.flatMap_map, hplaces] at hleft
      rw [Node.elided_of_not_isStatementList hlist]
      simpa [Comment.atEnd, Comment.contents] using hleft

end Elision

/-- What is `noted` in the elided program are its `records`. -/
theorem Node.noted_elide {program : Node} (h : program.Untouched) (htyped : program.WellTyped)
    (features : FeatureMap) :
    (program.elide features {}).1.noted = program.records features := by
  have hs : Elision.Settled {} := ⟨rfl, rfl, rfl⟩
  obtain ⟨-, hlogged⟩ := Elision.visit_of_not_isStatement features none htyped hs (by simp)
  rw [elide_eq_elided (elide_fault_of_wellTyped htyped features {}),
    Elision.notesRecords h htyped {} [] hs (by simp), records, hlogged]
  rfl

/-! ## What the edits of a program carry -/

namespace Node

/-- The edits of `program` with the comments that they carry, in the order in which they are
collected. -/
def programRemarks (program : Node) : List Remark :=
  program.children.flatMap (remarks program.sheet) ++
    program.endEdit.map (⟨·, program.comments.filter (!·.leading)⟩)

/-- What `StandsFor` an item `HeadsLater`, if what may be kept of the item does. -/
theorem headsLater_of_standsFor {S : Node → Prop} {features : FeatureMap} {item c : Node}
    (hstands : StandsFor S (item, item.elided features) c)
    (h : ∀ cs, ∀ m ∈ (item.elided features cs).printed, m.HeadsLater) :
    ∀ m ∈ c.printed, m.HeadsLater := by
  obtain ⟨-, -, cs, rfl⟩ | ⟨cs, rfl, -⟩ := hstands
  · -- A placeholder holds nothing.
    rw [printed_of_synthetic rfl, List.forall_mem_singleton]
    intro c hc
    cases hc
  · exact h cs

/-- All printed nodes of an elided node below a program `HeadsLater`. -/
theorem headsLater_elided {source : Text} {n : Node} (h : n.SetOut source)
    (hkind : n.kind ≠ .program) (features : FeatureMap) (cs : List Comment) :
    ∀ m ∈ (n.elided features cs).printed, m.HeadsLater := by
  induction n using Node.induction generalizing cs with
  | mk info shape ih =>
    obtain ⟨-, -, hstmts, hprogram⟩ := h.written _ (mem_subnodes_self _)
    have hsynthetic : ((mk info shape).elided features cs).info.synthetic = false := by
      rw [synthetic_elided]
      exact h.untouched.synthetic
    have hchildren := exists_of_mem_children_elided features h.untouched hstmts cs
    rw [printed_of_not_synthetic hsynthetic, List.forall_mem_cons, List.forall_mem_flatMap]
    constructor
    · rintro c hc ⟨m, hm, hleading⟩
      rw [start_elided]
      obtain ⟨item, hitem, ⟨hstands, -, cs', rfl⟩ | ⟨cs', rfl, -, hstands⟩⟩ := hchildren c hc
      · exact hstands.2.2.2 hkind
      · -- Comments before something kept were taken over, and so it is a statement.
        have hbare := (h.untouched.of_mem_children hitem).comments
        have hm' : m ∈ cs' := (mem_comments_elided hm hleading).resolve_right (by simp [hbare])
        rw [start_elided]
        exact (hstands (List.ne_nil_of_mem hm')).2.2.2 hkind
    · intro c hc
      obtain ⟨item, hitem, hstands⟩ := hchildren c hc
      exact headsLater_of_standsFor hstands
        (ih item hitem (h.of_mem_children hitem) (hprogram item hitem))

/-- The sorted `programRemarks` of a bare program say what is `noted` in it. -/
theorem contents_sort_programRemarks (info : Info) {body : List Node} {source : Text}
    (hordered : body.Pairwise (·.info.stop ≤ ·.info.start))
    (hbare : ∀ n ∈ body, n.Bare (Sheet.ofSource source))
    (hlater : ∀ n ∈ body, ∀ m ∈ n.printed, m.HeadsLater) :
    let program := mk info (.program body source)
    program.programEdits = .ok (program.programRemarks.map (·.edit)) ∧
      (∀ r ∈ program.programRemarks, r.Carries) ∧
      Remark.contents (Remark.sort program.programRemarks) =
        body.flatMap noted ++ Comment.contents (info.comments.filter (!·.leading)) := by
  intro program
  have hremarks : program.programRemarks = body.flatMap (remarks (Sheet.ofSource source)) ++
      program.endEdit.map (⟨·, info.comments.filter (!·.leading)⟩) := rfl
  have hin : ∀ n ∈ body, n.InSourceOrder (Sheet.ofSource source) := fun n hn =>
    (hbare n hn).inSourceOrder (hlater n hn)
  refine ⟨?_, ?_, ?_⟩
  · have hlist : program.sheet.listEdits (Shape.program body source).nodes =
        .ok (body.flatMap fun n => (n.remarks (Sheet.ofSource source)).map (·.edit)) :=
      Sheet.listEdits_of_forall fun n hn => Sheet.edits_of_bare (hbare n hn)
    rw [programEdits_mk, hlist, hremarks, List.map_append, List.map_flatMap, List.map_map]
    simp only [bind, Except.bind, pure, Except.pure, Function.comp_def, List.map_id']
    rfl
  · rw [hremarks, List.forall_mem_append, List.forall_mem_flatMap, List.forall_mem_map]
    refine ⟨fun n hn => Sheet.carries_remarks (hbare n hn), fun e he => ?_⟩
    rw [endEdit] at he
    split at he
    · cases he
    · rw [List.mem_singleton.mp he]
      exact ⟨[], program.sheet.newline, .inl rfl⟩
  · have hperm : program.programRemarks.Perm
        (body.flatMap (sourceRemarks (Sheet.ofSource source)) ++
          program.endEdit.map (⟨·, info.comments.filter (!·.leading)⟩)) :=
      (List.Perm.flatMap_left _ fun n _ => n.remarks_perm).append_right _
    rw [Remark.contents_sort hperm, Remark.contents_append]
    · congr 1
      · rw [Remark.contents, List.flatMap_assoc]
        exact List.flatMap_congr fun n hn => Sheet.contents_sourceRemarks (hbare n hn)
      · have hcomments : program.comments = info.comments := rfl
        rw [endEdit, hcomments]
        cases info.comments.filter (!·.leading) <;> simp [Remark.contents, Comment.contents]
    · rw [List.pairwise_append]
      refine ⟨InSourceOrder.pairwise_flatMap hordered hin, ?_, ?_⟩
      · rw [endEdit]
        split
        · exact .nil
        · exact List.pairwise_singleton _ _
      · -- All that is noted in the source starts before its end.
        intro r hr r' hr' hcommented _
        obtain ⟨n, hn, hr⟩ := List.mem_flatMap.mp hr
        obtain ⟨e, he, rfl⟩ := List.mem_map.mp hr'
        obtain ⟨⟨-, last, -, hcloses, hlt⟩, -⟩ := (hin n hn).inside r hr hcommented
        have hlast : last ≤ source.length := Text.le_length_of_closesAt hcloses
        have hstart : e.start = source.length := (span_of_mem_endEdit he).1
        simp only
        omega

/-- The edits of the elided program carry its `records`: each once, in the order of the traversal
when they are sorted. -/
theorem programEdits_elide_records {program : Node} (h : program.Delivered)
    (features : FeatureMap) :
    let left := (program.elide features {}).1
    let remarks := left.programRemarks
    left.programEdits = .ok (remarks.map (·.edit)) ∧ (∀ r ∈ remarks, r.Carries) ∧
      (Remark.sort remarks).map (·.edit) = Edit.sort (remarks.map (·.edit)) ∧
      Remark.contents (Remark.sort remarks) = program.records features := by
  have hroot := h.root
  obtain ⟨info, shape⟩ := program
  cases shape with
  | program body source =>
    intro left remarks
    obtain ⟨cs, kept, hleft, hordered, hfoldable⟩ := elide_of_delivered h features
    have helided := elide_eq_elided (elide_fault_of_wellTyped h.wellTyped features {})
    have hnoted := noted_elide h.untouched h.wellTyped features
    have hlater : ∀ n ∈ kept, ∀ m ∈ n.printed, m.HeadsLater := by
      obtain ⟨-, -, hstmts, hprogram⟩ := h.written _ (mem_subnodes_self _)
      have hchildren := exists_of_mem_children_elided features h.untouched hstmts []
      rw [← helided, hleft] at hchildren
      intro n hn
      obtain ⟨item, hitem, hstands⟩ := hchildren n hn
      exact headsLater_of_standsFor hstands
        (headsLater_elided (h.of_mem_children hitem) (hprogram item hitem) features)
    -- The program takes over no comments, and none come before it.
    have hnone : cs.filter (·.leading) = [] := by
      rw [List.filter_eq_nil_iff]
      intro c hc hleading
      have hmem : c ∈ ((mk info (.program body source)).elided features []).info.comments := by
        rw [← helided, hleft]
        exact hc
      have hbare : info.comments = [] := h.untouched.comments
      have := mem_comments_elided hmem hleading
      simp [hbare] at this
    have hsynthetic : info.synthetic = false := h.untouched.synthetic
    obtain ⟨hedits, hcarries, hcontents⟩ := contents_sort_programRemarks
      { info with comments := cs } hordered (fun n hn => (hfoldable n hn).bare) hlater
    rw [hleft, noted_mk, hsynthetic, if_neg Bool.false_ne_true, hnone] at hnoted
    rw [← hleft] at hedits hcarries hcontents
    refine ⟨hedits, hcarries, Remark.map_edit_sort remarks, ?_⟩
    rw [← hnoted]
    exact hcontents
  | _ => cases hroot

end Node

/-- A pragma and what it guards are all there is: both records come at the end. -/
theorem programEdits_elide_records_atEnd :
    let program := guardedLine [] (text "'has(\"a\")';\nrequire('y');\n")
    let left := (program.elide [(text "a", true)] {}).1
    program.Delivered ∧
      Remark.contents (Remark.sort left.programRemarks) = program.records [(text "a", true)] ∧
      program.records [(text "a", true)] =
        [text " has('a'): true", text " elided: import 'y'"] := by
  intro program left
  have hdelivered : program.Delivered := by decide
  obtain ⟨-, -, -, hcontents⟩ :=
    Node.programEdits_elide_records hdelivered [(text "a", true)]
  exact ⟨hdelivered, hcontents, by decide +kernel⟩

end FlagFold
