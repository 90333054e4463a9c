/-
  FlagFold.Proofs.Fold.Removal

  Taking out statements one at a time.  `Node.removeStatement` takes one statement out
  of a whole list and hands its comments on; the traversal has only the statement at
  hand, and takes the comments along.  Handing on what the traversal has taken along
  (`Node.handOn`), one visit does what `Node.removeStatement` does; so the traversal
  leaves of a list what is left when its statements are taken out one after the other.
-/

import FlagFold.Proofs.Fold.Elision

namespace FlagFold

/-! ## Lists in a form -/

namespace Shape

variable {α : Type} {field : Field} {items : List α}

theorem list?_setList {shape : Shape α} (h : shape.list? field = some items) (items' : List α) :
    (shape.setList items' field).list? field = some items' := by
  cases field <;> cases shape <;> first | rfl | cases h

theorem setList_setList (shape : Shape α) (items items' : List α) :
    (shape.setList items field).setList items' field = shape.setList items' field := by
  cases field <;> cases shape <;> rfl

theorem setList_self {shape : Shape α} (h : shape.list? field = some items) :
    shape.setList items field = shape := by
  cases field <;> cases shape <;> first | (cases h; rfl) | cases h

@[simp] theorem kind_setList (shape : Shape α) (items : List α) :
    (shape.setList items field).kind = shape.kind := by
  cases field <;> cases shape <;> rfl

end Shape

namespace Node

variable {field : Field} {items : List Node}

/-- `parent` with other `items` in its list `field`. -/
def withList (parent : Node) (field : Field) (items : List Node) : Node :=
  .mk parent.info (parent.shape.setList items field)

/-- `parent` with the comments `carried` handed to the item at `index` of its list `field`, before
those of the item, or to its own end if the list has none there. -/
def handOn (parent : Node) (field : Field) (index : Nat) (carried : List Comment) : Node :=
  let items := (parent.shape.list? field).getD []
  match items[index]? with
  | some next =>
    parent.withList field (items.set index (next.withComments (carried ++ next.comments)))
  | none => parent.withComments (parent.comments ++ Comment.atEnd carried)

theorem list?_withList {parent : Node} (h : parent.shape.list? field = some items)
    (items' : List Node) : (parent.withList field items').shape.list? field = some items' :=
  Shape.list?_setList h items'

@[simp] theorem withList_withList (parent : Node) (items items' : List Node) :
    (parent.withList field items).withList field items' = parent.withList field items' := by
  simp [withList, Shape.setList_setList]

theorem withList_self {parent : Node} (h : parent.shape.list? field = some items) :
    parent.withList field items = parent := by
  rw [withList, Shape.setList_self h, mk_info_shape]

@[simp] theorem kind_withList (parent : Node) (items : List Node) :
    (parent.withList field items).kind = parent.kind := Shape.kind_setList _ _

@[simp] theorem comments_withList (parent : Node) (items : List Node) :
    (parent.withList field items).comments = parent.comments := rfl

theorem handOn_of_getElem? {parent next : Node} {index : Nat} (carried : List Comment)
    (hitems : parent.shape.list? field = some items) (hnext : items[index]? = some next) :
    parent.handOn field index carried =
      parent.withList field (items.set index (next.withComments (carried ++ next.comments))) := by
  simp [handOn, hitems, hnext]

theorem handOn_of_length {parent : Node} {index : Nat} (carried : List Comment)
    (hitems : parent.shape.list? field = some items) (hindex : items.length ≤ index) :
    parent.handOn field index carried =
      parent.withComments (parent.comments ++ Comment.atEnd carried) := by
  simp [handOn, hitems, List.getElem?_eq_none hindex]

/-- `handOn` of no comments changes nothing. -/
theorem handOn_nil {parent : Node} (hitems : parent.shape.list? field = some items) (index : Nat) :
    parent.handOn field index [] = parent := by
  cases hnext : items[index]? with
  | some next =>
    obtain ⟨hlt, hget⟩ := List.getElem?_eq_some_iff.mp hnext
    have hsame : next.withComments ([] ++ next.comments) = next := mk_info_shape next
    rw [handOn_of_getElem? _ hitems hnext, hsame, ← hget, List.set_getElem_self,
      withList_self hitems]
  | none =>
    rw [handOn_of_length _ hitems (List.getElem?_eq_none_iff.mp hnext), Comment.atEnd,
      List.map_nil, List.append_nil]
    exact mk_info_shape parent

/-! ## One statement -/

variable {parent stmt : Node} {index : Nat}

/-- After `handOn`, `parent` differs in its item at `index` only, which has the comments `carried`
before its own. -/
theorem handOn_spec (hitems : parent.shape.list? field = some items)
    (hstmt : items[index]? = some stmt) (carried : List Comment) :
    ∃ items', (parent.handOn field index carried).shape.list? field = some items' ∧
      items'.length = items.length ∧
      items'[index]? = some (stmt.withComments (carried ++ stmt.comments)) ∧
      (parent.handOn field index carried).kind = parent.kind ∧
      ∀ n, (parent.handOn field index carried).withList field (items'.set index n) =
        parent.withList field (items.set index n) := by
  rw [handOn_of_getElem? carried hitems hstmt]
  refine ⟨_, list?_withList hitems _, List.length_set, ?_, kind_withList _ _, fun n => ?_⟩
  · exact List.getElem?_set_self (List.getElem?_eq_some_iff.mp hstmt).1
  · rw [withList_withList, List.set_set]

/-- `removeStatement` puts a placeholder in the place of the statement at `index` and hands on what
it leaves; the last statement of a switch clause keeps that. -/
theorem removeStatement_eq (hitems : parent.shape.list? field = some items)
    (hstmt : items[index]? = some stmt) (record : Text) :
    let left := stmt.leftComments record
    let last := items.length - (index + 1) = 0 && parent.kind.isSwitchClause
    parent.removeStatement ⟨field, some index⟩ record =
      some ((parent.withList field
        (items.set index ((makeRemoved stmt).withComments (if last then left else [])))).handOn
          field (index + 1) (if last then [] else left)) := by
  intro left last
  have hlist := list?_withList hitems
  simp only [removeStatement, hitems, hstmt, Option.bind_eq_bind, Option.bind_some]
  cases hnext : items[index + 1]? with
  | some next =>
    -- The comments go on to the statement behind it.
    have hlast : last = false := by
      have := (List.getElem?_eq_some_iff.mp hnext).1
      simp only [last, Bool.and_eq_false_iff, decide_eq_false_iff_not]
      omega
    have hnext' : ∀ placeholder, (items.set index placeholder)[index + 1]? = some next := by
      intro placeholder
      rw [List.getElem?_set_ne (by omega), hnext]
    simp only [hlast, Bool.false_eq_true, if_false]
    rw [handOn_of_getElem? left (hlist _) (hnext' _), withList_withList,
      List.set_comm _ _ (Nat.ne_of_lt (Nat.lt_succ_self index))]
    rfl
  | none =>
    have hlength := List.getElem?_eq_none_iff.mp hnext
    -- There is none behind it: they stay with the placeholder in a switch clause, and else go to
    -- the end of the list.
    cases hclause : parent.kind.isSwitchClause with
    | true =>
      have hlast : last = true := by
        simp only [last, hclause, Bool.and_true, decide_eq_true_eq]
        omega
      simp only [hlast, if_true]
      rw [handOn_nil (hlist _)]
      rfl
    | false =>
      have hlast : last = false := by simp [last, hclause]
      simp only [hlast, Bool.false_eq_true, if_false]
      rw [handOn_of_length left (hlist _) (by simpa using hlength)]
      rfl

/-- `removeStatement` after `handOn` hands on `carried` as well, before what the statement itself
leaves. -/
theorem removeStatement_handOn (hitems : parent.shape.list? field = some items)
    (hstmt : items[index]? = some stmt) (carried : List Comment) (record : Text) :
    let left := carried ++ stmt.comments ++ [⟨record, true⟩]
    let last := items.length - (index + 1) = 0 && parent.kind.isSwitchClause
    (parent.handOn field index carried).removeStatement ⟨field, some index⟩ record =
      some ((parent.withList field
        (items.set index ((makeRemoved stmt).withComments (if last then left else [])))).handOn
          field (index + 1) (if last then [] else left)) := by
  intro left last
  obtain ⟨items', hlist, hlength, hget, hkind, hset⟩ := handOn_spec hitems hstmt carried
  rw [removeStatement_eq hlist hget, hlength, hkind, hset]
  rfl

end Node

/-- One visit of the traversal does what `Node.removeStatement` does: where it takes out the
statement at `index`, handing on the comments that it takes along then comes to taking the statement
out once those that it brought have been handed to it. -/
theorem Elision.enterStatement_eq_removeStatement {features : FeatureMap} {parent stmt : Node}
    {field : Field} {items : List Node} {index : Nat}
    (hitems : parent.shape.list? field = some items) (hstmt : items[index]? = some stmt)
    {s : Elision} {v : Verdict} (hv : (s.machine.step features stmt).1 = .ok (some v)) :
    ∃ placeholder after,
      enterStatement features ⟨parent.kind, field, some index, items.length - (index + 1)⟩ stmt s =
        (.skip placeholder, after) ∧
      (parent.handOn field index s.carried).removeStatement ⟨field, some index⟩ v.comment =
        some ((parent.withList field (items.set index placeholder)).handOn field (index + 1)
          after.carried) := by
  rw [Node.removeStatement_handOn hitems hstmt]
  rcases hstep : s.machine.step features stmt with ⟨verdict, machine⟩
  obtain rfl : verdict = .ok (some v) := by rw [← hv, hstep]
  simp only [enterStatement, ElisionState.step_withComments, hstep]
  -- At the end of a switch clause the placeholder keeps the comments, elsewhere they go on.
  split <;> exact ⟨_, _, rfl, rfl⟩

/-! ## A whole list -/

namespace Node

variable {field : Field} {items : List Node} {parent : Node} {index : Nat}

/-- `parent` with `count` items of its list `field` read from `index` on: an item for which the
machine has a verdict is taken out of the list, and of any other is left what its own pragmas
leave. -/
def removeEach (features : FeatureMap) (field : Field) : Nat → Nat → ElisionState → Node → Node
  | 0, _, _, parent => parent
  | count + 1, index, machine, parent =>
    let items := (parent.shape.list? field).getD []
    match items[index]? with
    | none => parent
    | some stmt =>
      let kept := parent.withList field (items.set index (stmt.elided features []))
      if Place.isStatement ⟨parent.kind, field, some index, count⟩ then
        match machine.step features stmt with
        | (.ok (some v), machine) =>
          removeEach features field count (index + 1) machine
            ((parent.removeStatement ⟨field, some index⟩ v.comment).getD kept)
        | (_, machine) => removeEach features field count (index + 1) machine kept
      else removeEach features field count (index + 1) machine kept

/-- The comments that `n` takes over can just as well be its own. -/
theorem elided_withComments (features : FeatureMap) (n : Node) (cs : List Comment) :
    (n.withComments (cs ++ n.comments)).elided features [] = n.elided features cs := by
  cases n with
  | mk info shape => rw [elided_mk, withComments, elided_mk]; rfl

/-- `removeEach` over the items `rest`, with `carried` handed to the first of them, leaves what
`elidedItems` says; by induction on `rest`. -/
theorem removeEach_handOn (features : FeatureMap) {front rest : List Node}
    (hitems : parent.shape.list? field = some (front ++ rest)) (hindex : front.length = index)
    (machine : ElisionState) {carried : List Comment}
    (hcarried : Place.isStatement ⟨parent.kind, field, some index, rest.length⟩ ∨ carried = []) :
    let read := elidedItems features parent.kind field index machine carried
      (rest.map fun n => (n, n.elided features))
    (parent.handOn field index carried).removeEach features field rest.length index machine =
      (parent.withList field (front ++ read.1)).withComments
        (parent.comments ++ Comment.atEnd read.2) := by
  induction rest generalizing parent front index machine carried with
  | nil =>
    rw [List.append_nil] at hitems
    simp only [List.map_nil, elidedItems, List.append_nil, List.length_nil, removeEach]
    rw [handOn_of_length carried hitems (Nat.le_of_eq hindex), withList_self hitems]
  | cons stmt rest ih =>
    have hstmt : (front ++ stmt :: rest)[index]? = some stmt := by simp [← hindex]
    have hrest : (front ++ stmt :: rest).length - (index + 1) = rest.length := by
      simp only [List.length_append, List.length_cons]
      omega
    -- What is left with `n` in the place of the statement, and `passed` handed on.
    have hnext : ∀ n machine passed,
        (Place.isStatement ⟨parent.kind, field, some index, rest.length⟩ ∨ passed = []) →
        let read := elidedItems features parent.kind field (index + 1) machine passed
          (rest.map fun n => (n, n.elided features))
        ((parent.withList field ((front ++ stmt :: rest).set index n)).handOn field (index + 1)
            passed).removeEach features field rest.length (index + 1) machine =
          (parent.withList field (front ++ n :: read.1)).withComments
            (parent.comments ++ Comment.atEnd read.2) := by
      intro n machine passed hpassed
      have hset : (front ++ stmt :: rest).set index n = front ++ [n] ++ rest := by simp [← hindex]
      have hplace : Place.isStatement ⟨(parent.withList field (front ++ [n] ++ rest)).kind, field,
          some (index + 1), rest.length⟩ ∨ passed = [] := by
        rw [kind_withList]
        exact hpassed.imp_left (Elision.isStatement_succ · rest.length)
      have hread := ih (list?_withList hitems _)
        (by simp [hindex] : (front ++ [n]).length = index + 1) machine hplace
      rw [hset]
      simpa using hread
    obtain ⟨items', hlist, -, hget, hkind, hset⟩ := handOn_spec hitems hstmt carried
    -- A statement that stays keeps the comments that it was handed.
    have hkept : (parent.handOn field index carried).withList field (items'.set index
          ((stmt.withComments (carried ++ stmt.comments)).elided features [])) =
        (parent.withList field ((front ++ stmt :: rest).set index
          (stmt.elided features carried))).handOn field (index + 1) [] := by
      rw [handOn_nil (list?_withList hitems _), hset, elided_withComments]
    simp only [List.length_cons, removeEach, hlist, Option.getD_some, hget, hkind, List.map_cons,
      elidedItems, List.length_map, ElisionState.step_withComments]
    by_cases hplace : Place.isStatement ⟨parent.kind, field, some index, rest.length⟩
    · simp only [hplace, if_true]
      rcases hstep : machine.step features stmt with ⟨_ | ⟨_ | v⟩, machine'⟩
      case error | ok.none =>
        simp only
        rw [hkept]
        exact hnext _ _ _ (.inr rfl)
      case ok.some =>
        simp only
        rw [removeStatement_handOn hitems hstmt, Option.getD_some, hrest]
        exact hnext _ _ _ (.inl hplace)
    · obtain rfl := hcarried.resolve_left hplace
      simp only [hplace, if_false, Bool.false_eq_true]
      rw [hkept]
      exact hnext _ _ _ (.inr rfl)

/-- `elided` of a statement list is what `removeEach` leaves of it, from its first item on with an
idle machine. -/
theorem elided_eq_removeEach (features : FeatureMap)
    (hitems : parent.shape.list? field = some items) (hlist : parent.kind.isStatementList) :
    parent.elided features [] = parent.removeEach features field items.length 0 .idle := by
  have hfront : parent.shape.list? field = some ([] ++ items) := hitems
  have hread := removeEach_handOn features hfront List.length_nil .idle (.inr rfl)
  rw [handOn_nil hitems] at hread
  rw [hread]
  cases parent with
  | mk info shape =>
    rw [elided_mk]
    cases shape with
    | program body source =>
      cases field <;> cases hitems
      rfl
    | generic kind children =>
      cases field <;> cases hitems
      rfl
    | _ => cases hlist

end Node
end FlagFold
