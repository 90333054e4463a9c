/-
  FlagFold.Proofs.SourceMap.Malformed

  What becomes of a map that is chained to that of a printed program, whatever JSON
  value it is.  Those that are no source map are rejected for a fault of the map.  The
  check does not look at two members that are carried along as lists: where one of
  them is no list the chain fails, and not for a fault of the map.
-/

import FlagFold.Proofs.SourceMap.Compose

namespace FlagFold

/-! ## Documents that are source maps -/

/-- The JSON value can be taken for a list. -/
def Json.isListed : Json → Bool
  | .arr _ | .str _ | .obj _ => true
  | _ => false

namespace SourceMap

/-- `document` is a source map: an object of the `revision` 3, unless it says nothing of that, with
`mappings` that are decoded as `m`, and with a list of `sources` if it has any. -/
structure WellFormed (document : Json) (m : Mappings) : Prop where
  version : ∀ v, document.member? (text "version") = some v → v.isNumber revision
  mappings : ∃ t, document.member? (text "mappings") = some (.str t) ∧ Mappings.decode t = .ok m
  sources : MayList "sources" document

/-- The first of the lists that are carried along which is none. -/
def unlisted? (document : Json) : Option Json :=
  ["names", "sourcesContent"].findSome? fun name =>
    (document.member? (text name)).filter fun value => !value.isListed

variable {role : MapRole} {document original edits : Json} {m : Mappings}

/-- `check` lets well-formed source maps through, and nothing else. -/
theorem check_eq_ok_iff : check role document = .ok m ↔ WellFormed document m := by
  cases document with
  | obj members =>
    constructor
    · intro h
      obtain ⟨hversion, t, ht, hdecode⟩ : (∀ v, Table.find? members (text "version") = some v →
          v.isNumber revision) ∧ ∃ t, Table.find? members (text "mappings") = some (.str t) ∧
            Mappings.decode t = .ok m := by
        unfold check at h
        repeat' split at h
        all_goals simp_all [bind, Except.bind, throw, throwThe, MonadExceptOf.throw]
      exact ⟨hversion, ⟨t, ht, hdecode⟩, (of_check h).2⟩
    · rintro ⟨hversion, ⟨t, ht, hdecode⟩, hsources⟩
      have hlist : (Json.obj members).member? (text "sources") = none ∨
          ∃ items, (Json.obj members).member? (text "sources") = some (.arr items) := by
        cases hs : (Json.obj members).member? (text "sources") with
        | none => exact .inl rfl
        | some v =>
          obtain ⟨items, rfl⟩ := hsources v hs
          exact .inr ⟨items, rfl⟩
      unfold Json.member? at hversion ht hlist
      simp only at hversion ht hlist
      unfold check
      rcases hv : Table.find? members (text "version") with _ | v
      · obtain hs | ⟨items, hs⟩ := hlist <;> simp [hv, ht, hs, hdecode]
      · obtain hs | ⟨items, hs⟩ := hlist <;> simp [hv, ht, hs, hdecode, hversion v hv]
  | _ => exact ⟨nofun, fun h => by obtain ⟨t, ht, -⟩ := h.mappings; cases ht⟩

theorem listOf_of_isListed {value : Json} (h : value.isListed) :
    ∃ items, listOf value = .ok items := by
  cases value <;> first | exact ⟨_, rfl⟩ | cases h

theorem listOf_of_not_isListed {value : Json} (h : value.isListed = false) :
    listOf value = .error (.notAList value) := by
  cases value <;> first | rfl | cases h

/-- `listMember` gives the items of the member `name`, or says that it is no list. -/
theorem listMember_cases (name : String) (document : Json) :
    (((document.member? (text name)).filter fun value => !value.isListed) = none ∧
      ∃ items, listMember name document = .ok items) ∨
    ∃ value, ((document.member? (text name)).filter fun value => !value.isListed) = some value ∧
      listMember name document = .error (.notAList value) := by
  unfold listMember
  cases document.member? (text name) with
  | none => exact .inl ⟨rfl, [], rfl⟩
  | some value =>
    cases hlisted : value.isListed with
    | true => exact .inl ⟨by simp [hlisted], listOf_of_isListed hlisted⟩
    | false => exact .inr ⟨value, by simp [hlisted], listOf_of_not_isListed hlisted⟩

/-- `compose` of two maps that pass `check` gives a chain, unless one of the lists that are carried
along is none. -/
theorem compose_cases {input edited : Mappings} (horiginal : check .input original = .ok input)
    (hedits : check .generated edits = .ok edited) :
    (unlisted? original = none ∧ ∃ composed, compose original edits = .ok composed ∧
      composed.mappings = (chainMappings input edited).encode) ∨
    ∃ value, unlisted? original = some value ∧
      compose original edits = .error (.notAList value) := by
  obtain ⟨sources, hsources⟩ := exists_listMember (check_eq_ok_iff.mp horiginal).sources
  simp only [compose, unlisted?, horiginal, hedits, hsources, List.findSome?_cons]
  obtain ⟨hfilter, names, hnames⟩ | ⟨value, hfilter, hnames⟩ := listMember_cases "names" original
  · rw [hnames, hfilter]
    cases original.member? (text "sourcesContent") with
    | none => exact .inl ⟨rfl, _, rfl, rfl⟩
    | some value =>
      cases hlisted : value.isListed with
      | true =>
        obtain ⟨contents, hcontents⟩ := listOf_of_isListed hlisted
        refine .inl ⟨by simp [Option.filter_some, hlisted], ?_⟩
        simp only [hcontents]
        exact ⟨_, rfl, rfl⟩
      | false =>
        refine .inr ⟨value, by simp [Option.filter_some, hlisted], ?_⟩
        simp only [listOf_of_not_isListed hlisted]
        rfl
  · rw [hnames, hfilter]
    exact .inr ⟨value, rfl, rfl⟩

/-- `compose` fails with the fault that `check` finds in `original`. -/
theorem compose_of_check_error {fault : MapFault} (h : check .input original = .error fault) :
    compose original edits = .error (.fault fault) := by
  rw [compose, h]
  rfl

/-- The map of a printed program passes `check`. -/
theorem check_printMapped {program : Node} {name : Option Text} {printed : Printed}
    (h : program.printMapped name = .ok printed) : ∃ edited,
      check .generated printed.map.toJson = .ok edited ∧
      Mappings.decode printed.map.mappings = .ok edited := by
  obtain ⟨chunks, -, h⟩ := exists_of_bind_eq_ok h
  cases h
  have hsorted := Chunk.pairwise_anchorsFrom program.source 0 chunks
  exact ⟨_, (check_toJson ..).trans (Mappings.decode_ofAnchors hsorted),
    Mappings.decode_ofAnchors hsorted⟩

/-- A program of one line about which nothing is said. -/
def oneLine : Node := .mk {} (.program [] (text "f();\n"))

end SourceMap
end FlagFold
