/-
  FlagFold.Proofs.Concrete.Faults

  The faults of a concrete syntax tree, found in two ways: the parser asks whether
  there is one anywhere below the root, and the check of a file lists the outermost
  ones down to a fixed depth.

  A place in a tree is given by the way to it from the root, a list of numbers of
  children.  In a walk that comes to each node before those below it the ways come in
  lexicographic order, so that "each once, in pre-order" is said of a list of ways by
  its being strictly ascending (`faults_ways`).
-/

import FlagFold.Command.Run
import FlagFold.Proofs.Tree.OfConcrete
import FlagFold.Proofs.World.Job

namespace FlagFold

namespace Concrete

/-! ## Ways down -/

/-- The node at the end of a way from the root: each step says how many children stand before the
one that it leads to. -/
def at? : Concrete → List Nat → Option Concrete
  | node, [] => some node
  | node, i :: way => node.children[i]?.bind (·.at? way)

/-- `way` leads from `root` to a fault. -/
def isFaultAt (root : Concrete) (way : List Nat) : Bool := (root.at? way).any isFault

/-- `way` leads to a fault, and to none before its end. -/
def IsOutermost (root : Concrete) (way : List Nat) : Prop :=
  root.isFaultAt way ∧ ∀ above, above <+: way → above ≠ way → ¬ root.isFaultAt above

/-- If `root` is a fault, all others are below it. -/
theorem isOutermost_of_isFault {root : Concrete} (h : root.isFault) (way : List Nat) :
    root.IsOutermost way ↔ way = [] := by
  have hroot : root.isFaultAt [] := h
  constructor
  · rintro ⟨-, habove⟩
    by_contra hway
    exact habove [] List.nil_prefix (Ne.symm hway) hroot
  · rintro rfl
    refine ⟨hroot, fun above habove hne => ?_⟩
    exact absurd (List.prefix_nil.mp habove) hne

theorem isOutermost_nil {root : Concrete} : root.IsOutermost [] ↔ root.isFault := by
  constructor
  · exact fun h => h.1
  · exact fun h => (isOutermost_of_isFault h []).mpr rfl

/-- If `root` is no fault, its outermost faults are those of its children. -/
theorem isOutermost_cons {root : Concrete} (h : ¬ root.isFault) (i : Nat) (way : List Nat) :
    root.IsOutermost (i :: way) ↔ ∃ c, root.children[i]? = some c ∧ c.IsOutermost way := by
  have hroot : ¬ root.isFaultAt [] := h
  have hstep : ∀ way, root.isFaultAt (i :: way) ↔
      ∃ c, root.children[i]? = some c ∧ c.isFaultAt way := by
    intro way
    simp only [isFaultAt, at?]
    cases root.children[i]? <;> simp
  constructor
  · rintro ⟨hfault, habove⟩
    obtain ⟨c, hc, hfault⟩ := (hstep way).mp hfault
    refine ⟨c, hc, hfault, fun above hprefix hne hbad => ?_⟩
    exact habove (i :: above) (by simpa using hprefix) (by simpa using hne)
      ((hstep above).mpr ⟨c, hc, hbad⟩)
  · rintro ⟨c, hc, hfault, habove⟩
    refine ⟨(hstep way).mpr ⟨c, hc, hfault⟩, fun above hprefix hne hbad => ?_⟩
    cases above with
    | nil => exact hroot hbad
    | cons j above =>
      obtain ⟨rfl, hrest⟩ := List.cons_prefix_cons.mp hprefix
      obtain ⟨c', hc', hbad⟩ := (hstep above).mp hbad
      obtain rfl : c = c' := Option.some.inj (hc.symm.trans hc')
      exact habove above hrest (by simpa using hne) hbad

/-! ## The faults that are listed -/

theorem faultsAmong_eq (levels : Nat) (nodes : List Concrete) :
    faultsAmong levels nodes = nodes.flatMap (faultsWithin levels) := by
  induction nodes with
  | nil => rw [faultsAmong]; rfl
  | cons node rest ih => rw [faultsAmong, ih, List.flatMap_cons]

theorem faultsWithin_eq (levels : Nat) (root : Concrete) :
    root.faultsWithin levels =
      if root.isFault then [root]
      else match levels with
        | 0 => []
        | levels + 1 => root.children.flatMap (faultsWithin levels) := by
  obtain ⟨kind, start, stop, field, anonymous, missing, children⟩ := root
  have hfault : (decide (kind = "ERROR") || missing) =
      isFault ⟨kind, start, stop, field, anonymous, missing, children⟩ := rfl
  cases levels with
  | zero => rw [faultsWithin, hfault]
  | succ levels => rw [faultsWithin, hfault, faultsAmong_eq]

/-- The ways to the faults that `faultsWithin` lists, in their order. -/
def faultWays (levels : Nat) (root : Concrete) : List (List Nat) :=
  if root.isFault then [[]]
  else match levels with
    | 0 => []
    | levels + 1 => root.children.zipIdx.flatMap fun p => (faultWays levels p.1).map (p.2 :: ·)

/-- `faultWays` are the outermost ones that are no longer than `levels`; by induction on
`levels`. -/
theorem mem_faultWays {levels : Nat} {root : Concrete} {way : List Nat} :
    way ∈ root.faultWays levels ↔ root.IsOutermost way ∧ way.length ≤ levels := by
  induction levels generalizing root way with
  | zero =>
    by_cases hroot : root.isFault
    · simp [faultWays, hroot, isOutermost_of_isFault hroot]
    · simp only [faultWays, if_neg hroot, List.not_mem_nil, Nat.le_zero, List.length_eq_zero_iff,
        false_iff, not_and]
      rintro hway rfl
      exact hroot (isOutermost_nil.mp hway)
  | succ levels ih =>
    by_cases hroot : root.isFault
    · simp +contextual [faultWays, hroot, isOutermost_of_isFault hroot]
    · rw [faultWays, if_neg hroot]
      cases way with
      | nil => simp [isOutermost_nil, hroot]
      | cons i way =>
        simp only [List.mem_flatMap, List.mem_map, Prod.exists, List.mem_zipIdx_iff_getElem?,
          List.cons.injEq, isOutermost_cons hroot, List.length_cons, Nat.add_le_add_iff_right]
        constructor
        · rintro ⟨c, j, hc, way, hway, rfl, rfl⟩
          obtain ⟨hway, hlength⟩ := ih.mp hway
          exact ⟨⟨c, hc, hway⟩, hlength⟩
        · rintro ⟨⟨c, hc, hway⟩, hlength⟩
          exact ⟨c, i, hc, way, ih.mpr ⟨hway, hlength⟩, rfl, rfl⟩

/-- `faultWays` are strictly increasing: no way comes twice, and all come in the order of a walk. -/
theorem pairwise_faultWays (levels : Nat) (root : Concrete) :
    (root.faultWays levels).Pairwise (· < ·) := by
  induction levels generalizing root with
  | zero => rw [faultWays]; split <;> simp
  | succ levels ih =>
    rw [faultWays]
    split
    · simp
    · have horder : root.children.zipIdx.Pairwise (·.2 < ·.2) := by
        rw [← List.pairwise_map, List.zipIdx_map_snd]
        exact List.pairwise_lt_range'
      rw [List.pairwise_flatMap]
      refine ⟨fun p _ => ?_, horder.imp ?_⟩
      · rw [List.pairwise_map]
        exact (ih p.1).imp fun h => List.cons_lt_cons_iff.mpr (.inr ⟨rfl, h⟩)
      · rintro p q hpq _ hp _ hq
        obtain ⟨way, -, rfl⟩ := List.mem_map.mp hp
        obtain ⟨way', -, rfl⟩ := List.mem_map.mp hq
        exact List.cons_lt_cons_iff.mpr (.inl hpq)

/-- `faultWays` lead to the faults that `faultsWithin` lists. -/
theorem map_at?_faultWays (levels : Nat) (root : Concrete) :
    (root.faultWays levels).map root.at? = (root.faultsWithin levels).map some := by
  induction levels generalizing root with
  | zero => rw [faultWays, faultsWithin_eq]; split <;> rfl
  | succ levels ih =>
    rw [faultWays, faultsWithin_eq]
    split
    · rfl
    · have hbelow : ∀ p ∈ root.children.zipIdx,
          ((p.1.faultWays levels).map (p.2 :: ·)).map root.at? =
            (p.1.faultsWithin levels).map some := by
        intro p hp
        have hchild : root.children[p.2]? = some p.1 := List.mem_zipIdx_iff_getElem?.mp hp
        rw [List.map_map, ← ih p.1]
        apply List.map_congr_left
        intro way _
        simp only [Function.comp_apply, at?, hchild, Option.bind_some]
      have hchildren : root.children = root.children.zipIdx.map (·.1) := by simp
      calc (root.children.zipIdx.flatMap fun p =>
            (p.1.faultWays levels).map (p.2 :: ·)).map root.at?
          = root.children.zipIdx.flatMap fun p => (p.1.faultsWithin levels).map some := by
            rw [List.map_flatMap, List.flatMap_congr hbelow]
        _ = (root.children.flatMap (faultsWithin levels)).map some := by
            rw [List.map_flatMap]
            conv_rhs => rw [hchildren, List.flatMap_map]

/-- `faults` are the outermost ones down to `faultDepth`, each once, in the order of a walk. -/
theorem faults_ways (root : Concrete) : ∃ ways : List (List Nat), ways.Pairwise (· < ·) ∧
    (∀ way, way ∈ ways ↔ root.IsOutermost way ∧ way.length ≤ faultDepth) ∧
    ways.map root.at? = root.faults.map some :=
  ⟨root.faultWays faultDepth, pairwise_faultWays faultDepth root, fun _ => mem_faultWays,
    map_at?_faultWays faultDepth root⟩

/-- `faults` is not empty just if some outermost fault is not deeper than `faultDepth`. -/
theorem faults_ne_nil_iff {root : Concrete} :
    root.faults ≠ [] ↔ ∃ way, root.IsOutermost way ∧ way.length ≤ faultDepth := by
  obtain ⟨ways, -, hmem, hways⟩ := faults_ways root
  have hnil : root.faults = [] ↔ ways = [] := by
    rw [← List.map_eq_nil_iff (f := some), ← hways, List.map_eq_nil_iff]
  rw [ne_eq, hnil, List.eq_nil_iff_forall_not_mem, not_forall]
  refine exists_congr fun way => ?_
  rw [not_not, hmem]

/-! ## The fault that is asked for -/

theorem anyFault_eq (nodes : List Concrete) : anyFault nodes = nodes.any hasFault := by
  induction nodes with
  | nil => rw [anyFault]; rfl
  | cons node rest ih => rw [anyFault, ih, List.any_cons]

theorem hasFault_eq (root : Concrete) :
    root.hasFault = (root.isFault || root.children.any hasFault) := by
  obtain ⟨kind, start, stop, field, anonymous, missing, children⟩ := root
  rw [hasFault, anyFault_eq]
  rfl

/-- `hasFault` says that there is an outermost fault; by induction on the size of the tree. -/
theorem hasFault_iff (root : Concrete) : root.hasFault ↔ ∃ way, root.IsOutermost way := by
  induction hsize : sizeOf root using Nat.strongRecOn generalizing root with
  | ind size ih =>
    by_cases hroot : root.isFault
    · simp [hasFault_eq, hroot, isOutermost_of_isFault hroot]
    · have hchildren : ∀ c ∈ root.children, c.hasFault ↔ ∃ way, c.IsOutermost way :=
        fun c hc => ih _ (hsize ▸ sizeOf_lt_of_mem_children hc) c rfl
      rw [hasFault_eq, Bool.or_eq_true, List.any_eq_true]
      constructor
      · rintro (hfault | ⟨c, hc, hfault⟩)
        · exact absurd hfault hroot
        · obtain ⟨way, hway⟩ := (hchildren c hc).mp hfault
          obtain ⟨i, hi⟩ := List.mem_iff_getElem?.mp hc
          exact ⟨i :: way, (isOutermost_cons hroot i way).mpr ⟨c, hi, hway⟩⟩
      · rintro ⟨way, hway⟩
        cases way with
        | nil => exact absurd (isOutermost_nil.mp hway) hroot
        | cons i way =>
          obtain ⟨c, hi, hway⟩ := (isOutermost_cons hroot i way).mp hway
          have hc : c ∈ root.children := List.mem_of_getElem? hi
          exact .inr ⟨c, hc, (hchildren c hc).mpr ⟨way, hway⟩⟩

end Concrete

/-! ## The parser -/

/-- `parseModule` of a source that has the concrete tree `root`. -/
theorem parseModule_eq {trees : List (Text × Concrete)} {language : Language} {source : Text}
    {root : Concrete} {known : Bool} (h : concreteTree trees language source = some (root, known))
    (file : Text) :
    parseModule trees source language.name file =
      if root.hasFault then
        .error (.unparsable
          ⟨file, some (root.faults.map (Problem.ofFault (SourceIndex.ofText source)))⟩)
      else (root.toProgram source).mapError .noCodePoint := by
  have hlanguage : languageNamed language.name = .ok language := by cases language <;> rfl
  unfold parseModule
  rw [hlanguage]
  simp only [bind, Except.bind, h]
  rfl

/-- `parseModule` refuses a source if its tree has a fault, and then with the `faults` of it. -/
theorem parseModule_eq_unparsable_iff {trees : List (Text × Concrete)} {language : Language}
    {source : Text} {root : Concrete} {known : Bool}
    (h : concreteTree trees language source = some (root, known)) (file : Text)
    (fault : SyntaxFault) :
    parseModule trees source language.name file = .error (.unparsable fault) ↔
      root.hasFault ∧
        fault = ⟨file, some (root.faults.map (Problem.ofFault (SourceIndex.ofText source)))⟩ := by
  rw [parseModule_eq h]
  split
  case isTrue hfault => simp [hfault, eq_comm]
  case isFalse hfault =>
    cases root.toProgram source <;> simp [hfault, Except.mapError]

/-! ## The check of a file -/

namespace Command

variable {settings : Settings} {path source : Text} {w mid : World} {root : Concrete} {known : Bool}

theorem run_readSource (h : (Job.readText path).run settings w = (.ok source, mid)) :
    (readSource path).run settings w = (.ok (some source), mid) := by
  unfold readSource
  rw [Job.run_bind, Job.run_tryCatch, Job.run_bind, Job.run_map, h]
  rfl

theorem run_treeOf (h : concreteTree settings.trees (.ofPath path) source = some (root, known)) :
    (treeOf path source).run settings w = (.ok (some root), w) := by
  unfold treeOf
  rw [Job.run_read_bind, h]
  rfl

/-- `checkFile` passes a file that can be read if there are no complaints. -/
theorem run_checkFile (hread : (Job.readText path).run settings w = (.ok source, mid))
    (htree : concreteTree settings.trees (.ofPath path) source = some (root, known)) :
    ((checkFile path).run settings w).1 =
      .ok (root.complaints (SourceIndex.ofText source)).isEmpty := by
  have hsay : ∀ c : Complaint, (Job.error (path ++ text ":" ++ Text.ofNat c.line ++ text ":" ++
      Text.ofNat c.byteColumn ++ text ": " ++ c.message)).Yields () := fun _ _ _ => rfl
  unfold checkFile
  rw [Job.run_bind, run_readSource hread]
  dsimp only
  rw [Job.run_bind, run_treeOf htree]
  dsimp only
  rw [(Job.yields_forIn hsay).run_bind]
  rfl

end Command

/-! ## Both -/

/-- `parseModule` refuses a source just if its tree has a fault, at whatever depth. The `complaints`
are about the outermost faults, each once and in order, but only down to `faultDepth`. So the two
agree unless all outermost faults are deeper than that; `checkFile` then passes a file that cannot
be parsed. -/
theorem complaints_iff_unparsable {trees : List (Text × Concrete)} {language : Language}
    {source : Text} {root : Concrete} {known : Bool}
    (h : concreteTree trees language source = some (root, known)) (file : Text) :
    let complaints := root.complaints (SourceIndex.ofText source)
    let refused := ∃ fault, parseModule trees source language.name file = .error (.unparsable fault)
    (refused ↔ ∃ way, root.IsOutermost way) ∧
    (complaints ≠ [] ↔ ∃ way, root.IsOutermost way ∧ way.length ≤ Concrete.faultDepth) ∧
    ((complaints ≠ [] ↔ refused) ↔ ((∃ way, root.IsOutermost way) →
      ∃ way, root.IsOutermost way ∧ way.length ≤ Concrete.faultDepth)) ∧
    (∃ ways : List (List Nat), ways.Pairwise (· < ·) ∧
      (∀ way, way ∈ ways ↔ root.IsOutermost way ∧ way.length ≤ Concrete.faultDepth) ∧
      ways.map root.at? = root.faults.map some ∧ complaints.length = ways.length ∧
      ∀ fault, parseModule trees source language.name file = .error (.unparsable fault) →
        fault.problems = some (root.faults.map (Problem.ofFault (SourceIndex.ofText source)))) ∧
    ∀ (settings : Settings) (path : Text) (w mid : World), settings.trees = trees →
      Language.ofPath path = language →
      (Job.readText path).run settings w = (.ok source, mid) →
      ((Command.checkFile path).run settings w).1 = .ok complaints.isEmpty := by
  intro complaints refused
  have hrefused : refused ↔ ∃ way, root.IsOutermost way := by
    rw [← Concrete.hasFault_iff]
    constructor
    · rintro ⟨fault, hfault⟩
      exact ((parseModule_eq_unparsable_iff h file fault).mp hfault).1
    · exact fun hfault => ⟨_, (parseModule_eq_unparsable_iff h file _).mpr ⟨hfault, rfl⟩⟩
  have hcomplaints : complaints ≠ [] ↔
      ∃ way, root.IsOutermost way ∧ way.length ≤ Concrete.faultDepth :=
    (not_congr List.map_eq_nil_iff).trans Concrete.faults_ne_nil_iff
  refine ⟨hrefused, hcomplaints, ?_, ?_, ?_⟩
  · rw [hcomplaints, hrefused]
    constructor
    · exact fun hagree => hagree.mpr
    · exact fun hshallow => ⟨fun ⟨way, hway, _⟩ => ⟨way, hway⟩, hshallow⟩
  · obtain ⟨ways, hascending, hmem, hways⟩ := root.faults_ways
    have hlength : complaints.length = ways.length := by
      have hfaults := congrArg List.length hways
      simp only [List.length_map] at hfaults
      rw [hfaults]
      exact List.length_map _
    refine ⟨ways, hascending, hmem, hways, hlength, fun fault hfault => ?_⟩
    rw [((parseModule_eq_unparsable_iff h file fault).mp hfault).2]
  · rintro settings path w mid rfl rfl hread
    exact Command.run_checkFile hread h

/-- The tree of two names that nothing parts: the second is no part of a statement. -/
def twoNames : Concrete where
  kind := "program"
  start := 0
  stop := 3
  children := [
    { kind := "expression_statement", start := 0, stop := 3
      children := [
        { kind := "ERROR", start := 0, stop := 1
          children := [{ kind := "identifier", start := 0, stop := 1 }] },
        { kind := "identifier", start := 2, stop := 3 }] }]

/-- The fault in `twoNames` is found in both ways. -/
theorem complaints_iff_unparsable_twoNames :
    let trees := [(text "a b", twoNames)]
    concreteTree trees .javascript (text "a b") = some (twoNames, true) ∧
      (∃ fault, parseModule trees (text "a b") Language.javascript.name (text "a.js") =
        .error (.unparsable fault)) ∧
      twoNames.complaints (SourceIndex.ofText (text "a b")) ≠ [] := by
  intro trees
  have htree : concreteTree trees .javascript (text "a b") = some (twoNames, true) := rfl
  obtain ⟨hrefused, hcomplaints, -⟩ := complaints_iff_unparsable htree (text "a.js")
  have hstatement : ∃ c, twoNames.children[0]? = some c ∧ c.IsOutermost [0] :=
    ⟨_, rfl, (Concrete.isOutermost_cons (by decide) 0 []).mpr
      ⟨_, rfl, Concrete.isOutermost_nil.mpr (by decide)⟩⟩
  have hway : twoNames.IsOutermost [0, 0] :=
    (Concrete.isOutermost_cons (by decide) 0 [0]).mpr hstatement
  exact ⟨htree, hrefused.mpr ⟨_, hway⟩, hcomplaints.mpr ⟨_, hway, by decide⟩⟩

/-- A list in lists, `levels` of them, from the one that starts at `start` on; the innermost has the
given `items`. All end as far from the end of the text, at `width`, as they start from 0. -/
def listInLists (items : List Concrete) (width : Nat) : (levels start : Nat) → Concrete
  | 0, start => inBrackets items start
  | levels + 1, start => inBrackets [listInLists items width levels (start + 1)] start
where
  /-- One list, with `items` in it. -/
  inBrackets (items : List Concrete) (start : Nat) : Concrete :=
    { kind := "array", start, stop := width - start
      children :=
        { kind := "[", start, stop := start + 1, anonymous := true } :: items ++
          [{ kind := "]", start := width - start - 1, stop := width - start, anonymous := true }] }

/-- The text of 199 lists in each other, the innermost with two numbers that nothing parts. -/
def deepLists : Text :=
  List.replicate 199 (CodePoint.ofChar '[') ++ text "1 2" ++
    List.replicate 199 (CodePoint.ofChar ']')

/-- The tree of `deepLists`. -/
def deepListsTree : Concrete where
  kind := "program"
  start := 0
  stop := 401
  children := [
    { kind := "expression_statement", start := 0, stop := 401
      children := [listInLists [
        { kind := "ERROR", start := 199, stop := 200
          children := [{ kind := "number", start := 199, stop := 200 }] },
        { kind := "number", start := 201, stop := 202 }] 401 198 0] }]

set_option maxRecDepth 10000 in
/-- The fault in `deepListsTree` is 201 levels below the root: the parser refuses the source, and
the check has nothing to complain of. -/
theorem complaints_eq_nil_deepLists :
    let trees := [(deepLists, deepListsTree)]
    concreteTree trees .javascript deepLists = some (deepListsTree, true) ∧
      (∃ fault, parseModule trees deepLists Language.javascript.name (text "a.js") =
        .error (.unparsable fault)) ∧
      deepListsTree.complaints (SourceIndex.ofText deepLists) = [] := by
  intro trees
  have htree : concreteTree trees .javascript deepLists = some (deepListsTree, true) := by
    simp [concreteTree, trees]
  have hfault : deepListsTree.hasFault := by decide +kernel
  have hnone : deepListsTree.faults.isEmpty := by decide +kernel
  refine ⟨htree, ⟨_, (parseModule_eq_unparsable_iff htree (text "a.js") _).mpr ⟨hfault, rfl⟩⟩, ?_⟩
  exact List.map_eq_nil_iff.mpr (List.isEmpty_iff.mp hnone)

end FlagFold
