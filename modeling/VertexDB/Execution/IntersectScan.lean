import VertexDB.Execution.ScanCorrect

/-!
# What an intersection of index probes returns

`tryPlanAndIntersect` intersects the row ids of the conjuncts that an index serves: an equality by
its probe, an OR by the union of the probes of its served arms. The rows that an OR needs its other
arms for come from one complementary scan, in which every OR with unserved arms is cut down to
these. So a row that needs the unserved arms of one OR and the served arms of another is found by
neither.
-/

namespace VertexDB

open Planner List

section Arms

variable {σ : Type} {indexes : IndexCatalog} {conjunct : Predicate σ}

/-- The arms of a conjunct that are equality probes. -/
def servedArms (indexes : IndexCatalog) (conjunct : Predicate σ) : List (Predicate σ) :=
  (collectOrDisjuncts conjunct).filter (isEqualityIndexProbe indexes)

/-- The arms of a conjunct that no probe serves. -/
def unservedArms (indexes : IndexCatalog) (conjunct : Predicate σ) : List (Predicate σ) :=
  (collectOrDisjuncts conjunct).filter fun arm => !isEqualityIndexProbe indexes arm

/-- Some arms of the conjunct are served and some are not. -/
def PartlyServed (indexes : IndexCatalog) (conjunct : Predicate σ) : Prop :=
  servedArms indexes conjunct ≠ [] ∧ unservedArms indexes conjunct ≠ []

instance (indexes : IndexCatalog) (conjunct : Predicate σ) :
    Decidable (PartlyServed indexes conjunct) :=
  decidable_of_iff ((servedArms indexes conjunct).isEmpty = false ∧
    (unservedArms indexes conjunct).isEmpty = false) (by simp [PartlyServed])

theorem collectOrDisjuncts_of_isEqualityIndexProbe
    (h : isEqualityIndexProbe indexes conjunct = true) :
    collectOrDisjuncts conjunct = [conjunct] := by
  cases conjunct with
  | comparison node => rfl
  | _ => cases h

theorem tryMakeOrUnionSplit_eq (h : isEqualityIndexProbe indexes conjunct = false) :
    tryMakeOrUnionSplit indexes conjunct =
      if servedArms indexes conjunct = [] then none
      else some
        { probes := (servedArms indexes conjunct).map fun arm => .probe (makeEqualityProbe arm)
          residualDisjuncts := unservedArms indexes conjunct } := by
  cases conjunct with
  | or left right =>
    simp only [tryMakeOrUnionSplit, splitDisjuncts, List.isEmpty_iff, List.map_eq_nil_iff]
    rfl
  | _ => simp [tryMakeOrUnionSplit, servedArms, collectOrDisjuncts, h]

/-- A conjunct gives a node to the intersection just when it has served arms; the node has the row
ids of their probes. -/
theorem intersectChild_cases (t : Table) (conjunct : Predicate σ) :
    servedArms t.catalog conjunct = [] ∧ intersectChild t.catalog conjunct = none ∨
    servedArms t.catalog conjunct ≠ [] ∧ ∃ node,
      intersectChild t.catalog conjunct = some (node, unservedArms t.catalog conjunct) ∧
      ∀ r, r ∈ evalBitmapNode t node ↔ ∃ arm ∈ servedArms t.catalog conjunct,
        r ∈ evalBitmapNode t (.probe (makeEqualityProbe arm)) := by
  cases hprobe : isEqualityIndexProbe t.catalog conjunct with
  | true =>
    have harms := collectOrDisjuncts_of_isEqualityIndexProbe hprobe
    refine Or.inr ⟨by simp [servedArms, harms, hprobe], .probe (makeEqualityProbe conjunct), ?_, ?_⟩
    · simp [intersectChild, hprobe, unservedArms, harms]
    · simp [servedArms, harms, hprobe]
  | false =>
    have hsplit := tryMakeOrUnionSplit_eq hprobe
    by_cases hserved : servedArms t.catalog conjunct = []
    · exact Or.inl ⟨hserved, by simp [intersectChild, hprobe, hsplit, hserved]⟩
    · refine Or.inr ⟨hserved, .union ((servedArms t.catalog conjunct).map
        fun arm => .probe (makeEqualityProbe arm)), ?_, fun r => ?_⟩
      · simp [intersectChild, hprobe, hsplit, hserved]
      · rw [evalBitmapNode, mem_evalUnionChildren]
        simp

end Arms

section Complement

variable {σ : Type} {indexes : IndexCatalog}

/-- What the complementary predicate has in the place of a conjunct. -/
def complementPart (indexes : IndexCatalog) (conjunct : Predicate σ) : Predicate σ :=
  if PartlyServed indexes conjunct then (buildOrTree (unservedArms indexes conjunct)).getD conjunct
  else conjunct

theorem complementPart_of_isEqualityIndexProbe {conjunct : Predicate σ}
    (h : isEqualityIndexProbe indexes conjunct = true) :
    complementPart indexes conjunct = conjunct := by
  rw [complementPart, if_neg]
  rintro ⟨-, hunserved⟩
  simp [unservedArms, collectOrDisjuncts_of_isEqualityIndexProbe h, h] at hunserved

/-- The complementary predicate is the conjunction of these parts, in another order. -/
theorem complementaryPredicate_eq (indexes : IndexCatalog) (conjuncts : List (Predicate σ)) :
    ∃ parts, complementaryPredicate indexes conjuncts = buildAndTree parts ∧
      ∀ part, part ∈ parts ↔ ∃ conjunct ∈ conjuncts, part = complementPart indexes conjunct := by
  refine ⟨_, rfl, fun part => ?_⟩
  simp only [mem_append, mem_filter, mem_filterMap, Bool.not_eq_true']
  constructor
  · rintro ((⟨hmem, hprobe⟩ | ⟨conjunct, ⟨hmem, hprobe⟩, hpart⟩) | ⟨⟨hmem, hprobe⟩, hnone⟩)
    · exact ⟨part, hmem, (complementPart_of_isEqualityIndexProbe hprobe).symm⟩
    · refine ⟨conjunct, hmem, ?_⟩
      rw [tryMakeOrUnionSplit_eq hprobe] at hpart
      by_cases hserved : servedArms indexes conjunct = []
      · simp [hserved] at hpart
      by_cases hunserved : unservedArms indexes conjunct = []
      · rw [complementPart, if_neg fun h => h.2 hunserved]
        simpa [hserved, hunserved, eq_comm] using hpart
      · have htree : buildOrTree (unservedArms indexes conjunct) = some part := by
          simpa [hserved, hunserved] using hpart
        rw [complementPart, if_pos ⟨hserved, hunserved⟩, htree, Option.getD_some]
    · rw [tryMakeOrUnionSplit_eq hprobe] at hnone
      have hserved : servedArms indexes part = [] := by
        by_contra hne
        simp [hne] at hnone
      exact ⟨part, hmem, by rw [complementPart, if_neg fun h => h.1 hserved]⟩
  · rintro ⟨conjunct, hmem, rfl⟩
    cases hprobe : isEqualityIndexProbe indexes conjunct with
    | true =>
      rw [complementPart_of_isEqualityIndexProbe hprobe]
      exact Or.inl (Or.inl ⟨hmem, hprobe⟩)
    | false =>
      have hsplit := tryMakeOrUnionSplit_eq hprobe
      by_cases hserved : servedArms indexes conjunct = []
      · rw [complementPart, if_neg fun h => h.1 hserved]
        exact Or.inr ⟨⟨hmem, hprobe⟩, by simp [hsplit, hserved]⟩
      · refine Or.inl (Or.inr ⟨conjunct, ⟨hmem, hprobe⟩, ?_⟩)
        by_cases hunserved : unservedArms indexes conjunct = []
        · rw [complementPart, if_neg fun h => h.2 hunserved]
          simp [hsplit, hserved, hunserved]
        · obtain ⟨tree, htree⟩ := exists_buildOrTree hunserved
          rw [complementPart, if_pos ⟨hserved, hunserved⟩, htree]
          simp [hsplit, hserved, hunserved, htree]

end Complement

section Scan

variable {σ C : Type} [CostArith C] {runtime : PredicateRuntime σ} {t : Table} {scope : String}
  {snapshot : ReadSnapshot} {m : TransactionManager} {conjuncts : List (Predicate σ)}

/-- The scan succeeds, and the row ids it returns are those of the visible rows on which every
conjunct is true. -/
def SelectsAll (runtime : PredicateRuntime σ) (t : Table) (scope : String) (snapshot : ReadSnapshot)
    (m : TransactionManager) (conjuncts : List (Predicate σ))
    (result : Except Error (List (ℕ × Row))) : Prop :=
  ∃ entries, result = .ok entries ∧ ∀ r, r ∈ entries.map Prod.fst ↔
    ∃ row, t.versions.read r snapshot m = some row ∧
      ∀ conjunct ∈ conjuncts, matchesPredicate runtime t scope row conjunct = .ok true

section Rows

variable {row : Row} {conjunct : Predicate σ} {b : Bool}

/-- A conjunct that evaluates is true just when one of its arms is. -/
theorem matchesPredicate_conjunct (h : matchesPredicate runtime t scope row conjunct = .ok b) :
    b = true ↔ ∃ arm ∈ collectOrDisjuncts conjunct,
      matchesPredicate runtime t scope row arm = .ok true := by
  rw [← evalAny_collectOrDisjuncts] at h
  exact evalAny_eq_true_iff h

/-- The part of a partly served conjunct is true just when an unserved arm is. -/
theorem matchesPredicate_complementPart
    (h : matchesPredicate runtime t scope row (complementPart t.catalog conjunct) = .ok b) :
    b = true ↔ if PartlyServed t.catalog conjunct then
        ∃ arm ∈ unservedArms t.catalog conjunct, matchesPredicate runtime t scope row arm = .ok true
      else matchesPredicate runtime t scope row conjunct = .ok true := by
  rw [complementPart] at h
  split_ifs at h ⊢ with hpartly
  · obtain ⟨tree, htree⟩ := exists_buildOrTree hpartly.2
    rw [htree, Option.getD_some, matchesPredicate_buildOrTree runtime t scope row htree] at h
    exact evalAny_eq_true_iff h
  · rw [h, Except.ok.injEq]

/-- The complementary predicate, where it evaluates, is true just when the parts of all conjuncts
are. -/
theorem matchesPredicate_complementaryPredicate {complementary : Predicate σ}
    (h : complementaryPredicate t.catalog conjuncts = some complementary)
    (hb : matchesPredicate runtime t scope row complementary = .ok b) :
    b = true ↔ ∀ conjunct ∈ conjuncts, if PartlyServed t.catalog conjunct then
        ∃ arm ∈ unservedArms t.catalog conjunct, matchesPredicate runtime t scope row arm = .ok true
      else matchesPredicate runtime t scope row conjunct = .ok true := by
  obtain ⟨parts, hparts, hmem⟩ := complementaryPredicate_eq t.catalog conjuncts
  rw [hparts] at h
  rw [matchesPredicate_buildAndTree runtime t scope row h] at hb
  cases b with
  | true =>
    refine iff_of_true rfl fun conjunct hconj => ?_
    have hpart := evalAll_eq_true.mp hb _ ((hmem _).mpr ⟨conjunct, hconj, rfl⟩)
    exact (matchesPredicate_complementPart hpart).mp rfl
  | false =>
    refine iff_of_false Bool.false_ne_true fun hall => ?_
    obtain ⟨part, hpart, hfalse⟩ := exists_of_evalAll_eq_false hb
    obtain ⟨conjunct, hconj, rfl⟩ := (hmem part).mp hpart
    cases (matchesPredicate_complementPart hfalse).mpr (hall conjunct hconj)

end Rows

/-- The row has the key of a served arm of every conjunct that has served arms. -/
def KeysFound (t : Table) (row : Row) (conjuncts : List (Predicate σ)) : Prop :=
  ∀ conjunct ∈ conjuncts, servedArms t.catalog conjunct ≠ [] →
    ∃ arm ∈ servedArms t.catalog conjunct, ProbeFinds t row arm

/-- The intersection returns the row: it has the keys, and the conjuncts without served arms are
true. -/
def Intersected (runtime : PredicateRuntime σ) (t : Table) (scope : String) (row : Row)
    (conjuncts : List (Predicate σ)) : Prop :=
  KeysFound t row conjuncts ∧ ∀ conjunct ∈ conjuncts, servedArms t.catalog conjunct = [] →
    matchesPredicate runtime t scope row conjunct = .ok true

theorem mem_intersection_iff (ht : t.HashServes fun r => t.versions.read r snapshot m)
    (hne : conjuncts.filterMap (intersectChild t.catalog) ≠ []) {r : ℕ} {row : Row}
    (hread : t.versions.read r snapshot m = some row) :
    r ∈ evalIntersectChildren t none
      ((conjuncts.filterMap (intersectChild t.catalog)).map Prod.fst) ↔
      KeysFound t row conjuncts := by
  simp only [mem_evalIntersectChildren (mt map_eq_nil_iff.mp hne), forall_mem_map, mem_filterMap,
    forall_exists_index, and_imp]
  constructor
  · intro hall conjunct hmem hserved
    rcases intersectChild_cases t conjunct with ⟨hnil, -⟩ | ⟨-, node, hchild, hnode⟩
    · exact absurd hnil hserved
    · obtain ⟨arm, harm, hr⟩ := (hnode r).mp (hall _ conjunct hmem hchild)
      exact ⟨arm, harm, (mem_probe_iff ht (mem_filter.mp harm).2 hread).mp hr⟩
  · intro hall child conjunct hmem hchild
    rcases intersectChild_cases t conjunct with ⟨-, hnone⟩ | ⟨hserved, node, hsome, hnode⟩
    · rw [hnone] at hchild
      cases hchild
    · obtain ⟨arm, harm, hfinds⟩ := hall conjunct hmem hserved
      rw [hsome] at hchild
      obtain rfl := Option.some.inj hchild
      exact (hnode r).mpr ⟨arm, harm, (mem_probe_iff ht (mem_filter.mp harm).2 hread).mpr hfinds⟩

/-- The candidates of the intersection that the residual conjuncts leave. -/
theorem exists_applyResidual
    (heval : ∀ conjunct ∈ conjuncts, Evaluable runtime t scope snapshot m conjunct)
    (rowIds : List ℕ) (keep : Predicate σ → Bool) :
    ∃ out, applyResidual (fun p row => matchesPredicate runtime t scope row p)
        (buildAndTree (conjuncts.filter keep)) (t.versions.visibleEntriesById rowIds snapshot m) =
          .ok out ∧
      ∀ r row, (r, row) ∈ out ↔ (r ∈ rowIds ∧ t.versions.read r snapshot m = some row) ∧
        ∀ conjunct ∈ conjuncts, keep conjunct = true →
          matchesPredicate runtime t scope row conjunct = .ok true := by
  have hmem := t.versions.mem_visibleEntriesById rowIds snapshot m
  rcases htree : buildAndTree (conjuncts.filter keep) with _ | residual
  · have hnil : conjuncts.filter keep = [] := by
      by_contra hne
      obtain ⟨p, hp⟩ := exists_buildAndTree hne
      rw [hp] at htree
      cases htree
    refine ⟨_, rfl, fun r row => ?_⟩
    rw [hmem, iff_self_and]
    intro _ conjunct hconj hkeep
    exact absurd hkeep (filter_eq_nil_iff.mp hnil conjunct hconj)
  · have htrees := fun row => matchesPredicate_buildAndTree runtime t scope row htree
    obtain ⟨kept, hkept, hmemKept⟩ := exists_filterEntries
      (fun row => matchesPredicate runtime t scope row residual)
      (t.versions.visibleEntriesById rowIds snapshot m) (by
        rintro ⟨r, row⟩ hentry
        rw [htrees]
        exact exists_evalAll fun conjunct hconj =>
          heval conjunct (mem_filter.mp hconj).1 r row ((hmem r row).mp hentry).2)
    refine ⟨kept, hkept, fun r row => ?_⟩
    rw [hmemKept, hmem, htrees, evalAll_eq_true]
    simp only [mem_filter, and_imp]

section Plan

variable {stats : RelationStats C} {bestCost : C} {plan : QueryPlan σ}

theorem isNone_intersectChild (t : Table) (conjunct : Predicate σ) :
    (intersectChild t.catalog conjunct).isNone = true ↔ servedArms t.catalog conjunct = [] := by
  rcases intersectChild_cases t conjunct with ⟨hserved, hnone⟩ | ⟨hserved, node, hsome, -⟩
  · simp [hserved, hnone]
  · simp [hserved, hsome]

theorem any_intersectChild (t : Table) (conjuncts : List (Predicate σ)) :
    (conjuncts.filterMap (intersectChild t.catalog)).any (fun child => !child.2.isEmpty) = true ↔
      ∃ conjunct ∈ conjuncts, PartlyServed t.catalog conjunct := by
  simp only [any_eq_true, mem_filterMap, Bool.not_eq_true', isEmpty_eq_false_iff]
  constructor
  · rintro ⟨child, ⟨conjunct, hmem, hchild⟩, hne⟩
    rcases intersectChild_cases t conjunct with ⟨-, hnone⟩ | ⟨hserved, node, hsome, -⟩
    · rw [hnone] at hchild
      cases hchild
    · rw [hsome] at hchild
      obtain rfl := Option.some.inj hchild
      exact ⟨conjunct, hmem, hserved, hne⟩
  · rintro ⟨conjunct, hmem, hserved, hne⟩
    rcases intersectChild_cases t conjunct with ⟨hnil, -⟩ | ⟨-, node, hsome, -⟩
    · exact absurd hnil hserved
    · exact ⟨_, ⟨conjunct, hmem, hsome⟩, hne⟩

theorem tryPlanAndIntersect_eq_some
    (h : tryPlanAndIntersect conjuncts stats t.catalog bestCost = some plan) :
    conjuncts.filterMap (intersectChild t.catalog) ≠ [] ∧ plan =
      { path := .intersect ((conjuncts.filterMap (intersectChild t.catalog)).map Prod.fst)
        residual := buildAndTree (conjuncts.filter fun conjunct =>
          (intersectChild t.catalog conjunct).isNone)
        complementaryResidual :=
          if (conjuncts.filterMap (intersectChild t.catalog)).any
            (fun child => !child.2.isEmpty) then
            complementaryPredicate t.catalog conjuncts
          else none } := by
  simp only [tryPlanAndIntersect] at h
  split at h
  · cases h
  rename_i hlen
  split at h
  · cases h
  refine ⟨fun hnil => hlen ?_, (Option.some.inj h).symm⟩
  simp [hnil]

/-- What the plan of an intersection returns: the rows of the intersection and, when some OR is
partly served, those on which the complementary predicate is true. It succeeds when that predicate
evaluates on the rows that the intersection does not return. -/
theorem collectVisibleEntries_intersect (ht : t.HashServes fun r => t.versions.read r snapshot m)
    (heval : ∀ conjunct ∈ conjuncts, Evaluable runtime t scope snapshot m conjunct)
    (hplan : tryPlanAndIntersect conjuncts stats t.catalog bestCost = some plan)
    (filter : Option (Predicate σ)) :
    ((∃ entries, collectVisibleEntries runtime t scope snapshot m filter plan = .ok entries) ↔
      ∀ r row, t.versions.read r snapshot m = some row →
        (∃ conjunct ∈ conjuncts, PartlyServed t.catalog conjunct) →
        ¬Intersected runtime t scope row conjuncts →
        ∀ q, complementaryPredicate t.catalog conjuncts = some q →
          ∃ b, matchesPredicate runtime t scope row q = .ok b) ∧
    ∀ entries, collectVisibleEntries runtime t scope snapshot m filter plan = .ok entries →
      ∀ r, r ∈ entries.map Prod.fst ↔ ∃ row, t.versions.read r snapshot m = some row ∧
        (Intersected runtime t scope row conjuncts ∨
          (∃ conjunct ∈ conjuncts, PartlyServed t.catalog conjunct) ∧
            ∀ conjunct ∈ conjuncts, if PartlyServed t.catalog conjunct then
                ∃ arm ∈ unservedArms t.catalog conjunct,
                  matchesPredicate runtime t scope row arm = .ok true
              else matchesPredicate runtime t scope row conjunct = .ok true) := by
  obtain ⟨hne, rfl⟩ := tryPlanAndIntersect_eq_some hplan
  obtain ⟨out, hout, hmemOut⟩ := exists_applyResidual heval
    (evalIntersectChildren t none ((conjuncts.filterMap (intersectChild t.catalog)).map Prod.fst))
    fun conjunct => (intersectChild t.catalog conjunct).isNone
  have hkept : ∀ r row, (r, row) ∈ out ↔ t.versions.read r snapshot m = some row ∧
      Intersected runtime t scope row conjuncts := by
    intro r row
    rw [hmemOut]
    simp only [isNone_intersectChild]
    constructor
    · rintro ⟨⟨hr, hread⟩, hall⟩
      exact ⟨hread, (mem_intersection_iff ht hne hread).mp hr, hall⟩
    · rintro ⟨hread, hkeys, hall⟩
      exact ⟨⟨(mem_intersection_iff ht hne hread).mpr hkeys, hread⟩, hall⟩
  simp only [collectVisibleEntries, any_intersectChild]
  rw [ite_applyResidual_bind, hout, Exec.except_ok_bind]
  by_cases hpartly : ∃ conjunct ∈ conjuncts, PartlyServed t.catalog conjunct
  · obtain ⟨parts, hparts, hmemParts⟩ := complementaryPredicate_eq t.catalog conjuncts
    obtain ⟨q, hq⟩ : ∃ q, complementaryPredicate t.catalog conjuncts = some q := by
      obtain ⟨conjunct, hmem, -⟩ := hpartly
      rw [hparts]
      exact exists_buildAndTree (ne_nil_of_mem ((hmemParts _).mpr ⟨conjunct, hmem, rfl⟩))
    -- a row that the intersection has is not scanned again
    have hscanned : ∀ entry : ℕ × Row, entry ∈ ((t.versions.visibleEntries snapshot m).filter
        fun entry => !(out.map Prod.fst).contains entry.1) ↔
        t.versions.read entry.1 snapshot m = some entry.2 ∧
          ¬Intersected runtime t scope entry.2 conjuncts := by
      rintro ⟨r, row⟩
      rw [mem_filter, t.versions.mem_visibleEntries, and_congr_right_iff]
      intro hread
      simp [hkept, hread]
    simp only [hq, complementaryScan, Option.some.injEq, forall_eq', hpartly, if_true, true_implies,
      true_and]
    refine ⟨⟨?_, fun hscan => ?_⟩, fun entries hok r => ?_⟩
    · rintro ⟨entries, hok⟩ r row hread hrow
      obtain ⟨added, hadded, -⟩ := Exec.except_bind_eq_ok.mp hok
      exact (filterEntries_eq_ok.mp hadded).1 (r, row) ((hscanned _).mpr ⟨hread, hrow⟩)
    · obtain ⟨added, hadded, -⟩ := exists_filterEntries
        (fun row => matchesPredicate runtime t scope row q) _ fun entry hentry =>
          hscan entry.1 entry.2 ((hscanned entry).mp hentry).1 ((hscanned entry).mp hentry).2
      exact ⟨out ++ added, Exec.except_bind_eq_ok.mpr ⟨added, hadded, rfl⟩⟩
    · obtain ⟨added, hadded, hentries⟩ := Exec.except_bind_eq_ok.mp hok
      obtain rfl := Except.ok.inj hentries
      simp only [mem_map_fst, mem_append, hkept, mem_filterEntries hadded, hscanned]
      refine exists_congr fun row => ?_
      rw [and_assoc, ← and_or_left, and_congr_right_iff]
      intro hread
      by_cases hrow : Intersected runtime t scope row conjuncts
      · simp [hrow]
      · obtain ⟨b, hb⟩ := (filterEntries_eq_ok.mp hadded).1 (r, row)
          ((hscanned _).mpr ⟨hread, hrow⟩)
        rw [← matchesPredicate_complementaryPredicate hq hb, hb]
        simp [hrow]
  · simp only [hpartly, false_implies, implies_true, iff_true, false_and, or_false]
    refine ⟨⟨out, rfl⟩, fun entries hok r => ?_⟩
    obtain rfl := Except.ok.inj hok
    simp only [mem_map_fst, hkept]

/-- When the plan of an intersection returns the rows on which every conjunct is true: when no row
of the intersection fails a conjunct, every row on which all conjuncts are true is in the
intersection or, some OR being partly served, has an unserved arm of every partly served OR true,
and the complementary predicate, if there is one, evaluates on the other rows. -/
theorem selectsAll_intersect_iff (ht : t.HashServes fun r => t.versions.read r snapshot m)
    (heval : ∀ conjunct ∈ conjuncts, Evaluable runtime t scope snapshot m conjunct)
    (hplan : tryPlanAndIntersect conjuncts stats t.catalog bestCost = some plan)
    (filter : Option (Predicate σ)) :
    SelectsAll runtime t scope snapshot m conjuncts
        (collectVisibleEntries runtime t scope snapshot m filter plan) ↔
      ∀ r row, t.versions.read r snapshot m = some row →
        ((Intersected runtime t scope row conjuncts →
            ∀ conjunct ∈ conjuncts, matchesPredicate runtime t scope row conjunct = .ok true) ∧
          ((∀ conjunct ∈ conjuncts, matchesPredicate runtime t scope row conjunct = .ok true) →
            Intersected runtime t scope row conjuncts ∨
              (∃ conjunct ∈ conjuncts, PartlyServed t.catalog conjunct) ∧
                ∀ conjunct ∈ conjuncts, PartlyServed t.catalog conjunct →
                  ∃ arm ∈ unservedArms t.catalog conjunct,
                    matchesPredicate runtime t scope row arm = .ok true)) ∧
        ((∃ conjunct ∈ conjuncts, PartlyServed t.catalog conjunct) →
          ¬Intersected runtime t scope row conjuncts →
          ∀ q, complementaryPredicate t.catalog conjuncts = some q →
            ∃ b, matchesPredicate runtime t scope row q = .ok b) := by
  obtain ⟨hsucceeds, hreturned⟩ := collectVisibleEntries_intersect ht heval hplan filter
  -- an unserved arm that is true makes its conjunct true
  have hsound : ∀ r row, t.versions.read r snapshot m = some row →
      (∀ conjunct ∈ conjuncts, if PartlyServed t.catalog conjunct then
          ∃ arm ∈ unservedArms t.catalog conjunct,
            matchesPredicate runtime t scope row arm = .ok true
        else matchesPredicate runtime t scope row conjunct = .ok true) →
      ∀ conjunct ∈ conjuncts, matchesPredicate runtime t scope row conjunct = .ok true := by
    intro r row hread hall conjunct hmem
    have hpart := hall conjunct hmem
    split_ifs at hpart
    · obtain ⟨arm, harm, htrue⟩ := hpart
      obtain ⟨b, hb⟩ := heval conjunct hmem r row hread
      rw [hb, (matchesPredicate_conjunct hb).mpr ⟨arm, (mem_filter.mp harm).1, htrue⟩]
    · exact hpart
  constructor
  · rintro ⟨entries, hok, hexact⟩ r row hread
    have hboth := (hreturned entries hok r).symm.trans (hexact r)
    simp only [hread, Option.some.injEq, exists_eq_left'] at hboth
    refine ⟨⟨fun hrow => hboth.mp (Or.inl hrow), fun htrue => ?_⟩,
      hsucceeds.mp ⟨entries, hok⟩ r row hread⟩
    refine (hboth.mpr htrue).imp id fun ⟨hpartly, hall⟩ =>
      ⟨hpartly, fun conjunct hmem hserved => ?_⟩
    have hpart := hall conjunct hmem
    rwa [if_pos hserved] at hpart
  · intro hcond
    obtain ⟨entries, hok⟩ := hsucceeds.mpr fun r row hread => (hcond r row hread).2
    refine ⟨entries, hok, fun r => (hreturned entries hok r).trans (exists_congr fun row =>
      and_congr_right fun hread => ?_)⟩
    obtain ⟨⟨hkeep, hfind⟩, -⟩ := hcond r row hread
    constructor
    · rintro (hrow | ⟨-, hall⟩)
      · exact hkeep hrow
      · exact hsound r row hread hall
    · intro htrue
      refine (hfind htrue).imp id fun ⟨hpartly, harms⟩ => ⟨hpartly, fun conjunct hmem => ?_⟩
      split_ifs with hserved
      · exact harms conjunct hmem hserved
      · exact htrue conjunct hmem

/-- No row is lost or wrong when at most one OR is partly served and no `trigram(..)` is compared,
as long as the complementary predicate evaluates. -/
theorem intersect_of_one_partlyServed (ht : t.HashServes fun r => t.versions.read r snapshot m)
    (heval : ∀ conjunct ∈ conjuncts, Evaluable runtime t scope snapshot m conjunct)
    (hkind : ∀ conjunct ∈ conjuncts, noTrigramComparison conjunct = true)
    (hone : ∀ p ∈ conjuncts, ∀ q ∈ conjuncts, PartlyServed t.catalog p → PartlyServed t.catalog q →
      p = q) {r : ℕ} {row : Row} (hread : t.versions.read r snapshot m = some row) :
    (Intersected runtime t scope row conjuncts →
        ∀ conjunct ∈ conjuncts, matchesPredicate runtime t scope row conjunct = .ok true) ∧
      ((∀ conjunct ∈ conjuncts, matchesPredicate runtime t scope row conjunct = .ok true) →
        Intersected runtime t scope row conjuncts ∨
          (∃ conjunct ∈ conjuncts, PartlyServed t.catalog conjunct) ∧
            ∀ conjunct ∈ conjuncts, PartlyServed t.catalog conjunct →
              ∃ arm ∈ unservedArms t.catalog conjunct,
                matchesPredicate runtime t scope row arm = .ok true) := by
  have hfinds : ∀ conjunct ∈ conjuncts, ∀ arm ∈ servedArms t.catalog conjunct,
      (ProbeFinds t row arm ↔ matchesPredicate runtime t scope row arm = .ok true) := by
    intro conjunct hmem arm harm
    obtain ⟨harm, hprobe⟩ := mem_filter.mp harm
    exact probeFinds_iff ht hprobe
      (noTrigramComparison_of_mem_collectOrDisjuncts (hkind conjunct hmem) arm harm) hread
  refine ⟨fun ⟨hkeys, hres⟩ conjunct hmem => ?_, fun htrue => ?_⟩
  · by_cases hserved : servedArms t.catalog conjunct = []
    · exact hres conjunct hmem hserved
    · obtain ⟨arm, harm, hfind⟩ := hkeys conjunct hmem hserved
      obtain ⟨b, hb⟩ := heval conjunct hmem r row hread
      rw [hb, (matchesPredicate_conjunct hb).mpr
        ⟨arm, (mem_filter.mp harm).1, (hfinds conjunct hmem arm harm).mp hfind⟩]
  · -- the conjunct whose served arms all fail is the partly served one
    by_contra hlost
    rw [not_or] at hlost
    obtain ⟨hkeys, hunserved⟩ := hlost
    have hkeys : ¬KeysFound t row conjuncts := fun h =>
      hkeys ⟨h, fun conjunct hmem _ => htrue conjunct hmem⟩
    simp only [KeysFound, not_forall] at hkeys
    obtain ⟨lost, hmem, hserved, hnone⟩ := hkeys
    obtain ⟨arm, harm, harmTrue⟩ := (matchesPredicate_conjunct (htrue lost hmem)).mp rfl
    have hnotServed : arm ∉ servedArms t.catalog lost := fun hmemArm =>
      hnone ⟨arm, hmemArm, (hfinds lost hmem arm hmemArm).mpr harmTrue⟩
    have harmUnserved : arm ∈ unservedArms t.catalog lost := by
      refine mem_filter.mpr ⟨harm, ?_⟩
      by_contra hprobe
      exact hnotServed (mem_filter.mpr ⟨harm, by simpa using hprobe⟩)
    have hpartly : PartlyServed t.catalog lost := ⟨hserved, ne_nil_of_mem harmUnserved⟩
    exact hunserved ⟨⟨lost, hmem, hpartly⟩, fun conjunct hmem' hpartly' => by
      rw [hone conjunct hmem' lost hmem hpartly' hpartly]
      exact ⟨arm, harmUnserved, harmTrue⟩⟩

end Plan

end Scan

section TwoRows

/-- Indexes on `a` and `b`, and the rows `(1, 0, 0)` and `(3, 7, 1)`. -/
def twoRowOps : List TableOp :=
  oneRowOps ++ [.insert [.int 3, .int 7, .int 1] systemTransactionId]

/-- Statistics that count the rows. -/
def twoRowStats : RelationStats ℚ where
  rowCount := 2
  columnHistogram := fun _ => none

/-- `a = 1 OR c > 5`, of which the index on `a` serves one arm. -/
def oneOrGreaterFive : Predicate Empty :=
  .or (compareInt "a" .equal 1) (compareInt "c" .greater 5)

/-- `b = 2 OR c = 0`, of which the index on `b` serves one arm. -/
def twoOrZero : Predicate Empty := .or (compareInt "b" .equal 2) (compareInt "c" .equal 0)

/-- What the run leaves for the scans with some predicates. -/
theorem twoRows_returns (predicates : List (Predicate Empty))
    (heval : Exec.Returns (forM twoRowOps TableOp.perform) threeColumnTable fun _ t =>
      ∀ entry ∈ t.versions.visibleEntries {} {}, ∀ predicate ∈ predicates,
        (matchesPredicate plainRuntime t "t" entry.2 predicate).isOk = true) :
    Exec.Returns (forM twoRowOps TableOp.perform) threeColumnTable fun _ t =>
      t.HashServes (fun r => t.versions.read r {} {}) ∧
        ∀ predicate ∈ predicates, Evaluable plainRuntime t "t" {} {} predicate := by
  have hlive : Exec.Returns (forM twoRowOps TableOp.perform) threeColumnTable fun _ t =>
      ∀ entry ∈ t.versions.visibleEntries {} {}, t.rowStore.get entry.1 = some entry.2 := by
    decide +kernel
  obtain ⟨u, t, hrun, hlive, heval⟩ := hlive.and heval
  have hnew : Table.construct "t" threeColumns [] [] [] = .ok threeColumnTable := rfl
  exact ⟨u, t, hrun, (Table.current_of_run hnew hrun).hashServes_read hlive,
    fun predicate hmem => evaluable_of_visibleEntries fun entry hentry =>
      heval entry hentry predicate hmem⟩

/-- With one partly served OR the row `(1, 0, 0)` is found. -/
theorem selectsAll_equality_and_partlyServed : ∃ t plan,
    forM twoRowOps TableOp.perform threeColumnTable = .ok ⟨⟩ t ∧
    tryPlanAndIntersect [compareInt "a" .equal 1, twoOrZero] twoRowStats t.catalog 2 = some plan ∧
    SelectsAll plainRuntime t "t" {} {} [compareInt "a" .equal 1, twoOrZero]
      (collectVisibleEntries plainRuntime t "t" {} {} none plan) := by
  have hserves := twoRows_returns [compareInt "a" .equal 1, twoOrZero,
    .and (compareInt "a" .equal 1) (compareInt "c" .equal 0)] (by decide +kernel)
  have hplan : Exec.Returns (forM twoRowOps TableOp.perform) threeColumnTable fun _ t =>
      (tryPlanAndIntersect [compareInt "a" .equal 1, twoOrZero] twoRowStats t.catalog 2).isSome =
        true ∧
      complementaryPredicate t.catalog [compareInt "a" .equal 1, twoOrZero] =
        some (.and (compareInt "a" .equal 1) (compareInt "c" .equal 0)) ∧
      ∀ conjunct ∈ [compareInt "a" .equal 1, twoOrZero], PartlyServed t.catalog conjunct ↔
        conjunct = twoOrZero := by
    decide +kernel
  obtain ⟨_, t, hrun, ⟨hserves, hall⟩, hsome, hcomplement, hpartly⟩ := hserves.and hplan
  obtain ⟨plan, hplan⟩ := Option.isSome_iff_exists.mp hsome
  have heval : ∀ conjunct ∈ [compareInt "a" .equal 1, twoOrZero],
      Evaluable plainRuntime t "t" {} {} conjunct := fun conjunct hmem =>
    hall conjunct (mem_append_left [_] hmem)
  refine ⟨t, plan, hrun, hplan,
    (selectsAll_intersect_iff hserves heval hplan none).mpr fun r row hread =>
    ⟨intersect_of_one_partlyServed hserves heval (by decide) (fun p hp q hq hp' hq' => ?_) hread,
      fun _ _ q hq => ?_⟩⟩
  · rw [(hpartly p hp).mp hp', (hpartly q hq).mp hq']
  · obtain rfl := Option.some.inj (hcomplement.symm.trans hq)
    exact hall _ (by simp) r row hread

/-- The row `(1, 0, 0)` needs the served arm of the first OR and the unserved arm of the second. The
scan with the plan does not return it. -/
theorem not_selectsAll_two_partlyServed : ∃ t plan,
    Table.construct "t" threeColumns [] [] [] = .ok threeColumnTable ∧
    forM twoRowOps TableOp.perform threeColumnTable = .ok ⟨⟩ t ∧
    t.HashServes (fun r => t.versions.read r {} {}) ∧
    (∀ conjunct ∈ [oneOrGreaterFive, twoOrZero], Evaluable plainRuntime t "t" {} {} conjunct) ∧
    tryPlanAndIntersect [oneOrGreaterFive, twoOrZero] twoRowStats t.catalog 2 = some plan ∧
    ¬SelectsAll plainRuntime t "t" {} {} [oneOrGreaterFive, twoOrZero]
      (collectVisibleEntries plainRuntime t "t" {} {} none plan) := by
  have hserves := twoRows_returns [oneOrGreaterFive, twoOrZero] (by decide +kernel)
  have hscan : Exec.Returns (forM twoRowOps TableOp.perform) threeColumnTable fun _ t =>
      (tryPlanAndIntersect [oneOrGreaterFive, twoOrZero] twoRowStats t.catalog 2).isSome = true ∧
      collectVisibleEntries plainRuntime t "t" {} {} none
        ((tryPlanAndIntersect [oneOrGreaterFive, twoOrZero] twoRowStats t.catalog 2).getD {}) =
          .ok [] ∧
      t.versions.read 0 {} {} = some [.int 1, .int 0, .int 0] ∧
      ∀ conjunct ∈ [oneOrGreaterFive, twoOrZero],
        matchesPredicate plainRuntime t "t" [.int 1, .int 0, .int 0] conjunct = .ok true := by
    decide +kernel
  obtain ⟨_, t, hrun, ⟨hserves, heval⟩, hsome, hentries, hread, htrue⟩ := hserves.and hscan
  obtain ⟨plan, hplan⟩ := Option.isSome_iff_exists.mp hsome
  rw [hplan, Option.getD_some] at hentries
  refine ⟨t, plan, rfl, hrun, hserves, heval, hplan, ?_⟩
  rintro ⟨entries, hok, hexact⟩
  obtain rfl := Except.ok.inj (hentries.symm.trans hok)
  simpa using (hexact 0).mpr ⟨_, hread, htrue⟩

end TwoRows

end VertexDB
