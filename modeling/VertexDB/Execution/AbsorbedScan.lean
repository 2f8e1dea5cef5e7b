import VertexDB.Execution.IntersectScan

/-!
# Arms and conjuncts absorbed into index probes

`tryPlanTopLevelOrUnion` serves some arms of a WHERE that is an OR by probes and leaves the others
to a scan of the rows that no probe finds. `tryPlanCompositeHashEq` serves one equality for each
column of a composite index by a single probe, the first on its column, and leaves the other
conjuncts to a filter. Either way the rows returned are those that satisfy the whole predicate.
-/

namespace VertexDB

open Planner Option List IndexManager

variable {σ C : Type} [CostArith C] {runtime : PredicateRuntime σ} {t : Table} {scope : String}
  {snapshot : ReadSnapshot} {m : TransactionManager} {predicate : Predicate σ}
  {stats : RelationStats C} {cost : C} {plan : QueryPlan σ} {indexes : IndexCatalog}

section Union

variable {children : List IndexBitmapNode}

theorem tryPlanTopLevelOrUnion_eq_some
    (h : tryPlanTopLevelOrUnion predicate stats indexes cost = some plan)
    (hpath : plan.path = .union children) :
    children = (servedArms indexes predicate).map (fun arm => .probe (makeEqualityProbe arm)) ∧
      plan.residual = buildOrTree (unservedArms indexes predicate) := by
  cases predicate with
  | or left right =>
    simp only [tryPlanTopLevelOrUnion] at h
    split at h
    · obtain rfl := Option.some.inj h
      cases hpath
    · split at h
      · obtain rfl := Option.some.inj h
        cases hpath
      · obtain rfl := Option.some.inj h
        exact ⟨(AccessPathPlan.union.inj hpath).symm, rfl⟩
  | _ => cases h

variable (ht : t.HashServes fun r => t.versions.read r snapshot m)
  (heval : Evaluable runtime t scope snapshot m predicate)
  (hkind : noTrigramComparison predicate = true)

include ht hkind

/-- The probes of an OR find the rows on which a served arm is true. -/
theorem mem_servedArms_iff {r : ℕ} {row : Row} (hread : t.versions.read r snapshot m = some row) :
    r ∈ evalUnionChildren t none
        ((servedArms t.catalog predicate).map fun arm => .probe (makeEqualityProbe arm)) ↔
      ∃ arm ∈ servedArms t.catalog predicate,
        matchesPredicate runtime t scope row arm = .ok true := by
  simp only [mem_evalUnionChildren, List.mem_map, exists_exists_and_eq_and]
  refine exists_congr fun arm => and_congr_right fun harm => ?_
  obtain ⟨harm, hprobe⟩ := List.mem_filter.mp harm
  rw [mem_probe_iff ht hprobe hread]
  exact probeFinds_iff ht hprobe (noTrigramComparison_of_mem_collectOrDisjuncts hkind arm harm)
    hread

include heval

/-- A row that the probes find satisfies the OR; on another row the unserved arms decide it. -/
theorem matchesPredicate_arms {r : ℕ} {row : Row}
    (hread : t.versions.read r snapshot m = some row) :
    (r ∈ evalUnionChildren t none
        ((servedArms t.catalog predicate).map fun arm => .probe (makeEqualityProbe arm)) →
      matchesPredicate runtime t scope row predicate = .ok true) ∧
    (r ∉ evalUnionChildren t none
        ((servedArms t.catalog predicate).map fun arm => .probe (makeEqualityProbe arm)) →
      evalAny (matchesPredicate runtime t scope row) (unservedArms t.catalog predicate) =
        matchesPredicate runtime t scope row predicate) := by
  obtain ⟨value, hvalue⟩ := heval r row hread
  have harms := hvalue
  rw [← evalAny_collectOrDisjuncts] at harms
  rw [hvalue, mem_servedArms_iff ht hkind hread]
  constructor
  · rintro ⟨arm, harm, htrue⟩
    cases value with
    | true => rfl
    | false =>
      rw [evalAny_eq_false.mp harms arm (mem_filter.mp harm).1] at htrue
      cases htrue
  · intro hnone
    refine evalAny_filter harms fun arm harm hserved htrue => hnone ⟨arm, ?_, htrue⟩
    exact mem_filter.mpr ⟨harm, by simpa using hserved⟩

/-- The scan with the union plan of an OR returns the rows that satisfy it. -/
theorem exact_union (hplan : tryPlanTopLevelOrUnion predicate stats t.catalog cost = some plan)
    (hpath : plan.path = .union children) (filter : Option (Predicate σ)) :
    Exact runtime t scope snapshot m predicate
      (collectVisibleEntries runtime t scope snapshot m filter plan) := by
  obtain ⟨path, residual, complementary⟩ := plan
  obtain ⟨rfl, hres⟩ := tryPlanTopLevelOrUnion_eq_some hplan hpath
  simp only at hpath hres
  subst hpath
  simp only [collectVisibleEntries, hres]
  have harms := fun r row (hread : t.versions.read r snapshot m = some row) =>
    matchesPredicate_arms ht heval hkind hread
  generalize evalUnionChildren t none _ = rowIds at harms ⊢
  have hbyId := t.versions.mem_visibleEntriesById rowIds snapshot m
  have hvis := t.versions.mem_visibleEntries snapshot m
  rcases htree : buildOrTree (unservedArms t.catalog predicate) with _ | tree
  · -- every arm is served
    have hnil : unservedArms t.catalog predicate = [] := by
      by_contra hne
      obtain ⟨tree, htree'⟩ := exists_buildOrTree hne
      rw [htree] at htree'
      cases htree'
    refine ⟨_, rfl, fun r => ?_⟩
    rw [mem_map_fst]
    refine exists_congr fun row => ?_
    rw [hbyId]
    constructor
    · rintro ⟨hr, hread⟩
      exact ⟨hread, (harms r row hread).1 hr⟩
    · rintro ⟨hread, htrue⟩
      refine ⟨?_, hread⟩
      by_contra hr
      have hfalse := (harms r row hread).2 hr
      rw [hnil, htrue] at hfalse
      cases hfalse
  · have htrees := fun row => matchesPredicate_buildOrTree runtime t scope row htree
    obtain ⟨added, hadded, hmemAdded⟩ := exists_filterEntries
      (fun row => matchesPredicate runtime t scope row tree)
      ((t.versions.visibleEntries snapshot m).filter fun entry => !rowIds.contains entry.1) (by
        rintro ⟨r, row⟩ hentry
        rw [mem_filter, hvis] at hentry
        rw [htrees, (harms r row hentry.1).2 (by simpa using hentry.2)]
        exact heval r row hentry.1)
    refine ⟨t.versions.visibleEntriesById rowIds snapshot m ++ added, ?_, fun r => ?_⟩
    · simp only [complementaryScan, bind, Except.bind, hadded]
      rfl
    · rw [mem_map_fst]
      refine exists_congr fun row => ?_
      rw [mem_append, hbyId, hmemAdded, mem_filter, hvis, htrees]
      constructor
      · rintro (⟨hr, hread⟩ | ⟨⟨hread, hr⟩, htrue⟩)
        · exact ⟨hread, (harms r row hread).1 hr⟩
        · rw [(harms r row hread).2 (by simpa using hr)] at htrue
          exact ⟨hread, htrue⟩
      · rintro ⟨hread, htrue⟩
        by_cases hr : r ∈ rowIds
        · exact Or.inl ⟨hr, hread⟩
        · exact Or.inr ⟨⟨hread, by simpa using hr⟩, ((harms r row hread).2 hr).trans htrue⟩

end Union

section Composite

/-- The conjunct at the place is the equality of the column with the value. -/
def ColumnEquality (conjuncts : List (Predicate σ)) (equality : String × ℕ × Value) : Prop :=
  ∃ node : ComparisonPred, conjuncts[equality.2.1]? = some (.comparison node) ∧
    node.rhsColumn = none ∧ node.expression = none ∧ node.op = .equal ∧
    node.column = equality.1 ∧ node.value = equality.2.2

variable {conjuncts : List (Predicate σ)}

theorem columnEquality_of_mem_equalityByColumn {equality : String × ℕ × Value}
    (h : equality ∈ equalityByColumn conjuncts) : ColumnEquality conjuncts equality := by
  refine foldlRecOn conjuncts.zipIdx _
    (motive := fun found => ∀ equality ∈ found, ColumnEquality conjuncts equality) (by simp)
    (fun found ih entry hentry => ?_) equality h
  obtain ⟨p, i⟩ := entry
  have hi : conjuncts[i]? = some p := mem_zipIdx_iff_getElem?.mp hentry
  cases p with
  | comparison node =>
    simp only
    split
    · exact ih
    · rename_i hnode
      push Not at hnode
      split
      · exact ih
      · rintro equality hequality
        rcases mem_append.mp hequality with hmem | hmem
        · exact ih equality hmem
        · obtain rfl := mem_singleton.mp hmem
          exact ⟨node, hi, by simpa using hnode.1, by simpa using hnode.2.1, hnode.2.2, rfl, rfl⟩
  | _ => exact ih

theorem mem_of_foldl_considerComposite {candidates : List (CompositeCandidate C)}
    {best : CompositeCandidate C}
    (h : candidates.foldl (considerComposite cost) none = some best) : best ∈ candidates := by
  refine foldlRecOn candidates _
    (motive := fun picked => ∀ best, picked = some best → best ∈ candidates) (by simp)
    (fun picked ih candidate hcandidate best hbest => ?_) best h
  rw [considerComposite.eq_def] at hbest
  split at hbest
  · exact ih best hbest
  · split at hbest
    · exact Option.some.inj hbest ▸ hcandidate
    · split at hbest
      · exact Option.some.inj hbest ▸ hcandidate
      · exact ih best hbest

/-- The lookups of the columns find equalities on them. -/
theorem covered_eq_some {found covered : List (String × ℕ × Value)} {columns : List String}
    (h : (columns.mapM fun column => found.find? fun entry => entry.1 = column) = some covered) :
    covered.map Prod.fst = columns ∧ covered ⊆ found := by
  induction columns generalizing covered with
  | nil =>
    obtain rfl : [] = covered := by simpa using h
    exact ⟨rfl, nil_subset _⟩
  | cons column columns ih =>
    rw [mapM_cons] at h
    obtain ⟨equality, hequality, h⟩ := bind_eq_some_iff.mp h
    obtain ⟨rest, hrest, h⟩ := bind_eq_some_iff.mp h
    obtain rfl : equality :: rest = covered := by simpa using h
    obtain ⟨hcols, hsubset⟩ := ih hrest
    have hcol : equality.1 = column := by simpa using find?_some hequality
    exact ⟨by rw [map_cons, hcol, hcols], cons_subset.mpr ⟨mem_of_find?_eq_some hequality, hsubset⟩⟩

theorem compositeCandidate_eq_some {columns : List String} {candidate : CompositeCandidate C}
    (h : compositeCandidate stats indexes (equalityByColumn conjuncts) columns = some candidate) :
    ∃ equalities : List (String × ℕ × Value), 2 ≤ equalities.length ∧
      (∀ equality ∈ equalities, ColumnEquality conjuncts equality) ∧
      indexes.hasIndex (equalities.map Prod.fst) = true ∧
      candidate.columns = equalities.map Prod.fst ∧
      candidate.parts = equalities.map (fun equality => equality.2.2) ∧
      candidate.absorbed = equalities.map (fun equality => equality.2.1) := by
  simp only [compositeCandidate] at h
  split at h
  · cases h
  rename_i hcols
  obtain ⟨hlen, hidx⟩ := not_or.mp hcols
  obtain ⟨covered, hcovered, h⟩ := bind_eq_some_iff.mp h
  obtain rfl := Option.some.inj h
  obtain ⟨rfl, hsubset⟩ := covered_eq_some hcovered
  rw [length_map, not_lt] at hlen
  exact ⟨covered, hlen, fun equality hequality => columnEquality_of_mem_equalityByColumn
    (hsubset hequality), by simpa using hidx, rfl, rfl, rfl⟩

private theorem exists_two_of_length {α : Type} {l : List α} (h : 2 ≤ l.length) :
    ∃ a b rest, l = a :: b :: rest := by
  obtain ⟨a, tail, rfl⟩ := exists_cons_of_length_pos (Nat.lt_of_lt_of_le Nat.zero_lt_two h)
  obtain ⟨b, rest, rfl⟩ := exists_cons_of_length_pos (Nat.le_of_succ_le_succ h)
  exact ⟨a, b, rest, rfl⟩

theorem tryPlanCompositeHashEq_eq_some
    (h : tryPlanCompositeHashEq conjuncts stats indexes cost = some plan) :
    ∃ equalities : List (String × ℕ × Value), 2 ≤ equalities.length ∧
      (∀ equality ∈ equalities, ColumnEquality conjuncts equality) ∧
      indexes.hasIndex (equalities.map Prod.fst) = true ∧
      plan = {
        path := .hashEq ((equalities.map Prod.fst).head?.getD "") none
          (.composite (equalities.map fun equality => equality.2.2)) (equalities.map Prod.fst)
        residual := buildAndTree ((conjuncts.zipIdx.filter fun entry =>
          !(equalities.map fun equality => equality.2.1).contains entry.2).map Prod.fst) } := by
  rw [tryPlanCompositeHashEq] at h
  split at h
  · cases h
  simp only at h
  split at h
  · cases h
  rename_i best hbest
  obtain ⟨columns, -, hcandidate⟩ := mem_filterMap.mp (mem_of_foldl_considerComposite hbest)
  obtain ⟨equalities, hlen, hequalities, hidx, hcols, hparts, habsorbed⟩ :=
    compositeCandidate_eq_some hcandidate
  have hkey : Value.makeComposite best.parts = .ok (.composite best.parts) := by
    obtain ⟨first, second, rest, rfl⟩ := exists_two_of_length hlen
    rw [hparts]
    rfl
  rw [hkey] at h
  obtain rfl := Option.some.inj h
  exact ⟨equalities, hlen, hequalities, hidx, by rw [hcols, hparts, habsorbed]⟩

theorem beqParts_iff {α β : Type} {as : List α} {bs : List β} {f : α → Value} {g : β → Value}
    {P : β → Prop} (h : List.Forall₂ (fun a b => (f a).beq (g b) = true ↔ P b) as bs) :
    Value.beqParts (as.map f) (bs.map g) = true ↔ ∀ b ∈ bs, P b := by
  induction h with
  | nil => simp [Value.beqParts]
  | cons hab _ ih => simp [Value.beqParts, hab, ih]

/-- The probe of a composite index finds the rows on which the absorbed equalities are true. -/
theorem mem_composite_iff (scope : String) (ht : t.HashServes fun r => t.versions.read r snapshot m)
    {equalities : List (String × ℕ × Value)} (hlen : 2 ≤ equalities.length) {name : String}
    (hname : t.indexManager.columnIndexName (equalities.map Prod.fst) t.schema = some name) {r : ℕ}
    {row : Row} (hread : t.versions.read r snapshot m = some row) :
    r ∈ (t.indexManager.hashIndex name).find
        (.composite (equalities.map fun equality => equality.2.2)) ↔
      ∀ equality ∈ equalities, ∃ v,
        operandValue equality.1 none row (scopedLookup t scope) = .ok v ∧
          v.beq equality.2.2 = true := by
  obtain ⟨positions, hpos, hexpr, hnames⟩ := Table.columnIndexName_eq_some hname
  have hparts : List.Forall₂ (fun i (equality : String × ℕ × Value) =>
      (row.at i).beq equality.2.2 = true ↔ ∃ v,
        operandValue equality.1 none row (scopedLookup t scope) = .ok v ∧
          v.beq equality.2.2 = true) positions equalities := by
    have hcanon := ht.canonical name positions hpos
    clear hpos hname hlen
    induction positions generalizing equalities with
    | nil =>
      obtain rfl : equalities = [] := by simpa using hnames.symm
      exact .nil
    | cons i positions ih =>
      obtain ⟨hi, hcanon'⟩ := forall_mem_cons.mp hcanon
      obtain ⟨equality, rest, rfl, hcol, hrest⟩ := map_eq_cons_iff.mp hnames.symm
      refine .cons ?_ (ih hrest.symm hcanon')
      have hlookup : scopedLookup t scope equality.1 = some i := by
        rw [hcol, scopedLookup_eq (by rw [hi]; rfl), hi]
      simp [operandValue, hlookup, pure, Except.pure]
  have hkey : t.indexManager.indexKeyForRow name row t.schema =
      .ok (.composite (positions.map row.at)) := by
    have hwidth : 2 ≤ positions.length := by
      rw [← length_map (columnName t.schema), hnames, length_map]
      exact hlen
    rw [indexKeyForRow, hexpr, hpos]
    obtain ⟨i, j, rest, rfl⟩ := exists_two_of_length hwidth
    rfl
  have htrigram : t.indexManager.isTrigram name = false := by
    rw [isTrigram, hexpr]
  rw [ht.hash name r row hread, hasKey_iff hkey, htrigram, ← beqParts_iff hparts]
  simp [storedKeys, Value.beq]

/-- The scan with a composite probe returns the rows that satisfy the conjuncts. -/
theorem exact_composite (ht : t.HashServes fun r => t.versions.read r snapshot m)
    (heval : Evaluable runtime t scope snapshot m predicate)
    (hconjs : ∀ row, evalAll (matchesPredicate runtime t scope row) conjuncts =
      matchesPredicate runtime t scope row predicate)
    (hplan : tryPlanCompositeHashEq conjuncts stats t.catalog cost = some plan)
    (filter : Option (Predicate σ)) :
    Exact runtime t scope snapshot m predicate
      (collectVisibleEntries runtime t scope snapshot m filter plan) := by
  obtain ⟨equalities, hlen, hequalities, hidx, rfl⟩ := tryPlanCompositeHashEq_eq_some hplan
  obtain ⟨name, hname⟩ := isSome_iff_exists.mp hidx
  have hmem := fun r row (hread : t.versions.read r snapshot m = some row) =>
    mem_composite_iff scope ht hlen hname hread
  have htrue : ∀ row, ∀ equality ∈ equalities, ∃ p, conjuncts[equality.2.1]? = some p ∧
      (matchesPredicate runtime t scope row p = .ok true ↔ ∃ v,
        operandValue equality.1 none row (scopedLookup t scope) = .ok v ∧
          v.beq equality.2.2 = true) := by
    intro row equality hequality
    obtain ⟨node, hnode, hrhs, hexpr, hop, hcol, hvalue⟩ := hequalities equality hequality
    refine ⟨_, hnode, ?_⟩
    rw [matchesPredicate_comparison_eq_true hrhs, hexpr, hcol, hop, hvalue]
    rfl
  have hlookup : t.indexedLookup (equalities.map Prod.fst)
      (.composite (equalities.map fun equality => equality.2.2)) = some _ :=
    map_eq_some_iff.mpr ⟨name, hname, rfl⟩
  have hne : equalities.map Prod.fst ≠ [] := by
    rw [Ne, map_eq_nil_iff, ← length_eq_zero_iff]
    omega
  simp only [collectVisibleEntries, isNone_none, hne, ne_eq, not_false_eq_true, and_self,
    if_true, hlookup]
  refine exact_applyResidual heval (fun r row hread hr => ?_) fun r row hread hrow => ?_
  · -- the conjuncts left out are true on a row that the probe finds
    rw [evalAll_filter, zipIdx_map_fst, hconjs]
    rintro ⟨p, i⟩ hentry habsorbed
    have hi : conjuncts[i]? = some p := mem_zipIdx_iff_getElem?.mp hentry
    obtain ⟨equality, hequality, rfl⟩ : ∃ equality ∈ equalities, equality.2.1 = i := by
      simpa using habsorbed
    obtain ⟨q, hq, hiff⟩ := htrue row equality hequality
    obtain rfl := mem_unique hi hq
    exact hiff.mpr ((hmem r row hread).mp hr equality hequality)
  · rw [← hconjs, evalAll_eq_true] at hrow
    refine (hmem r row hread).mpr fun equality hequality => ?_
    obtain ⟨p, hp, hiff⟩ := htrue row equality hequality
    exact hiff.mp (hrow p (mem_of_getElem? hp))

end Composite

/-- The scan with a union plan of `tryPlanTopLevelOrUnion` or with a plan of
`tryPlanCompositeHashEq` returns the rows that satisfy the whole predicate. The planner may be given
the predicate as written or rewritten into IN lists. -/
theorem exact_absorbed (ht : t.HashServes fun r => t.versions.read r snapshot m)
    (heval : Evaluable runtime t scope snapshot m predicate)
    (hkind : noTrigramComparison predicate = true) (stats : RelationStats C) (cost : C)
    (filter : Option (Predicate σ)) :
    (∀ p plan children, p = predicate ∨ p = rewriteToIn predicate →
      tryPlanTopLevelOrUnion p stats t.catalog cost = some plan → plan.path = .union children →
      Exact runtime t scope snapshot m predicate
        (collectVisibleEntries runtime t scope snapshot m filter plan)) ∧
    (∀ conjuncts plan, conjuncts = collectAndConjuncts predicate ∨
      conjuncts = planConjuncts predicate →
      tryPlanCompositeHashEq conjuncts stats t.catalog cost = some plan →
      Exact runtime t scope snapshot m predicate
        (collectVisibleEntries runtime t scope snapshot m filter plan)) := by
  constructor
  · rintro p plan children (rfl | rfl) hplan hpath
    · exact exact_union ht heval hkind hplan hpath filter
    · have hsame := fun row => matchesPredicate_rewriteToIn runtime t scope row predicate
      have hexact := exact_union ht (fun r row hread => by
        rw [hsame]
        exact heval r row hread) (noTrigramComparison_rewriteToIn hkind) hplan hpath filter
      simpa only [Exact, hsame] using hexact
  · rintro conjuncts plan (rfl | rfl) hplan
    · exact exact_composite ht heval
        (fun row => evalAll_collectAndConjuncts runtime t scope row predicate) hplan filter
    · exact exact_composite ht heval
        (fun row => evalAll_planConjuncts runtime t scope row predicate) hplan filter

section Example

/-- Indexes on `a` and on `(a, b)`, and the rows `(1, 0, 0)` and `(3, 7, 1)`. -/
def compositeOps : List TableOp :=
  [.createIndex "ia" ["a"], .createIndex "iab" ["a", "b"],
    .insert [.int 1, .int 0, .int 0] systemTransactionId,
    .insert [.int 3, .int 7, .int 1] systemTransactionId]

/-- `a = 1 AND b = 0 AND a = 3`, of which the composite index absorbs the first two. -/
def pairAndThree : Predicate Empty :=
  .and (.and (compareInt "a" .equal 1) (compareInt "b" .equal 0)) (compareInt "a" .equal 3)

/-- The path is a union. -/
def isUnion : AccessPathPlan → Bool
  | .union _ => true
  | _ => false

theorem exists_of_isUnion {path : AccessPathPlan} (h : isUnion path = true) :
    ∃ children, path = .union children := by
  cases path with
  | union children => exact ⟨children, rfl⟩
  | _ => cases h

/-- The union plan of `a = 1 OR c > 5` and the composite plan of `a = 1 AND b = 0 AND a = 3`. -/
theorem exact_absorbed_twoRows : ∃ t unionPlan compositePlan children,
    forM compositeOps TableOp.perform threeColumnTable = .ok ⟨⟩ t ∧
    tryPlanTopLevelOrUnion oneOrGreaterFive twoRowStats t.catalog 2 = some unionPlan ∧
    unionPlan.path = .union children ∧
    tryPlanCompositeHashEq (planConjuncts pairAndThree) twoRowStats t.catalog 2 =
      some compositePlan ∧
    Exact plainRuntime t "t" {} {} oneOrGreaterFive
      (collectVisibleEntries plainRuntime t "t" {} {} none unionPlan) ∧
    Exact plainRuntime t "t" {} {} pairAndThree
      (collectVisibleEntries plainRuntime t "t" {} {} none compositePlan) := by
  have hret : Exec.Returns (forM compositeOps TableOp.perform) threeColumnTable fun _ t =>
      (∀ entry ∈ t.versions.visibleEntries {} {}, t.rowStore.get entry.1 = some entry.2) ∧
      (∀ entry ∈ t.versions.visibleEntries {} {}, ∀ p ∈ [oneOrGreaterFive, pairAndThree],
        (matchesPredicate plainRuntime t "t" entry.2 p).isOk = true) ∧
      (tryPlanTopLevelOrUnion oneOrGreaterFive twoRowStats t.catalog 2).any
        (fun plan => isUnion plan.path) = true ∧
      (tryPlanCompositeHashEq (planConjuncts pairAndThree) twoRowStats t.catalog 2).isSome =
        true := by
    decide +kernel
  obtain ⟨_, t, hrun, hlive, hevaluates, hunion, hcomposite⟩ := hret
  obtain ⟨unionPlan, hunion, hpath⟩ := (any_eq_true _ _).mp hunion
  obtain ⟨children, hpath⟩ := exists_of_isUnion hpath
  obtain ⟨compositePlan, hcomposite⟩ := isSome_iff_exists.mp hcomposite
  have hnew : Table.construct "t" threeColumns [] [] [] = .ok threeColumnTable := rfl
  have hserves := (Table.current_of_run hnew hrun).hashServes_read hlive
  have heval : ∀ p ∈ [oneOrGreaterFive, pairAndThree], Evaluable plainRuntime t "t" {} {} p :=
    fun p hp => evaluable_of_visibleEntries fun entry hentry => hevaluates entry hentry p hp
  refine ⟨t, unionPlan, compositePlan, children, hrun, hunion, hpath, hcomposite, ?_, ?_⟩
  · exact (exact_absorbed hserves (heval _ (by simp)) (by decide) twoRowStats 2 none).1 _ _ _
      (Or.inl rfl) hunion hpath
  · exact (exact_absorbed hserves (heval _ (by simp)) (by decide) twoRowStats 2 none).2 _ _
      (Or.inr rfl) hcomposite

end Example

end VertexDB
