import VertexDB.Execution.ScanCorrect

/-!
# Lookups that serve comparisons of expressions

A comparison `(expression) op value` with an index on the expression is served from the index alone:
an equality from its hash store, the other comparisons from its ordered store. The index and the
evaluation of the predicate have to agree on what the value of the expression is. They do for
columns, negations, sums and differences. A `trigram(..)` is the whole text when the predicate is
evaluated; the hash store of a trigram index holds the trigrams of the text, and its ordered store
is empty.
-/

namespace VertexDB

open Planner IndexManager

variable {σ C : Type} [CostArith C] {regex : RegexMatcher} {t : Table} {scope : String}
  {node : ComparisonPred} {expression : IndexExpression}

/-- The lookup with which the executor follows the path of a comparison. -/
def servedLookup (t : Table) (node : ComparisonPred) (path : AccessPath) : Option (List ℕ) :=
  match path with
  | .hashEq => probeLookup t node.column node.expression node.value
  | _ => rangeLookup t node.column node.expression node.op node.value

/-- The lookup returns the live rows on which the comparison is true. -/
def LookupExact (regex : RegexMatcher) (t : Table) (scope : String) (node : ComparisonPred)
    (found : Option (List ℕ)) : Prop :=
  ∃ rowIds, found = some rowIds ∧ ∀ r, r ∈ rowIds ↔ ∃ row, t.rowStore.get r = some row ∧
    evalPredicate regex row (scopedLookup t scope) (.comparison node : Predicate Empty) = .ok true

/-- The text of the row that the expression is about has the value as a trigram. -/
def HasTrigram (t : Table) (expression : IndexExpression) (row : Row) (value : Value) : Prop :=
  ∃ i text, t.columnIndex expression.column = some i ∧ row.at i = .string text ∧
    ∃ gram ∈ extractTrigrams text, value = .string gram

/-- A lookup that finds the live rows with some property is exact when the comparison is that
property. -/
theorem lookupExact_some {rowIds : List ℕ} {P : Row → Prop}
    (h : ∀ r, r ∈ rowIds ↔ ∃ row, t.rowStore.get r = some row ∧ P row) :
    LookupExact regex t scope node (some rowIds) ↔ ∀ r row, t.rowStore.get r = some row →
      (P row ↔ evalPredicate regex row (scopedLookup t scope) (.comparison node : Predicate Empty) =
        .ok true) := by
  constructor
  · rintro ⟨_, ⟨⟩, hexact⟩ r row hlive
    have hboth := (h r).symm.trans (hexact r)
    simpa [hlive] using hboth
  · intro hsame
    refine ⟨rowIds, rfl,
      fun r => (h r).trans (exists_congr fun row => and_congr_right fun hlive => ?_)⟩
    exact hsame r row hlive

section Stores

variable (ht : t.Current) {name : String}
  (hname : t.operandIndexName node.column node.expression = some name)
  (hexpr : node.expression = some expression)

include ht hname hexpr

theorem exists_indexExpression : name ∈ t.indexManager.indexColumns ∧
    t.indexManager.isTrigram name = decide (expression.kind = .trigram) ∧
    ∃ e, t.indexManager.indexExpressions[name]? = some e ∧ e.beq expression = true := by
  rw [hexpr] at hname
  obtain ⟨e, he, hbeq⟩ := Table.expressionIndexName_eq_some hname
  obtain ⟨i, hi, -⟩ := ht.fits.expressions name e he
  have hkind : e.kind = expression.kind := by
    simp only [IndexExpression.beq, Bool.and_eq_true, beq_iff_eq] at hbeq
    exact hbeq.1.1
  exact ⟨Std.ExtTreeMap.mem_iff_isSome_getElem?.mpr (by rw [hi]; rfl),
    by simp only [isTrigram, he, hkind], e, he, hbeq⟩

/-- The hash store of a trigram index has the trigrams of the text as keys. -/
theorem hasKey_trigram_iff (hkind : expression.kind = .trigram) (row : Row) (value : Value) :
    t.indexManager.HasKey name row t.schema value ↔ HasTrigram t expression row value := by
  obtain ⟨-, htrigram, e, he, hbeq⟩ := exists_indexExpression ht hname hexpr
  simp only [IndexExpression.beq, Bool.and_eq_true, beq_iff_eq] at hbeq
  obtain ⟨⟨hkinds, hcol⟩, -⟩ := hbeq
  obtain ⟨i, -, hi⟩ := ht.fits.expressions name e he
  have hkey : t.indexManager.indexKeyForRow name row t.schema = .ok (row.at i) := by
    simp only [indexKeyForRow, he, evaluateIndexExpression, hi, hkinds, hkind]
    rfl
  rw [hasKey_iff hkey, htrigram, hkind, decide_eq_true rfl]
  have hi' : t.columnIndex expression.column = some i := hcol ▸ hi
  simp only [HasTrigram, hi', Option.some.injEq, exists_and_left, exists_eq_left']
  cases row.at i with
  | string text =>
    cases value with
    | string gram => simp [storedKeys, Value.beq]
    | _ => simp [storedKeys, Value.beq]
  | _ => simp [storedKeys]

/-- The ordered store of a trigram index finds nothing. -/
theorem orderedFind_trigram (hkind : expression.kind = .trigram) (op : ComparisonOperator)
    (value : Value) : (t.indexManager.orderedIndex name).orderedFind op value = [] := by
  obtain ⟨hmem, htrigram, -⟩ := exists_indexExpression ht hname hexpr
  obtain ⟨log, hlog⟩ := ht.built.exists_log name hmem
  have hsub := BTreeIndex.orderedFind_sublist (t.indexManager.orderedIndex name) op value
  rw [hlog.entries, htrigram, hkind] at hsub
  exact List.sublist_nil.mp hsub

/-- An index on another expression has the value that the comparison is about as key. -/
theorem comparison_iff_key (hkind : expression.kind ≠ .trigram) (hrhs : node.rhsColumn = none)
    (row : Row) : (∃ k, t.indexManager.indexKeyForRow name row t.schema = .ok k ∧
        compareValues k node.op node.value = true) ↔
      evalPredicate regex row (scopedLookup t scope) (.comparison node : Predicate Empty) =
        .ok true := by
  have hserves : t.HashServes t.rowStore.get := ht.hashServes fun _ _ h => h
  have hkinds : ∀ e, node.expression = some e → e.kind ≠ .trigram := by
    rw [hexpr]
    rintro e ⟨⟩
    exact hkind
  obtain ⟨-, -, hsame⟩ := hserves.sameOutcome_indexKeyForRow hname hkinds scope
  rw [evalPredicate, evalComparison_eq_true hrhs]
  have h := hsame row
  revert h
  generalize t.indexManager.indexKeyForRow name row t.schema = key
  generalize operandValue node.column node.expression row (scopedLookup t scope) = operand
  rintro (e | ⟨hv⟩)
  · simp
  · simp [hv.compareValues_eq]

end Stores

/-- When the lookup that serves a comparison of an expression returns the live rows on which it is
true. A range of another expression than `trigram(..)` must have no NaN among the keys. -/
theorem lookupExact_iff (ht : t.Current) (hexpr : node.expression = some expression)
    {stats : RelationStats C} {n : ℕ} {path : AccessPath} {cost : C}
    (hserved : isIndexableComparison stats t.catalog n (.comparison node : Predicate σ) =
      some (path, cost))
    (hkeys : expression.kind ≠ .trigram → node.op ≠ .equal → ∀ r row key,
      t.rowStore.get r = some row → evaluateIndexExpression expression row t.columnIndex = .ok key →
      key.IsOrdered) :
    LookupExact regex t scope node (servedLookup t node path) ↔
      (expression.kind = .trigram → ∀ r row, t.rowStore.get r = some row →
        (node.op = .equal ∧ HasTrigram t expression row node.value ↔
          evalPredicate regex row (scopedLookup t scope) (.comparison node : Predicate Empty) =
            .ok true)) := by
  cases serves_of_isIndexableComparison hserved with
  | equality hrhs hop hidx =>
    obtain ⟨name, hname⟩ := operandIndexName_of_hasOperandIndex hidx
    obtain ⟨hmem, htrigram, -⟩ := exists_indexExpression ht hname hexpr
    rw [servedLookup, probeLookup_eq hname, lookupExact_some fun r =>
      ht.built.agrees.mem_find name ((ht.fits.mem_indexes name).mpr hmem) r node.value]
    by_cases hkind : expression.kind = .trigram
    · simp only [hasKey_trigram_iff ht hname hexpr hkind, hop, hkind, true_and, true_implies]
    · refine iff_of_true (fun r row hlive => ?_) fun h => absurd h hkind
      rw [← comparison_iff_key ht hname hexpr hkind hrhs, hop]
      rw [decide_eq_false hkind] at htrigram
      cases hkey : t.indexManager.indexKeyForRow name row t.schema with
      | error e => simp [IndexManager.HasKey, hashKeysForRow, hkey]
      | ok k => simp [hasKey_iff hkey, htrigram, storedKeys, compareValues]
  | range hrhs hop hidx =>
    obtain ⟨name, hname⟩ := operandIndexName_of_hasOperandIndex hidx
    obtain ⟨hmem, htrigram, e, he, hbeq⟩ := exists_indexExpression ht hname hexpr
    change LookupExact regex t scope node
      (rangeLookup t node.column node.expression node.op node.value) ↔ _
    rw [rangeLookup_eq hname]
    by_cases hkind : expression.kind = .trigram
    · have hnone : ∀ r, r ∈ (t.indexManager.orderedIndex name).orderedFind node.op node.value ↔
          ∃ row, t.rowStore.get r = some row ∧ False := by
        simp [orderedFind_trigram ht hname hexpr hkind]
      rw [lookupExact_some hnone]
      simp only [hop, hkind, false_and, true_implies]
    · rw [decide_eq_false hkind] at htrigram
      obtain ⟨log, hlog⟩ := ht.built.exists_log name hmem
      have hord : ∀ entry ∈ log, entry.2.IsOrdered := by
        rintro ⟨r, key⟩ hentry
        obtain ⟨row, hlive, hkey⟩ := (hlog.mem_iff r key).mp hentry
        rw [indexKeyForRow, he] at hkey
        have hsame := evaluateIndexExpression_congr hbeq row (findColumn t.schema)
        rw [show evaluateIndexExpression e row (findColumn t.schema) = .ok key from hkey] at hsame
        generalize hother : evaluateIndexExpression expression row (findColumn t.schema) =
          outcome at hsame
        cases hsame with
        | ok hv => exact (hkeys hkind hop r row _ hlive hother).of_indistinct hv
      refine iff_of_true ?_ fun h => absurd h hkind
      have hfind : ∀ r, r ∈ (t.indexManager.orderedIndex name).orderedFind node.op node.value ↔
          ∃ row, t.rowStore.get r = some row ∧ ∃ k,
            t.indexManager.indexKeyForRow name row t.schema = .ok k ∧
              compareValues k node.op node.value = true := fun r => by
        rw [hlog.mem_orderedFind htrigram hord]
        simp only [exists_and_left]
      exact (lookupExact_some hfind).mpr fun r row _ =>
        comparison_iff_key ht hname hexpr hkind hrhs row

section Example

/-- `a + 1 > 3`. -/
def sumAboveThree : ComparisonPred :=
  { column := "a"
    op := .greater
    value := .double (.ofInt64 3)
    expression := some { kind := .add, column := "a", literal := .int 1 } }

/-- `trigram(s) = 'abc'`. -/
def trigramEquals : ComparisonPred :=
  { column := "s"
    op := .equal
    value := .string [97, 98, 99]
    expression := some (trigramExpression "s") }

/-- `a < 2` on an index on the expression `a`. -/
def belowTwo : ComparisonPred :=
  { column := "a", op := .less, value := .double (.ofInt64 2),
    expression := some { column := "a" } }

/-- The numbers 1 and 3 under an index on `a + 1`. -/
def sumOps : List TableOp :=
  [.createExpressionIndex "e" { kind := .add, column := "a", literal := .int 1 },
    .insert [.double (.ofInt64 1)] 0, .insert [.double (.ofInt64 3)] 0]

/-- A column of texts. -/
def textTable : Table := { name := "t", schema := [{ name := "s", type := .string }] }

/-- The text `abcd` under a trigram index. -/
def textOps : List TableOp :=
  [.createExpressionIndex "g" (trigramExpression "s"), .insert [.string [97, 98, 99, 100]] 0]

/-- The number 1, then a NaN, under an index on the expression `a`. -/
def nanExpressionOps : List TableOp :=
  [.createExpressionIndex "e" { column := "a" }, .insert [.double (.ofInt64 1)] 0,
    .insert [.double .nan] 0]

/-- The range lookup on the sum is exact. -/
theorem lookupExact_sum : ∃ t, forM sumOps TableOp.perform Table.doubleTable = .ok ⟨⟩ t ∧
    LookupExact (fun _ _ => .ok false) t "t" sumAboveThree
      (servedLookup t sumAboveThree .orderedRange) := by
  have hret : Exec.Returns (forM sumOps TableOp.perform) Table.doubleTable fun _ t =>
      (isIndexableComparison oneRowStats t.catalog 2
        (.comparison sumAboveThree : Predicate Empty)).map
        Prod.fst = some .orderedRange ∧
      ∀ entry ∈ t.rowStore.liveEntries, ∀ e ∈ sumAboveThree.expression,
        ((evaluateIndexExpression e entry.2 t.columnIndex).toOption.all fun key =>
          decide key.IsOrdered) = true := by
    decide +kernel
  obtain ⟨_, t, hrun, hserved, hord⟩ := hret
  obtain ⟨⟨path, cost⟩, hserved, hpath⟩ := Option.map_eq_some_iff.mp hserved
  simp only at hpath
  subst hpath
  have hnew : Table.construct "t" [{ name := "a", type := .double }] [] [] [] =
    .ok Table.doubleTable := rfl
  have hcur := Table.current_of_run hnew hrun
  refine ⟨t, hrun, (lookupExact_iff hcur rfl hserved fun _ _ r row key hlive hkey => ?_).mpr
    (by simp)⟩
  have hmem := (PageRowStore.mem_liveEntries hcur.rows.valid r row).mpr hlive
  have hall := hord (r, row) hmem _ rfl
  rw [hkey] at hall
  simpa [Except.toOption] using hall

/-- The row with the text `abcd` is found under the trigram `abc`, which its text is not. The number
1 is not found below 2 because a NaN stands before it in the ordered store. -/
theorem not_lookupExact_trigram :
    (∃ t, forM textOps TableOp.perform textTable = .ok ⟨⟩ t ∧
      (isIndexableComparison oneRowStats t.catalog 1
        (.comparison trigramEquals : Predicate Empty)).map
        Prod.fst = some .hashEq ∧
      ¬LookupExact (fun _ _ => .ok false) t "t" trigramEquals
        (servedLookup t trigramEquals .hashEq)) ∧
    ∃ t, forM nanExpressionOps TableOp.perform Table.doubleTable = .ok ⟨⟩ t ∧
      (isIndexableComparison oneRowStats t.catalog 2 (.comparison belowTwo : Predicate Empty)).map
        Prod.fst = some .orderedRange ∧
      ¬LookupExact (fun _ _ => .ok false)
        t "t" belowTwo (servedLookup t belowTwo .orderedRange) := by
  have htext : Exec.Returns (forM textOps TableOp.perform) textTable fun _ t =>
      (isIndexableComparison oneRowStats t.catalog 1
        (.comparison trigramEquals : Predicate Empty)).map
        Prod.fst = some .hashEq ∧ servedLookup t trigramEquals .hashEq = some [0] ∧
      t.rowStore.get 0 = some [.string [97, 98, 99, 100]] ∧
      evalPredicate (fun _ _ => .ok false) [.string [97, 98, 99, 100]] (scopedLookup t "t")
        (.comparison trigramEquals : Predicate Empty) = .ok false := by
    decide
  have hnan : Exec.Returns (forM nanExpressionOps TableOp.perform) Table.doubleTable fun _ t =>
      (isIndexableComparison oneRowStats t.catalog 2 (.comparison belowTwo : Predicate Empty)).map
        Prod.fst = some .orderedRange ∧ servedLookup t belowTwo .orderedRange = some [] ∧
      t.rowStore.get 0 = some [.double (.ofInt64 1)] ∧
      evalPredicate (fun _ _ => .ok false) [.double (.ofInt64 1)] (scopedLookup t "t")
        (.comparison belowTwo : Predicate Empty) = .ok true := by
    decide +kernel
  obtain ⟨_, t, hrun, hserved, hfound, hlive, hfalse⟩ := htext
  obtain ⟨_, t', hrun', hserved', hfound', hlive', htrue⟩ := hnan
  refine ⟨⟨t, hrun, hserved, ?_⟩, t', hrun', hserved', ?_⟩
  · rintro ⟨_, heq, hexact⟩
    obtain rfl := Option.mem_unique hfound heq
    obtain ⟨row, hrow, htrue⟩ := (hexact 0).mp (by simp)
    rw [hlive] at hrow
    obtain rfl := Option.some.inj hrow
    rw [hfalse] at htrue
    cases htrue
  · rintro ⟨_, heq, hexact⟩
    obtain rfl := Option.mem_unique hfound' heq
    exact absurd ((hexact 0).mpr ⟨_, hlive', htrue⟩) List.not_mem_nil

end Example

end VertexDB
