import VertexDB.Execution.SelectScan
import VertexDB.Planner.ConjunctChoice
import VertexDB.Planner.PredicateTrees
import VertexDB.Storage.IndexedTable

/-!
# What index probes find

When the indexes of a table agree with the visible rows, the probes of an access path find the rows
on which the conjunct that the path serves is true.
-/

namespace VertexDB

open Planner IndexManager Option Std.ExtTreeMap Bool List

/-- The index that serves the left side of a comparison or IN list. -/
def Table.operandIndexName (t : Table) (column : String) (expression : Option IndexExpression) :
    Option String :=
  match expression with
  | some expression => t.indexManager.expressionIndexName expression
  | none => t.indexManager.columnIndexName [column] t.schema

/-- The hash stores of the table agree with the visible rows: a visible row is found under its keys
and no others. -/
structure Table.HashServes (t : Table) (visible : ℕ → Option Row) : Prop where
  canonical : t.Canonical
  expressionColumns : ∀ (name : String) expression,
    t.indexManager.indexExpressions[name]? = some expression →
      (t.columnIndex expression.column).isSome
  hash : ∀ name r row, visible r = some row → ∀ key,
    r ∈ (t.indexManager.hashIndex name).find key ↔ t.indexManager.HasKey name row t.schema key

/-- The keys of the index are single values: it is on an expression or on one column. -/
def IndexManager.IsSingle (m : IndexManager) (name : String) : Prop :=
  name ∈ m.indexExpressions ∨ ∃ i, m.indexColumns[name]? = some [i]

/-- The indexes of the table agree with the visible rows: so do the hash stores, and the ordered
stores on single values order the visible rows by their keys. -/
structure Table.IndexesServe (t : Table) (visible : ℕ → Option Row) : Prop
    extends t.HashServes visible where
  ordered : ∀ name r row, visible r = some row → t.indexManager.IsSingle name →
    t.indexManager.isTrigram name = false →
    ∀ op value, r ∈ (t.indexManager.orderedIndex name).orderedFind op value ↔
      ∃ key, t.indexManager.indexKeyForRow name row t.schema = .ok key ∧
        compareValues key op value = true

variable {column name : String} {expression : Option IndexExpression}

section Probes

variable {t : Table} {visible : ℕ → Option Row}

theorem scopedLookup_eq (h : (t.columnIndex column).isSome) (scope : String) :
    scopedLookup t scope column = t.columnIndex column := by
  obtain ⟨i, hi⟩ := isSome_iff_exists.mp h
  rw [scopedLookup, hi]

theorem evaluateIndexExpression_lookup {e : IndexExpression} {lookup lookup' : String → Option ℕ}
    (h : lookup e.column = lookup' e.column) (row : Row) :
    evaluateIndexExpression e row lookup = evaluateIndexExpression e row lookup' := by
  rw [evaluateIndexExpression, evaluateIndexExpression, h]

theorem Table.HashServes.columnIndex (ht : t.HashServes visible)
    (h : t.indexManager.columnIndexName [column] t.schema = some name) :
    ∃ i, t.columnIndex column = some i ∧ t.indexManager.indexColumns[name]? = some [i] ∧
      t.indexManager.indexExpressions[name]? = none := by
  obtain ⟨indexes, hcols, hexpr, hnames⟩ := columnIndexName_eq_some h
  obtain ⟨i, rfl, rfl⟩ := map_eq_singleton_iff.mp hnames
  exact ⟨i, ht.canonical name [i] hcols i mem_cons_self, hcols, hexpr⟩

/-- An index that serves a left side other than `trigram(..)` has its value as key. -/
theorem Table.HashServes.sameOutcome_indexKeyForRow (ht : t.HashServes visible)
    (hname : t.operandIndexName column expression = some name)
    (hkind : ∀ e, expression = some e → e.kind ≠ .trigram) (scope : String) :
    t.indexManager.IsSingle name ∧ t.indexManager.isTrigram name = false ∧
      ∀ row, SameOutcome (t.indexManager.indexKeyForRow name row t.schema)
        (operandValue column expression row (scopedLookup t scope)) := by
  cases expression with
  | none =>
    obtain ⟨i, hi, hcols, hexpr⟩ := ht.columnIndex hname
    have hlookup : scopedLookup t scope column = some i := by
      rw [scopedLookup_eq (by rw [hi]; rfl), hi]
    refine ⟨Or.inr ⟨i, hcols⟩, by rw [isTrigram, hexpr], fun row => ?_⟩
    rw [indexKeyForRow, hexpr, hcols, operandValue, hlookup]
    exact SameOutcome.refl _
  | some expression =>
    obtain ⟨e, he, hbeq⟩ := expressionIndexName_eq_some hname
    have hparts := hbeq
    simp only [IndexExpression.beq, and_eq_true, beq_iff_eq] at hparts
    obtain ⟨⟨hkinds, hcol⟩, -⟩ := hparts
    have hlookup : scopedLookup t scope expression.column = findColumn t.schema expression.column :=
      scopedLookup_eq (hcol ▸ ht.expressionColumns name e he) scope
    refine ⟨Or.inl (mem_iff_isSome_getElem?.mpr (by rw [he]; rfl)), ?_,
      fun row => ?_⟩
    · rw [isTrigram, he]
      exact decide_eq_false (hkinds ▸ hkind expression rfl)
    · rw [indexKeyForRow, he, operandValue, evaluateIndexExpression_lookup hlookup]
      exact evaluateIndexExpression_congr hbeq row _

/-- The hash store finds a visible row under the value of the left side. -/
theorem Table.HashServes.mem_find (ht : t.HashServes visible) (scope : String)
    (hname : t.operandIndexName column expression = some name)
    (hkind : ∀ e, expression = some e → e.kind ≠ .trigram) {r : ℕ} {row : Row}
    (hr : visible r = some row) (value : Value) :
    r ∈ (t.indexManager.hashIndex name).find value ↔
      ∃ v, operandValue column expression row (scopedLookup t scope) = .ok v ∧
        v.beq value = true := by
  obtain ⟨-, htrigram, hsame⟩ := ht.sameOutcome_indexKeyForRow hname hkind scope
  rw [ht.hash name r row hr, IndexManager.HasKey, hashKeysForRow, htrigram]
  have h := hsame row
  revert h
  generalize t.indexManager.indexKeyForRow name row t.schema = key
  generalize operandValue column expression row (scopedLookup t scope) = operand
  rintro (e | ⟨hv⟩)
  · simp
  · simp [pure, Except.pure, hv.beq_eq]

/-- The ordered store finds a visible row by the order of the value of the left side. -/
theorem Table.IndexesServe.mem_orderedFind (ht : t.IndexesServe visible) (scope : String)
    (hname : t.operandIndexName column expression = some name)
    (hkind : ∀ e, expression = some e → e.kind ≠ .trigram) {r : ℕ} {row : Row}
    (hr : visible r = some row) (op : ComparisonOperator) (value : Value) :
    r ∈ (t.indexManager.orderedIndex name).orderedFind op value ↔
      ∃ v, operandValue column expression row (scopedLookup t scope) = .ok v ∧
        compareValues v op value = true := by
  obtain ⟨hsingle, htrigram, hsame⟩ := ht.sameOutcome_indexKeyForRow hname hkind scope
  rw [ht.ordered name r row hr hsingle htrigram]
  have h := hsame row
  revert h
  generalize t.indexManager.indexKeyForRow name row t.schema = key
  generalize operandValue column expression row (scopedLookup t scope) = operand
  rintro (e | ⟨hv⟩)
  · simp
  · simp [hv.compareValues_eq]

/-- The trigram index finds a visible row under the trigrams of its text. -/
theorem Table.HashServes.mem_find_trigram (ht : t.HashServes visible)
    (hname : t.indexManager.expressionIndexName (trigramExpression column) = some name) :
    ∃ i, t.columnIndex column = some i ∧ ∀ r row, visible r = some row → ∀ text,
      row.at i = .string text → ∀ gram ∈ extractTrigrams text,
        r ∈ (t.indexManager.hashIndex name).find (.string gram) := by
  obtain ⟨e, he, hbeq⟩ := expressionIndexName_eq_some hname
  have hparts := hbeq
  simp only [IndexExpression.beq, and_eq_true, beq_iff_eq, trigramExpression] at hparts
  obtain ⟨⟨hkind, hcol⟩, -⟩ := hparts
  obtain ⟨i, hi⟩ := isSome_iff_exists.mp (ht.expressionColumns name e he)
  refine ⟨i, hcol ▸ hi, fun r row hr text htext gram hgram => ?_⟩
  rw [ht.hash name r row hr]
  have hkey : t.indexManager.indexKeyForRow name row t.schema = .ok (.string text) := by
    have hi' : findColumn t.schema e.column = some i := hi
    rw [indexKeyForRow, he]
    simp only [evaluateIndexExpression, hi', hkind, htext]
    rfl
  have htrigram : t.indexManager.isTrigram name = true := by
    rw [isTrigram, he]
    exact decide_eq_true hkind
  refine ⟨(extractTrigrams text).map .string, ?_, .string gram, mem_map_of_mem hgram, ?_⟩
  · rw [hashKeysForRow, hkey, htrigram]
    rfl
  · simp [Value.beq]

end Probes

section Current

variable {t : Table} {visible : ℕ → Option Row}

/-- The hash stores of a table that operations have led to agree with visible rows that are live. -/
theorem Table.Current.hashServes (ht : t.Current)
    (hvis : ∀ r row, visible r = some row → t.rowStore.get r = some row) :
    t.HashServes visible := by
  refine ⟨ht.fits.positions, fun name e he => ?_, fun name r row hr key => ?_⟩
  · obtain ⟨i, -, hi⟩ := ht.fits.expressions name e he
    exact isSome_iff_exists.mpr ⟨i, hi⟩
  by_cases hname : name ∈ t.indexManager.indexes
  · rw [ht.built.agrees.mem_find name hname r key]
    constructor
    · rintro ⟨row', hrow', hkey⟩
      rw [hvis r row hr] at hrow'
      exact Option.some.inj hrow' ▸ hkey
    · exact fun hkey => ⟨row, hvis r row hr, hkey⟩
  · -- no such index: no store and no keys
    have hcols : name ∉ t.indexManager.indexColumns := by rwa [← ht.fits.mem_indexes]
    have hexpr : t.indexManager.indexExpressions[name]? = none := by
      by_contra hne
      obtain ⟨e, he⟩ := ne_none_iff_exists'.mp hne
      obtain ⟨i, hi, -⟩ := ht.fits.expressions name e he
      exact hcols (mem_iff_isSome_getElem?.mpr (by rw [hi]; rfl))
    refine iff_of_false ?_ ?_
    · simp [hashIndex, hname, HashIndex.find, HashIndex.lookup]
    · rintro ⟨keys, hkeys, -⟩
      simp only [hashKeysForRow, indexKeyForRow, hexpr,
        getElem?_eq_none hcols] at hkeys
      cases hkeys

/-- The ordered stores do so too when no key is a NaN. -/
theorem Table.Current.indexesServe (ht : t.Current)
    (hkeys : t.indexManager.OrderedKeys t.rowStore t.schema)
    (hvis : ∀ r row, visible r = some row → t.rowStore.get r = some row) :
    t.IndexesServe visible := by
  refine ⟨ht.hashServes hvis, fun name r row hr hsingle htri op value => ?_⟩
  obtain ⟨i, hi⟩ : ∃ i, t.indexManager.indexColumns[name]? = some [i] := by
    rcases hsingle with hexpr | hcolumn
    · obtain ⟨e, he⟩ := isSome_iff_exists.mp (mem_iff_isSome_getElem?.mp hexpr)
      obtain ⟨i, hi, -⟩ := ht.fits.expressions name e he
      exact ⟨i, hi⟩
    · exact hcolumn
  rw [ht.built.mem_orderedFind hkeys hi, hvis r row hr]
  simp [htri]

/-- Whether the visible rows are live is decided on the visible entries. -/
theorem Table.Current.hashServes_read (ht : t.Current) {snapshot : ReadSnapshot}
    {m : TransactionManager}
    (h : ∀ entry ∈ t.versions.visibleEntries snapshot m, t.rowStore.get entry.1 = some entry.2) :
    t.HashServes fun r => t.versions.read r snapshot m :=
  ht.hashServes fun r row hread =>
    h (r, row) ((t.versions.mem_visibleEntries snapshot m r row).mpr hread)

end Current

/-- The predicate compares no `trigram(..)` expression. -/
def noTrigramComparison {σ : Type} : Predicate σ → Bool
  | .comparison node => node.expression.all fun e => e.kind ≠ .trigram
  | .inList node => node.expression.all fun e => e.kind ≠ .trigram
  | .and left right => noTrigramComparison left && noTrigramComparison right
  | .or left right => noTrigramComparison left && noTrigramComparison right
  | _ => true

section NoTrigram

variable {σ : Type} {p : Predicate σ}

theorem noTrigramComparison_of_mem_collectAndConjuncts (h : noTrigramComparison p = true) :
    ∀ q ∈ collectAndConjuncts p, noTrigramComparison q = true := by
  induction p with
  | and left right ihl ihr =>
    rw [noTrigramComparison, and_eq_true] at h
    rw [collectAndConjuncts, forall_mem_append]
    exact ⟨ihl h.1, ihr h.2⟩
  | _ =>
    intro q hq
    simp only [collectAndConjuncts, mem_singleton] at hq
    exact hq ▸ h

theorem noTrigramComparison_of_mem_collectOrDisjuncts (h : noTrigramComparison p = true) :
    ∀ q ∈ collectOrDisjuncts p, noTrigramComparison q = true := by
  induction p with
  | or left right ihl ihr =>
    rw [noTrigramComparison, and_eq_true] at h
    rw [collectOrDisjuncts, forall_mem_append]
    exact ⟨ihl h.1, ihr h.2⟩
  | _ =>
    intro q hq
    simp only [collectOrDisjuncts, mem_singleton] at hq
    exact hq ▸ h

theorem noTrigramComparison_rewriteToIn (h : noTrigramComparison p = true) :
    noTrigramComparison (rewriteToIn p) = true := by
  rw [rewriteToIn]
  rcases hrewrite : tryRewriteSameColumnEqualityOrToIn p with _ | q
  · exact h
  · obtain ⟨disjunct, disjuncts, first, values, hdisjs, hfirst, -, rfl⟩ :=
      tryRewriteSameColumnEqualityOrToIn_eq_some hrewrite
    have hmem : disjunct ∈ collectOrDisjuncts p := hdisjs ▸ mem_cons_self
    have := noTrigramComparison_of_mem_collectOrDisjuncts h _ hmem
    rw [(constantEquality_eq_some hfirst).1] at this
    exact this

theorem noTrigramComparison_of_mem_planConjuncts (h : noTrigramComparison p = true) :
    ∀ q ∈ planConjuncts p, noTrigramComparison q = true := by
  intro q hq
  obtain ⟨q', hq', rfl⟩ := mem_map.mp hq
  exact noTrigramComparison_rewriteToIn
    (noTrigramComparison_of_mem_collectAndConjuncts (noTrigramComparison_rewriteToIn h) _ hq')

end NoTrigram

section Candidates

variable {σ : Type} {runtime : PredicateRuntime σ} {t : Table} {scope : String}
  {visible : ℕ → Option Row} {row : Row}

theorem operandIndexName_of_hasOperandIndex
    (h : t.catalog.hasOperandIndex column expression = true) :
    ∃ name, t.operandIndexName column expression = some name := by
  cases expression <;> exact isSome_iff_exists.mp h

theorem probeLookup_eq (h : t.operandIndexName column expression = some name) (value : Value) :
    probeLookup t column expression value = some ((t.indexManager.hashIndex name).find value) := by
  cases expression with
  | none => exact map_eq_some_iff.mpr ⟨name, h, rfl⟩
  | some expression => exact map_eq_some_iff.mpr ⟨name, h, rfl⟩

theorem rangeLookup_eq (h : t.operandIndexName column expression = some name)
    (op : ComparisonOperator) (value : Value) :
    rangeLookup t column expression op value =
      some ((t.indexManager.orderedIndex name).orderedFind op value) := by
  cases expression with
  | none => exact map_eq_some_iff.mpr ⟨name, h, rfl⟩
  | some expression => exact map_eq_some_iff.mpr ⟨name, h, rfl⟩

theorem evalComparison_eq_true {node : ComparisonPred} (hrhs : node.rhsColumn = none)
    {lookup : String → Option ℕ} :
    evalComparison node row lookup = .ok true ↔
      ∃ v, operandValue node.column node.expression row lookup = .ok v ∧
        compareValues v node.op node.value = true := by
  rw [evalComparison, hrhs]
  rcases operandValue node.column node.expression row lookup with e | v
  · simp
  · simp [pure, Except.pure]

theorem matchesPredicate_comparison_eq_true {node : ComparisonPred} (hrhs : node.rhsColumn = none) :
    matchesPredicate runtime t scope row (.comparison node) = .ok true ↔
      ∃ v, operandValue node.column node.expression row (scopedLookup t scope) = .ok v ∧
        compareValues v node.op node.value = true := by
  rw [matchesPredicate, evalPredicate, evalComparison_eq_true hrhs]

theorem matchesPredicate_inList_eq_true {node : InListPred} :
    matchesPredicate runtime t scope row (.inList node) = .ok true ↔
      ∃ value ∈ node.inValues,
        ∃ v, operandValue node.column node.expression row (scopedLookup t scope) = .ok v ∧
          v.beq value = true := by
  rw [matchesPredicate, evalPredicate, evalInList]
  rcases operandValue node.column node.expression row (scopedLookup t scope) with e | v
  · simp
  · simp [pure, Except.pure]

theorem exists_of_matchesPredicate_like_eq_true {node : PatternPred}
    (h : matchesPredicate runtime t scope row (.like node) = .ok true) :
    ∃ i text, scopedLookup t scope node.column = some i ∧ row.at i = .string text ∧
      matchLikePattern text node.pattern = true := by
  rw [matchesPredicate, evalPredicate, evalPattern] at h
  split at h
  · cases h
  · rename_i i hi
    split at h
    · cases h
    · rename_i text htext
      exact ⟨i, text, hi, htext, Except.ok.inj h⟩
    · rename_i value _ _
      rcases hvalue : (row.at i).type with e | v <;> rw [hvalue] at h <;> cases h

/-- The row has the key that the probe of an equality asks for. -/
def ProbeFinds (t : Table) (row : Row) (p : Predicate σ) : Prop :=
  ∃ node name, p = .comparison node ∧
    t.operandIndexName node.column node.expression = some name ∧
    t.indexManager.HasKey name row t.schema node.value

theorem mem_probe_iff (ht : t.HashServes visible) {p : Predicate σ}
    (hp : isEqualityIndexProbe t.catalog p = true) {r : ℕ} (hr : visible r = some row) :
    r ∈ evalBitmapNode t (.probe (makeEqualityProbe p)) ↔ ProbeFinds t row p := by
  cases p with
  | comparison node =>
    simp only [isEqualityIndexProbe, and_eq_true, decide_eq_true_eq, isNone_iff_eq_none] at hp
    obtain ⟨name, hname⟩ := operandIndexName_of_hasOperandIndex hp.2
    rw [evalBitmapNode, makeEqualityProbe, mem_insertionSort]
    simp only [probeLookup_eq hname, getD_some, ht.hash name r row hr]
    constructor
    · exact fun h => ⟨node, name, rfl, hname, h⟩
    · rintro ⟨_, name', ⟨⟩, hname', h⟩
      rw [hname] at hname'
      exact Option.some.inj hname' ▸ h
  | _ => cases hp

/-- A row has the key of an equality just when the equality is true, unless it compares a
`trigram(..)`. -/
theorem probeFinds_iff (ht : t.HashServes visible) {p : Predicate σ}
    (hp : isEqualityIndexProbe t.catalog p = true) (hkind : noTrigramComparison p = true) {r : ℕ}
    (hr : visible r = some row) :
    ProbeFinds t row p ↔ matchesPredicate runtime t scope row p = .ok true := by
  rw [← mem_probe_iff ht hp hr]
  cases p with
  | comparison node =>
    simp only [isEqualityIndexProbe, and_eq_true, decide_eq_true_eq, isNone_iff_eq_none] at hp
    obtain ⟨⟨hrhs, hop⟩, hidx⟩ := hp
    obtain ⟨name, hname⟩ := operandIndexName_of_hasOperandIndex hidx
    rw [matchesPredicate_comparison_eq_true hrhs, hop, evalBitmapNode, makeEqualityProbe]
    simp only [probeLookup_eq hname, getD_some, mem_insertionSort]
    exact ht.mem_find scope hname
      (by simpa [noTrigramComparison, Option.all_eq_true] using hkind) hr _
  | _ => cases hp

end Candidates

end VertexDB
