import VertexDB.Execution.IntersectScan
import Mathlib.Algebra.BigOperators.Group.List.Basic

/-!
# How often a scan returns a row

`collectVisibleEntries` concatenates what the lookups of a path return and keeps the repetitions. A
row is found once for every value of an IN list that equals its key, and once for every trigram of
its text that equals the trigram looked up. Intersections keep the least, unions the greatest of
these numbers.
-/

namespace VertexDB

open Planner IndexManager Option List

section Counts

/-- How often the hash store of an index finds a live row under a value. -/
def keyCount (t : Table) (name : Option String) (value : Value) (live : Row) : ℕ :=
  match name with
  | none => 0
  | some name =>
    match t.indexManager.hashKeysForRow name live t.schema with
    | .error _ => 0
    | .ok keys => keys.countP (·.beq value)

/-- How often the lookup of a probe finds a live row. -/
def probeCount (t : Table) (column : String) (expression : Option IndexExpression) (value : Value)
    (live : Row) : ℕ :=
  keyCount t (t.operandIndexName column expression) value live

mutual

/-- How often a bitmap node has a live row. -/
def nodeCount (t : Table) (live : Row) : IndexBitmapNode → ℕ
  | .probe probe => probeCount t probe.column probe.expression probe.value live
  | .intersect children => (nodeCounts t live children).min?.getD 0
  | .union children => (nodeCounts t live children).max?.getD 0

/-- The numbers of the children. -/
def nodeCounts (t : Table) (live : Row) : List IndexBitmapNode → List ℕ
  | [] => []
  | child :: children => nodeCount t live child :: nodeCounts t live children

end

/-- How often the lookups of a path find a live row. An ordered lookup finds it at most once, and so
do the two lookups of a LIKE together. -/
def pathCount (t : Table) (live : Row) : AccessPathPlan → ℕ
  | .fullScan | .orderedRange .. | .prefixLike .. => 1
  | .hashEq column expression value columns =>
    if expression.isNone ∧ columns ≠ [] then
      keyCount t (t.indexManager.columnIndexName columns t.schema) value live
    else probeCount t column expression value live
  | .hashIn column expression values =>
    (values.map fun value => probeCount t column expression value live).sum
  | .intersect children => nodeCount t live (.intersect children)
  | .union children => nodeCount t live (.union children)

/-- The number for the live row of a row id, none when there is no such row. -/
def liveCount (t : Table) (count : Row → ℕ) (r : ℕ) : ℕ := ((t.rowStore.get r).map count).getD 0

theorem liveCount_le_one {t : Table} {count : Row → ℕ} {r : ℕ} :
    liveCount t count r ≤ 1 ↔ ∀ live, t.rowStore.get r = some live → count live ≤ 1 := by
  rw [liveCount]
  cases t.rowStore.get r <;> simp

theorem liveCount_zero (t : Table) (r : ℕ) : liveCount t (fun _ => 0) r = 0 := by
  rw [liveCount]
  cases t.rowStore.get r <;> rfl

end Counts

section Lookups

variable {t : Table}

theorem mem_indexColumns_of_columnIndexName {columns : List String} {name : String}
    (h : t.indexManager.columnIndexName columns t.schema = some name) :
    name ∈ t.indexManager.indexColumns := by
  obtain ⟨positions, hpositions, -⟩ := Table.columnIndexName_eq_some h
  exact Std.ExtTreeMap.mem_iff_isSome_getElem?.mpr (by rw [hpositions]; rfl)

variable (ht : t.Current)

include ht

/-- A lookup in a hash store returns a row id once for every key of its row that equals the
value. -/
theorem count_find {name : String} (hname : name ∈ t.indexManager.indexColumns) (value : Value)
    (r : ℕ) : ((t.indexManager.hashIndex name).find value).count r =
      liveCount t (keyCount t (some name) value) r := by
  obtain ⟨log, hlog⟩ := ht.built.exists_log name hname
  rw [liveCount]
  cases hlive : t.rowStore.get r with
  | none =>
    refine count_eq_zero_of_not_mem fun hr => ?_
    rw [hlog.find, mem_hits] at hr
    obtain ⟨k, hmem, -⟩ := hr
    obtain ⟨row, hrow, -⟩ := (hlog.mem_iff r k).mp hmem
    rw [hlive] at hrow
    cases hrow
  | some live =>
    have hidxable := ht.built.indexable r live hlive name (Std.ExtTreeMap.mem_keys.mpr hname)
    cases hk : t.indexManager.indexKeyForRow name live t.schema with
    | error e =>
      rw [hk] at hidxable
      cases hidxable
    | ok k =>
      rw [hlog.count_find hlive hk]
      simp [keyCount, hashKeysForRow_ok hk]

theorem mem_indexColumns_of_operandIndexName {column name : String}
    {expression : Option IndexExpression} (h : t.operandIndexName column expression = some name) :
    name ∈ t.indexManager.indexColumns := by
  cases expression with
  | none => exact mem_indexColumns_of_columnIndexName h
  | some expression =>
    obtain ⟨e, he, -⟩ := Table.expressionIndexName_eq_some h
    obtain ⟨i, hi, -⟩ := ht.fits.expressions name e he
    exact Std.ExtTreeMap.mem_iff_isSome_getElem?.mpr (by rw [hi]; rfl)

/-- How often the lookup of a probe returns a row id. -/
theorem count_probeLookup (column : String) (expression : Option IndexExpression) (value : Value)
    (r : ℕ) : ((probeLookup t column expression value).getD []).count r =
      liveCount t (probeCount t column expression value) r := by
  change _ = liveCount t (keyCount t (t.operandIndexName column expression) value) r
  cases hname : t.operandIndexName column expression with
  | none =>
    have hlookup : probeLookup t column expression value = none := by
      cases expression <;> exact map_eq_none_iff.mpr hname
    rw [hlookup]
    exact (liveCount_zero t r).symm
  | some name =>
    rw [probeLookup_eq hname, getD_some,
      count_find ht (mem_indexColumns_of_operandIndexName ht hname)]

end Lookups

section Bitmaps

variable {t : Table} {children : List IndexBitmapNode}

private theorem foldl_min_zero (counts : List ℕ) : counts.foldl min 0 = 0 := by
  induction counts with
  | nil => rfl
  | cons count counts ih => simpa using ih

theorem nodeCounts_eq_map (t : Table) (live : Row) (children : List IndexBitmapNode) :
    nodeCounts t live children = children.map (nodeCount t live) := by
  induction children with
  | nil => rfl
  | cons child children ih => rw [nodeCounts, ih, map_cons]

/-- The children decide the number of an intersection. -/
theorem count_intersect {r : ℕ} (h : ∀ child ∈ children,
    (evalBitmapNode t child).count r = liveCount t (nodeCount t · child) r) :
    (evalIntersectChildren t none children).count r =
      liveCount t (nodeCount t · (.intersect children)) r := by
  cases children with
  | nil =>
    rw [liveCount]
    cases t.rowStore.get r <;> simp [evalIntersectChildren, nodeCount, nodeCounts]
  | cons child children =>
    obtain ⟨hchild, hchildren⟩ := forall_mem_cons.mp h
    rw [count_evalIntersectChildren, hchild, map_congr_left hchildren]
    simp only [liveCount]
    cases t.rowStore.get r with
    | none => simp [foldl_min_zero]
    | some live =>
      simp only [nodeCount, map_some, getD_some]
      rw [nodeCounts_eq_map, map_cons, min?_cons', getD_some]

/-- The children decide the number of a union. -/
theorem count_union {r : ℕ} (h : ∀ child ∈ children,
    (evalBitmapNode t child).count r = liveCount t (nodeCount t · child) r) :
    (evalUnionChildren t none children).count r =
      liveCount t (nodeCount t · (.union children)) r := by
  rw [count_evalUnionChildren, map_congr_left h]
  simp only [liveCount]
  cases t.rowStore.get r with
  | none =>
    clear h
    induction children with
    | nil => rfl
    | cons child children ih => simpa using ih
  | some live =>
    simp only [nodeCount, nodeCounts_eq_map, map_some, getD_some]
    cases children with
    | nil => rfl
    | cons child children =>
      rw [map_cons, max?_cons', getD_some]
      simp

mutual

/-- A bitmap node has a row id as often as the keys of its live row say. -/
theorem count_evalBitmapNode (ht : t.Current) (r : ℕ) : (node : IndexBitmapNode) →
    (evalBitmapNode t node).count r = liveCount t (nodeCount t · node) r
  | .probe probe => by
    rw [evalBitmapNode, (perm_insertionSort _ _).count_eq,
      count_probeLookup ht probe.column probe.expression probe.value r]
    simp only [nodeCount]
  | .intersect children => by
    rw [evalBitmapNode]
    exact count_intersect (count_evalBitmapNodes ht r children)
  | .union children => by
    rw [evalBitmapNode]
    exact count_union (count_evalBitmapNodes ht r children)

theorem count_evalBitmapNodes (ht : t.Current) (r : ℕ) : (children : List IndexBitmapNode) →
    ∀ child ∈ children, (evalBitmapNode t child).count r = liveCount t (nodeCount t · child) r
  | [] => by simp
  | child :: children => forall_mem_cons.mpr
    ⟨count_evalBitmapNode ht r child, count_evalBitmapNodes ht r children⟩

end

end Bitmaps

section Scan

variable {σ : Type} {runtime : PredicateRuntime σ} {t : Table} {scope : String}
  {snapshot : ReadSnapshot} {m : TransactionManager} {plan : QueryPlan σ}
  {entries : List (ℕ × Row)}

/-- The visible entries of some row ids have each visible row as often as these. -/
theorem count_visibleEntriesById (s : MvccRowStore) (rowIds : List ℕ) {keep : ℕ × Row → Bool}
    {r : ℕ} {row : Row} (hread : s.read r snapshot m = some row) :
    (((s.visibleEntriesById rowIds snapshot m).filter keep).map Prod.fst).count r =
      if keep (r, row) then rowIds.count r else 0 := by
  induction rowIds with
  | nil => simp [MvccRowStore.visibleEntriesById]
  | cons i rowIds ih =>
    rw [MvccRowStore.visibleEntriesById] at ih ⊢
    rw [filterMap_cons, count_cons]
    by_cases hi : i = r
    · subst hi
      cases hkeep : keep (i, row) <;> simp_all
    · cases hother : s.read i snapshot m with
      | none => simp [ih, hi]
      | some other => cases hkeep : keep (i, other) <;> simp_all

variable {residual : Option (Predicate σ)}

/-- Filtered candidates repeat no row just when no kept row is repeated among the candidates. -/
theorem nodup_applyResidual_iff {rowIds : List ℕ}
    (hok : applyResidual (fun p row => matchesPredicate runtime t scope row p) residual
      (t.versions.visibleEntriesById rowIds snapshot m) = .ok entries) :
    (entries.map Prod.fst).Nodup ↔ ∀ r row, t.versions.read r snapshot m = some row →
      (∀ p, residual = some p → matchesPredicate runtime t scope row p = .ok true) →
      rowIds.count r ≤ 1 := by
  obtain ⟨keep, rfl, hkeep⟩ : ∃ keep : ℕ × Row → Bool,
      entries = (t.versions.visibleEntriesById rowIds snapshot m).filter keep ∧
      ∀ r row, r ∈ rowIds → t.versions.read r snapshot m = some row → (keep (r, row) = true ↔
        ∀ p, residual = some p → matchesPredicate runtime t scope row p = .ok true) := by
    cases residual with
    | none => exact ⟨fun _ => true, by simpa using (Except.ok.inj hok).symm, by simp⟩
    | some p =>
      obtain ⟨hall, rfl⟩ := filterEntries_eq_ok.mp hok
      refine ⟨_, rfl, fun r row hr hread => ?_⟩
      obtain ⟨b, hb⟩ := hall (r, row)
        ((t.versions.mem_visibleEntriesById rowIds snapshot m r row).mpr ⟨hr, hread⟩)
      simp only at hb
      cases b <;> simp [hb, Except.toOption]
  rw [nodup_iff_count_le_one]
  constructor
  · intro hcount r row hread hkept
    by_cases hr : r ∈ rowIds
    · have hle := hcount r
      rwa [count_visibleEntriesById t.versions rowIds hread,
        if_pos ((hkeep r row hr hread).mpr hkept)] at hle
    · rw [count_eq_zero_of_not_mem hr]
      exact Nat.zero_le 1
  · intro hcount r
    by_cases hr : r ∈ ((t.versions.visibleEntriesById rowIds snapshot m).filter keep).map Prod.fst
    · obtain ⟨⟨_, row⟩, hentry, rfl⟩ := mem_map.mp hr
      obtain ⟨hentry, hkept⟩ := mem_filter.mp hentry
      obtain ⟨hmem, hread⟩ := (t.versions.mem_visibleEntriesById rowIds snapshot m _ row).mp hentry
      rw [count_visibleEntriesById t.versions rowIds hread, if_pos hkept]
      exact hcount _ row hread ((hkeep _ row hmem hread).mp hkept)
    · rw [count_eq_zero_of_not_mem hr]
      exact Nat.zero_le 1

/-- The filter of the plan lets a visible row pass: its residual is true, or the path is a union. -/
def Keeps (runtime : PredicateRuntime σ) (t : Table) (scope : String) (row : Row)
    (plan : QueryPlan σ) : Prop :=
  (∃ children, plan.path = .union children) ∨
    ∀ p, plan.residual = some p → matchesPredicate runtime t scope row p = .ok true

/-- The filter of the plan is the one of the candidates. -/
theorem keeps_iff {row : Row} : Keeps runtime t scope row plan ↔
    ∀ p, candidateFilter plan = some p → matchesPredicate runtime t scope row p = .ok true := by
  obtain ⟨path, residual, complementary⟩ := plan
  cases path <;> simp [Keeps, candidateFilter]

theorem nodup_append_of_adds {out added : List (ℕ × Row)} (h : Adds t snapshot m out added) :
    ((out ++ added).map Prod.fst).Nodup ↔ (out.map Prod.fst).Nodup := by
  have hvis : ((t.versions.visibleEntries snapshot m).map Prod.fst).Nodup :=
    pairwise_map.mpr ((t.versions.visibleEntries_sorted snapshot m).imp fun h => h.ne)
  rw [map_append, nodup_append', and_iff_left ⟨hvis.sublist (h.1.map _), h.2⟩]

section Paths

variable (ht : t.Current)

include ht

theorem count_hashEq (column : String) (expression : Option IndexExpression) (value : Value)
    (columns : List String) (r : ℕ) :
    (candidates t (.hashEq column expression value columns)).count r =
      liveCount t (pathCount t · (.hashEq column expression value columns)) r := by
  simp only [candidates, pathCount]
  split_ifs
  · cases hname : t.indexManager.columnIndexName columns t.schema with
    | none => simp [Table.indexedLookup, indexedLookup, hname, keyCount, liveCount_zero]
    | some name =>
      rw [← count_find ht (mem_indexColumns_of_columnIndexName hname), Table.indexedLookup,
        indexedLookup, hname]
      rfl
  · exact count_probeLookup ht column expression value r

theorem count_hashIn (column : String) (expression : Option IndexExpression) (values : List Value)
    (r : ℕ) : (candidates t (.hashIn column expression values)).count r =
      liveCount t (pathCount t · (.hashIn column expression values)) r := by
  rw [candidates, count_flatMap, Function.comp_def]
  simp only [count_probeLookup ht, pathCount, liveCount]
  cases t.rowStore.get r with
  | none => simp
  | some live => rfl

theorem nodup_orderedRange (column : String) (expression : Option IndexExpression)
    (op : ComparisonOperator) (value : Value) :
    (candidates t (.orderedRange column expression op value)).Nodup := by
  rw [candidates]
  cases hname : t.operandIndexName column expression with
  | none =>
    have hlookup : rangeLookup t column expression op value = none := by
      cases expression <;> exact map_eq_none_iff.mpr hname
    simp [hlookup]
  | some name =>
    obtain ⟨log, hlog⟩ := ht.built.exists_log name (mem_indexColumns_of_operandIndexName ht hname)
    rw [rangeLookup_eq hname]
    exact hlog.nodup_orderedFind op value

theorem nodup_prefixLike (column : String) (literal : List UInt8) :
    (candidates t (.prefixLike column literal)).Nodup := by
  cases hname : t.indexManager.columnIndexName [column] t.schema with
  | none =>
    simp [candidates, Table.indexedLookup, Table.orderedLookup, indexedLookup, orderedLookup, hname]
  | some name =>
    obtain ⟨log, hlog⟩ := ht.built.exists_log name (mem_indexColumns_of_columnIndexName hname)
    obtain ⟨_, -, hexpr, -⟩ := Table.columnIndexName_eq_some hname
    simpa [candidates, Table.indexedLookup, Table.orderedLookup, indexedLookup,
      orderedLookup, hname]
      using hlog.nodup_find_append_greater (by rw [isTrigram, hexpr]) literal

/-- The lookups of a path return a row id at most once just when they find its live row so. -/
theorem count_candidates_le_one (path : AccessPathPlan) (r : ℕ) :
    (candidates t path).count r ≤ 1 ↔
      ∀ live, t.rowStore.get r = some live → pathCount t live path ≤ 1 := by
  cases path with
  | fullScan => simp [candidates, pathCount]
  | hashEq column expression value columns =>
    rw [count_hashEq ht, liveCount_le_one]
  | orderedRange column expression op value =>
    exact iff_of_true (nodup_iff_count_le_one.mp (nodup_orderedRange ht ..) r) fun _ _ => le_rfl
  | hashIn column expression values => rw [count_hashIn ht, liveCount_le_one]
  | prefixLike column literal =>
    exact iff_of_true (nodup_iff_count_le_one.mp (nodup_prefixLike ht ..) r) fun _ _ => le_rfl
  | intersect children =>
    rw [candidates, count_intersect (count_evalBitmapNodes ht r children), liveCount_le_one]
    rfl
  | union children =>
    rw [candidates, count_union (count_evalBitmapNodes ht r children), liveCount_le_one]
    rfl

end Paths

/-- A scan returns every row at most once just when the lookups of its path find no live row more
than once that its filter keeps. -/
theorem nodup_collectVisibleEntries_iff (ht : t.Current) {filter : Option (Predicate σ)}
    (hok : collectVisibleEntries runtime t scope snapshot m filter plan = .ok entries) :
    (entries.map Prod.fst).Nodup ↔
      ∀ r live row, t.rowStore.get r = some live → t.versions.read r snapshot m = some row →
        Keeps runtime t scope row plan → pathCount t live plan.path ≤ 1 := by
  obtain ⟨out, added, rfl, hadds, hout⟩ := of_collectVisibleEntries hok
  rw [nodup_append_of_adds hadds, nodup_applyResidual_iff hout]
  simp only [count_candidates_le_one ht, keeps_iff]
  exact ⟨fun h r live row hlive hread hkept => h r row hread hkept live hlive,
    fun h r row hread hkept live hlive => h r live row hlive hread hkept⟩

end Scan

section Plain

variable {t : Table}

/-- An index other than a trigram index has one key for a row. -/
theorem keyCount_eq_one {name : String} (htrigram : t.indexManager.isTrigram name = false)
    {value : Value} {live : Row} (h : 0 < keyCount t (some name) value live) :
    keyCount t (some name) value live = 1 ∧
      t.indexManager.KeyEquals name live t.schema value := by
  simp only [keyCount] at h ⊢
  cases hk : t.indexManager.indexKeyForRow name live t.schema with
  | error e => simp [hashKeysForRow, hk] at h
  | ok k =>
    simp only [hashKeysForRow_ok hk, htrigram, storedKeys, Bool.false_eq_true, if_false] at h ⊢
    cases hbeq : k.beq value with
    | false => simp [hbeq] at h
    | true => exact ⟨by simp [hbeq], k, hk, hbeq⟩

theorem keyCount_le_one (htrigram : ∀ name, t.indexManager.isTrigram name = false)
    (name : Option String) (value : Value) (live : Row) : keyCount t name value live ≤ 1 := by
  cases name with
  | none => exact Nat.zero_le 1
  | some name =>
    rcases Nat.eq_zero_or_pos (keyCount t (some name) value live) with hzero | hpos
    · omega
    · exact (keyCount_eq_one (htrigram name) hpos).1.le

/-- A key equals at most one of values that differ. -/
theorem sum_keyCount_le_one (htrigram : ∀ name, t.indexManager.isTrigram name = false)
    (name : Option String) {values : List Value}
    (hvalues : values.Pairwise fun a b => a.beq b = false) (live : Row) :
    (values.map fun value => keyCount t name value live).sum ≤ 1 := by
  induction values with
  | nil => exact Nat.zero_le 1
  | cons value values ih =>
    obtain ⟨hvalue, hvalues'⟩ := pairwise_cons.mp hvalues
    rw [map_cons, sum_cons]
    rcases Nat.eq_zero_or_pos (keyCount t name value live) with hzero | hpos
    · rw [hzero, zero_add]
      exact ih hvalues'
    · cases name with
      | none => exact absurd hpos (lt_irrefl 0)
      | some name =>
        obtain ⟨hone, k, hk, hbeq⟩ := keyCount_eq_one (htrigram name) hpos
        have hothers : (values.map fun value => keyCount t (some name) value live).sum = 0 := by
          refine sum_eq_zero (forall_mem_map.mpr fun other hother => ?_)
          by_contra hne
          obtain ⟨-, k', hk', hbeq'⟩ := keyCount_eq_one (htrigram name) (Nat.pos_of_ne_zero hne)
          obtain rfl := Except.ok.inj (hk.symm.trans hk')
          have hsame := hvalue other hother
          rw [← Value.beq_congr_left hbeq, hbeq'] at hsame
          cases hsame
        omega

mutual

theorem nodeCount_le_one (htrigram : ∀ name, t.indexManager.isTrigram name = false) (live : Row) :
    (node : IndexBitmapNode) → nodeCount t live node ≤ 1
  | .probe _ => keyCount_le_one htrigram _ _ _
  | .intersect children => by
    rw [nodeCount]
    cases hmin : (nodeCounts t live children).min? with
    | none => exact Nat.zero_le 1
    | some count => exact nodeCounts_le_one htrigram live children count (min?_mem hmin)
  | .union children => by
    rw [nodeCount]
    cases hmax : (nodeCounts t live children).max? with
    | none => exact Nat.zero_le 1
    | some count => exact nodeCounts_le_one htrigram live children count (max?_mem hmax)

theorem nodeCounts_le_one (htrigram : ∀ name, t.indexManager.isTrigram name = false) (live : Row) :
    (children : List IndexBitmapNode) →
    ∀ count ∈ nodeCounts t live children, count ≤ 1
  | [] => by simp [nodeCounts]
  | child :: children => by
    rw [nodeCounts]
    exact forall_mem_cons.mpr
      ⟨nodeCount_le_one htrigram live child, nodeCounts_le_one htrigram live children⟩

end

/-- Without trigram indexes a row is found more than once only through equal values of an IN
list. -/
theorem pathCount_le_one (htrigram : ∀ name, t.indexManager.isTrigram name = false)
    {path : AccessPathPlan} (hvalues : ∀ column expression values,
    path = .hashIn column expression values → values.Pairwise fun a b => a.beq b = false)
    (live : Row) : pathCount t live path ≤ 1 := by
  cases path with
  | fullScan | orderedRange | prefixLike => exact le_rfl
  | hashEq column expression value columns =>
    simp only [pathCount]
    split_ifs
    · exact keyCount_le_one htrigram _ _ _
    · exact keyCount_le_one htrigram _ _ _
  | hashIn column expression values =>
    exact sum_keyCount_le_one htrigram _ (hvalues column expression values rfl) live
  | intersect children => exact nodeCount_le_one htrigram live (.intersect children)
  | union children => exact nodeCount_le_one htrigram live (.union children)

end Plain

section ThreeRows

/-- An index on `a`, and the rows `(1, 0, 0)`, `(2, 0, 0)` and `(3, 0, 0)`. -/
def threeRowOps : List TableOp :=
  [.createIndex "ia" ["a"],
    .insert [.int 1, .int 0, .int 0] systemTransactionId,
    .insert [.int 2, .int 0, .int 0] systemTransactionId,
    .insert [.int 3, .int 0, .int 0] systemTransactionId]

/-- Statistics that count the rows. -/
def threeRowStats : RelationStats ℚ where
  rowCount := 3
  columnHistogram := fun _ => none

/-- `a IN (values)`. -/
def inInts (values : List Int64) : Predicate Empty :=
  .inList { column := "a", inValues := values.map .int }

/-- The values that a path looks up one after another. -/
def hashInValues : AccessPathPlan → Option (List Value)
  | .hashIn _ _ values => some values
  | _ => none

/-- `a IN (1, 2)` returns each of the two rows once. -/
theorem nodup_in_one_two : ∃ t entries,
    forM threeRowOps TableOp.perform threeColumnTable = .ok ⟨⟩ t ∧
    collectVisibleEntries plainRuntime t "t" {} {} (some (inInts [1, 2]))
      (planSelect (some (inInts [1, 2])) threeRowStats t.catalog) = .ok entries ∧
    entries.length = 2 ∧ (entries.map Prod.fst).Nodup := by
  have hret : Exec.Returns (forM threeRowOps TableOp.perform) threeColumnTable fun _ t =>
      t.indexManager.indexExpressions.isEmpty = true ∧
      hashInValues (planSelect (some (inInts [1, 2])) threeRowStats t.catalog).path =
        some [.int 1, .int 2] ∧
      collectVisibleEntries plainRuntime t "t" {} {} (some (inInts [1, 2]))
        (planSelect (some (inInts [1, 2])) threeRowStats t.catalog) =
          .ok [(0, [.int 1, .int 0, .int 0]), (1, [.int 2, .int 0, .int 0])] := by
    decide +kernel
  obtain ⟨_, t, hrun, hplain, hpath, hscan⟩ := hret
  have hnew : Table.construct "t" threeColumns [] [] [] = .ok threeColumnTable := rfl
  refine ⟨t, _, hrun, hscan, rfl, (nodup_collectVisibleEntries_iff (Table.current_of_run hnew hrun)
    hscan).mpr fun _ live _ _ _ _ =>
      pathCount_le_one (fun name => ?_) (fun _ _ values hin => ?_) live⟩
  · simp [isTrigram, Std.ExtTreeMap.isEmpty_iff.mp hplain]
  · rw [hin] at hpath
    obtain rfl := Option.some.inj hpath
    decide

/-- `a IN (1, 1)` returns the row `(1, 0, 0)` twice. -/
theorem not_nodup_in_one_one : ∃ t entries,
    forM threeRowOps TableOp.perform threeColumnTable = .ok ⟨⟩ t ∧
    collectVisibleEntries plainRuntime t "t" {} {} (some (inInts [1, 1]))
      (planSelect (some (inInts [1, 1])) threeRowStats t.catalog) = .ok entries ∧
    entries.map Prod.fst = [0, 0] := by
  have hret : Exec.Returns (forM threeRowOps TableOp.perform) threeColumnTable fun _ t =>
      collectVisibleEntries plainRuntime t "t" {} {} (some (inInts [1, 1]))
        (planSelect (some (inInts [1, 1])) threeRowStats t.catalog) =
          .ok [(0, [.int 1, .int 0, .int 0]), (0, [.int 1, .int 0, .int 0])] := by
    decide +kernel
  obtain ⟨_, t, hrun, hscan⟩ := hret
  exact ⟨t, _, hrun, hscan, rfl⟩

end ThreeRows

end VertexDB
