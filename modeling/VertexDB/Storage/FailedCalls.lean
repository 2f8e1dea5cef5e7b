import VertexDB.Lib.Guarantee
import VertexDB.Storage.ConsistentTable

/-!
# Calls that throw half way

`Table::insert` and `Table::createIndex` reach the indexes last. A row without a key in one of the
indexes, such as a NULL under `-a`, makes them throw there, when the row is in the heap and in its
version chain, or when the new index is in the catalog and the stores of all indexes were cleared.
-/

namespace VertexDB

open Exec IndexManager

/-- What `Table::createIndex` is asked to index. -/
inductive IndexRequest where
  | onColumns (columns : List String)
  | onExpression (expression : IndexExpression)

namespace IndexRequest

/-- `Table::createIndex`. -/
def create (name : String) : IndexRequest → EStateM Error Table Bool
  | onColumns columns => Table.createIndex name columns
  | onExpression expression => Table.createExpressionIndex name expression

/-- The column positions of the request, when it names columns and the table has them. -/
def positions (t : Table) : IndexRequest → Option (List ℕ)
  | onColumns columns => if columns = [] then none else columns.mapM t.columnIndex
  | onExpression expression => (t.columnIndex expression.column).map fun index => [index]

/-- The expression of the request. -/
def indexExpression : IndexRequest → Option IndexExpression
  | onColumns _ => none
  | onExpression expression => some expression

end IndexRequest

namespace IndexManager

variable {m m' : IndexManager} {rowStore : PageRowStore} {schema : List Column}

/-- Computations that keep the definitions of the indexes, each with its two stores. -/
def definitionsKept : Guarantee IndexManager where
  inv := Registered
  le m m' := m'.indexColumns = m.indexColumns ∧ m'.indexExpressions = m.indexExpressions
  refl _ := ⟨rfl, rfl⟩
  trans h h' := ⟨h'.1.trans h.1, h'.2.trans h.2⟩

theorem definitionsKept_addRowToIndexes (hm : m.Registered) (rowId : ℕ) :
    definitionsKept.Run m (addRowToIndexes rowId rowStore schema) fun _ _ => True := by
  unfold addRowToIndexes
  cases rowStore.get rowId with
  | none => exact .pure hm trivial
  | some row =>
    refine .get_bind
      (.bind (.forM (R := fun _ => True) (fun name hname m' hm' hle _ => ?_) hm trivial)
      fun _ m₁ hm₁ hle₁ _ => .forM (fun name hname m' hm' hle _ => ?_) hm₁ trivial)
    · have hmem : name ∈ m'.indexColumns := by
        rwa [hle.1, ← hm.mem_indexes, ← Std.ExtTreeMap.mem_keys]
      refine .get_bind (.ofExcept_bind hm' fun keys _ => .of_eq_ok rfl ⟨fun k => ?_,
        hm'.mem_orderedIndexes⟩ ⟨rfl, rfl⟩ trivial)
      simpa [hm'.mem_indexes] using fun h => h ▸ hmem
    · have hmem : name ∈ m'.indexColumns := by
        rwa [hle.1, hle₁.1, ← hm.mem_orderedIndexes, ← Std.ExtTreeMap.mem_keys]
      refine .get_bind (.ite (fun _ => .pure hm' trivial) fun _ => .ofExcept_bind hm' fun key _ =>
        .of_eq_ok rfl ⟨hm'.mem_indexes, fun k => ?_⟩ ⟨rfl, rfl⟩ trivial)
      simpa [hm'.mem_orderedIndexes] using fun h => h ▸ hmem

theorem definitionsKept_rebuildIndexes (hm : m.Registered) :
    definitionsKept.Run m (rebuildIndexes rowStore schema) fun _ _ => True := by
  have hloop : definitionsKept.Run m.clearIndexes (forM (List.range rowStore.capacity) fun rowId =>
      addRowToIndexes rowId rowStore schema) fun _ _ => True :=
    .forM (fun rowId _ _ hm' _ _ => definitionsKept_addRowToIndexes hm' rowId)
      hm.clearIndexes trivial
  exact ⟨hloop.inv, hloop.le, hloop.post⟩

/-- A rebuild throws exactly when some row has no key in some index. -/
theorem rebuildIndexes_eq_error_iff (hm : m.Registered) (hs : rowStore.Valid) :
    (∃ e m', rebuildIndexes rowStore schema m = .error e m') ↔
      ¬∀ i row, rowStore.get i = some row → m.Indexable row schema := by
  constructor
  · rintro ⟨e, m', herror⟩ hrows
    rw [rebuildIndexes_ok hm hrows] at herror
    cases herror
  · intro hrows
    cases hrun : rebuildIndexes rowStore schema m with
    | ok u m' => exact absurd (indexable_of_rebuildIndexes hm hs hrun) hrows
    | error e m' => exact ⟨e, m', rfl⟩

end IndexManager

namespace Table

variable {t t' : Table} {request : IndexRequest}

section Insert

/-- An insert whose row has no key in some index throws, and the row stays in the heap. -/
theorem insert_throws (hstore : t.rowStore.Valid) (hm : t.indexManager.Registered) {row : Row}
    (h : t.assertUniqueRow row none = .ok ()) (hrow : ¬t.Indexable row) (writerId : ℕ) :
    ∃ e t', insert row writerId t = .error e t' ∧ t'.rowStore = t.rowStore.appended row := by
  have hget : (t.rowStore.appended row).get t.rowStore.nextRowId = some row := by
    rw [hstore.get_appended, Function.update_self]
  rw [insert_of_accepted hstore h]
  cases hrun : addRowToIndexes t.rowStore.nextRowId (t.stored row writerId) with
  | ok u t' =>
    obtain ⟨m, hm', -⟩ := onIndexes_eq_ok.mp hrun
    exact absurd (indexable_of_addRowToIndexes hm hget hm') hrow
  | error e t' =>
    obtain ⟨m, -, rfl⟩ := onIndexes_eq_error.mp hrun
    exact ⟨e, _, bind_of_error hrun, rfl⟩

theorem insert_unchanged_iff (hstore : t.rowStore.Valid) (hm : t.indexManager.Registered)
    (row : Row) (writerId : ℕ) :
    (∀ e t', insert row writerId t = .error e t' → t' = t) ↔
      t.assertUniqueRow row none ≠ .ok () ∨ t.Indexable row := by
  by_cases hcheck : t.assertUniqueRow row none = .ok ()
  · refine ⟨fun h => Or.inr ?_, fun h e t' hthrow => ?_⟩
    · by_contra hrow
      obtain ⟨e, t', hthrow, hheap⟩ := insert_throws hstore hm hcheck hrow writerId
      -- the slot was free before the call and holds the row after it
      have hsame : (t.rowStore.appended row).get t.rowStore.nextRowId =
          t.rowStore.get t.rowStore.nextRowId := by
        rw [← hheap, h e t' hthrow]
      rw [hstore.get_appended, Function.update_self, hstore.get_nextRowId] at hsame
      cases hsame
    · rw [insert_ok_of_indexable hstore hm hcheck (h.resolve_left (not_not_intro hcheck))] at hthrow
      cases hthrow
  · refine ⟨fun _ => Or.inl hcheck, fun _ e t' hthrow => ?_⟩
    cases hrefuse : t.assertUniqueRow row none with
    | ok u => exact absurd hrefuse hcheck
    | error e' =>
      rw [insert_error hrefuse] at hthrow
      cases hthrow
      rfl

end Insert

section CreateIndex

/-- The catalog and the stores of every index of the first table are those of the second. -/
structure SameIndexes (t t' : Table) : Prop where
  columns : t'.indexManager.indexColumns = t.indexManager.indexColumns
  expressions : t'.indexManager.indexExpressions = t.indexManager.indexExpressions
  hash : ∀ name ∈ t.indexManager.indexColumns,
    t'.indexManager.indexes[name]? = t.indexManager.indexes[name]?
  ordered : ∀ name ∈ t.indexManager.indexColumns,
    t'.indexManager.orderedIndexes[name]? = t.indexManager.orderedIndexes[name]?

theorem create_of_positions_none (h : request.positions t = none)
    (name : String) : request.create name t = .ok false t := by
  cases request with
  | onColumns columns =>
    simp only [IndexRequest.create, createIndex, ite_run, get_bind]
    by_cases hnil : columns = []
    · rw [if_pos hnil]
      rfl
    · rw [IndexRequest.positions, if_neg hnil] at h
      rw [if_neg hnil, h]
      rfl
  | onExpression expression =>
    rw [IndexRequest.positions, Option.map_eq_none_iff] at h
    simp only [IndexRequest.create, createExpressionIndex, get_bind, h]
    rfl

theorem create_of_positions {indexes : List ℕ}
    (h : request.positions t = some indexes) (name : String) :
    request.create name t = registerIndex name indexes request.indexExpression true t := by
  cases request with
  | onColumns columns =>
    by_cases hnil : columns = []
    · rw [IndexRequest.positions, if_pos hnil] at h
      cases h
    · rw [IndexRequest.positions, if_neg hnil] at h
      simp only [IndexRequest.create, createIndex, ite_run, get_bind, if_neg hnil, h]
      rfl
  | onExpression expression =>
    obtain ⟨index, hidx, rfl⟩ := Option.map_eq_some_iff.mp h
    simp only [IndexRequest.create, createExpressionIndex, get_bind, hidx]
    rfl

/-- The positions of a request pass the checks of `registerIndex`. -/
theorem positions_spec {indexes : List ℕ} (h : request.positions t = some indexes) :
    indexes ≠ [] ∧ (request.indexExpression.isSome → indexes.length = 1) ∧
      ∀ i ∈ indexes, i < t.schema.length := by
  cases request with
  | onColumns columns =>
    by_cases hnil : columns = []
    · rw [IndexRequest.positions, if_pos hnil] at h
      cases h
    · rw [IndexRequest.positions, if_neg hnil] at h
      refine ⟨?_, by simp [IndexRequest.indexExpression], fun i hi => ?_⟩
      · rintro rfl
        obtain ⟨c, columns, rfl⟩ := List.exists_cons_of_ne_nil hnil
        rw [List.mapM_cons] at h
        obtain ⟨i, -, h⟩ := Option.bind_eq_some_iff.mp h
        obtain ⟨rest, -, h⟩ := Option.bind_eq_some_iff.mp h
        cases h
      · obtain ⟨c, hc⟩ := exists_findColumn_of_mapM h i hi
        exact lt_length_of_findColumn hc
  | onExpression expression =>
    obtain ⟨index, hidx, rfl⟩ := Option.map_eq_some_iff.mp h
    exact ⟨by simp, fun _ => rfl, by simpa using lt_length_of_findColumn hidx⟩

theorem create_unchanged_iff (hstore : t.rowStore.Valid) (hm : t.indexManager.Registered)
    (name : String) (request : IndexRequest) :
    (∀ e t', request.create name t = .error e t' → t.SameIndexes t') ↔
      ∀ indexes, request.positions t = some indexes → name ∉ t.indexManager.indexColumns →
        ∀ i row, t.rowStore.get i = some row →
          (t.indexManager.withIndex name indexes request.indexExpression).Indexable row
            t.schema := by
  constructor
  · intro h indexes hidxs hname
    by_contra hrows
    obtain ⟨hnil, hlen, hrange⟩ := positions_spec hidxs
    obtain ⟨e, m', hrebuild⟩ := (rebuildIndexes_eq_error_iff
      (hm.withIndex name indexes request.indexExpression) hstore).mpr hrows
    have hthrow : request.create name t = .error e { t with indexManager := m' } := by
      rw [create_of_positions hidxs]
      refine onIndexes_eq_error.mpr ⟨m', ?_, rfl⟩
      rw [registerIndex_of_not_mem hm hname hnil hlen hrange]
      exact bind_of_error hrebuild
    -- the new name is in the catalog that the failed call leaves
    have hsame := (h e _ hthrow).columns
    have hkept := ((definitionsKept_rebuildIndexes (hm.withIndex name indexes
      request.indexExpression)).of_error hrebuild).2.1
    rw [hkept] at hsame
    exact hname (hsame ▸ by simp [withIndex])
  · intro h e t' hthrow
    exfalso
    cases hpos : request.positions t with
    | none =>
      rw [create_of_positions_none hpos] at hthrow
      cases hthrow
    | some indexes =>
      rw [create_of_positions hpos] at hthrow
      obtain ⟨m, hreg, -⟩ := onIndexes_eq_error.mp hthrow
      by_cases hname : name ∈ t.indexManager.indexColumns
      · rw [registerIndex_of_mem hname] at hreg
        cases hreg
      · obtain ⟨hnil, hlen, hrange⟩ := positions_spec hpos
        rw [IndexManager.registerIndex_of_not_mem hm hname hnil hlen hrange, if_pos rfl,
          bind_of_ok (IndexManager.rebuildIndexes_ok (hm.withIndex _ _ _)
            (h indexes hpos hname))] at hreg
        cases hreg

end CreateIndex

/-- A call that throws leaves the table as it was exactly when it threw in its checks, or when the
rows it has to index have keys in all indexes, so that it does not throw there. -/
theorem unchanged_of_throw_iff (t : Table) (hstore : t.rowStore.Valid)
    (hm : t.indexManager.Registered) :
    (∀ row writerId, (∀ e t', insert row writerId t = .error e t' → t' = t) ↔
      t.assertUniqueRow row none ≠ .ok () ∨ t.Indexable row) ∧
    ∀ name (request : IndexRequest),
      (∀ e t', request.create name t = .error e t' → t.SameIndexes t') ↔
        ∀ indexes, request.positions t = some indexes → name ∉ t.indexManager.indexColumns →
          ∀ i row, t.rowStore.get i = some row →
            (t.indexManager.withIndex name indexes request.indexExpression).Indexable
              row t.schema :=
  ⟨insert_unchanged_iff hstore hm, create_unchanged_iff hstore hm⟩

/-- A column of integers that may be NULL. -/
def nullableTable : Table :=
  { name := "t", schema := [{ name := "a", type := .int, nullable := true }] }

/-- A NULL is stored under an index on `a`. -/
def indexedNull : List TableOp := [.createIndex "z" ["a"], .insert [.null] 0]

/-- Another NULL would be indexable. -/
theorem unchanged_of_throw_null : ∃ t, forM indexedNull TableOp.perform nullableTable = .ok ⟨⟩ t ∧
    t.rowStore.Valid ∧ t.indexManager.Registered ∧ t.Indexable [.null] ∧
    ∀ e t', insert [.null] 0 t = .error e t' → t' = t := by
  have hrun : Returns (forM indexedNull TableOp.perform) nullableTable fun _ t =>
      t.Indexable [.null] := by
    decide
  obtain ⟨_, t, hrun, hrow⟩ := hrun
  have ht := current_of_run
    (by rfl : construct "t" nullableTable.schema [] [] [] = .ok nullableTable) hrun
  exact ⟨t, hrun, ht.rows.valid, ht.fits.toRegistered, hrow,
    ((unchanged_of_throw_iff t ht.rows.valid ht.fits.toRegistered).1 [.null] 0).mpr (Or.inr hrow)⟩

/-- The request for an index on `-a`. -/
def negatedIndex : IndexRequest := .onExpression { kind := .negate, column := "a" }

/-- A NULL under an index on `-a` is refused after it is stored, and with a NULL stored such an
index is refused after it is in the catalog and the other index was cleared. -/
theorem changed_of_throw_null :
    construct "t" nullableTable.schema [] [] [] = .ok nullableTable ∧
    Returns (negatedIndex.create "n") nullableTable (fun _ t =>
      t.rowStore.get 0 = none ∧
        Throws (insert [.null] 0) t fun _ t' => t'.rowStore.get 0 = some [.null]) ∧
    Returns (forM indexedNull TableOp.perform) nullableTable fun _ t =>
      "n" ∉ t.indexManager.indexColumns ∧ (t.indexManager.hashIndex "z").find .null = [0] ∧
        Throws (negatedIndex.create "n") t fun _ t' => "n" ∈ t'.indexManager.indexColumns ∧
          (t'.indexManager.hashIndex "z").find .null = [] := by
  refine ⟨rfl, ?_, ?_⟩ <;> decide

end Table

end VertexDB
