import VertexDB.Common.IndexExpression
import VertexDB.Common.StringPattern
import VertexDB.Indexing.BTreeIndex
import VertexDB.Indexing.HashIndex
import VertexDB.Storage.PageRowStore

/-!
# The index manager

The indexes of a table and their maintenance against the heap, as in
`src/indexing/index_manager.cpp`. Every index has a hash and an ordered store; a trigram index uses
only the hash store.
-/

namespace VertexDB

open Std.ExtTreeMap

/-- `findColumn`. -/
def findColumn (schema : List Column) (column : String) : Option ℕ :=
  schema.findIdx? fun item => item.name = column

/-- The name of a column; the callers of the source stay within the schema. -/
def columnName (schema : List Column) (index : ℕ) : String :=
  (schema[index]?.map Column.name).getD ""

/-- `columnsMatch`. -/
def columnsMatch (indexes : List ℕ) (columns : List String) (schema : List Column) : Bool :=
  indexes.map (columnName schema) = columns

/-- `IndexDefinition`. -/
structure IndexDefinition where
  name : String
  column : String
  columns : List String
  expression : Option IndexExpression
  deriving DecidableEq, Repr

/-- `IndexManager`. -/
structure IndexManager where
  indexColumns : Std.ExtTreeMap String (List ℕ) := ∅
  indexExpressions : Std.ExtTreeMap String IndexExpression := ∅
  indexes : Std.ExtTreeMap String HashIndex := ∅
  orderedIndexes : Std.ExtTreeMap String BTreeIndex := ∅

namespace IndexManager

open Exec

/-- The first index, by name, on exactly these columns. -/
def columnIndexName (m : IndexManager) (columns : List String) (schema : List Column) :
    Option String :=
  (m.indexColumns.toList.find? fun entry =>
    !m.indexExpressions.contains entry.1 && columnsMatch entry.2 columns schema).map Prod.fst

/-- The first index, by name, on this expression. -/
def expressionIndexName (m : IndexManager) (expression : IndexExpression) : Option String :=
  (m.indexExpressions.toList.find? fun entry => entry.2.beq expression).map Prod.fst

/-- `indexes_.at(name)`. -/
def hashIndex (m : IndexManager) (name : String) : HashIndex := m.indexes[name]?.getD {}

/-- `orderedIndexes_.at(name)`. -/
def orderedIndex (m : IndexManager) (name : String) : BTreeIndex := m.orderedIndexes[name]?.getD {}

/-- `IndexManager::indexedLookup` on columns. -/
def indexedLookup (m : IndexManager) (columns : List String) (key : Value) (schema : List Column) :
    Option (List ℕ) :=
  (m.columnIndexName columns schema).map fun name => (m.hashIndex name).find key

/-- `IndexManager::indexedLookup` on an expression. -/
def expressionLookup (m : IndexManager) (expression : IndexExpression) (value : Value) :
    Option (List ℕ) :=
  (m.expressionIndexName expression).map fun name => (m.hashIndex name).find value

/-- `IndexManager::orderedLookup` on a column. -/
def orderedLookup (m : IndexManager) (column : String) (op : ComparisonOperator) (value : Value)
    (schema : List Column) : Option (List ℕ) :=
  (m.columnIndexName [column] schema).map fun name => (m.orderedIndex name).orderedFind op value

/-- `IndexManager::orderedLookup` on an expression. -/
def orderedExpressionLookup (m : IndexManager) (expression : IndexExpression)
    (op : ComparisonOperator) (value : Value) : Option (List ℕ) :=
  (m.expressionIndexName expression).map fun name => (m.orderedIndex name).orderedFind op value

/-- `IndexManager::indexDistinctCount` on columns. -/
def indexDistinctCount (m : IndexManager) (columns : List String) (schema : List Column) :
    Option ℕ :=
  (m.columnIndexName columns schema).map fun name => (m.hashIndex name).size

/-- `IndexManager::indexDistinctCount` on an expression. -/
def expressionDistinctCount (m : IndexManager) (expression : IndexExpression) : Option ℕ :=
  (m.expressionIndexName expression).map fun name => (m.hashIndex name).size

/-- `IndexManager::hasIndex`. -/
def hasIndex (m : IndexManager) (columns : List String) (schema : List Column) : Bool :=
  (m.columnIndexName columns schema).isSome

/-- `IndexManager::hasExpressionIndex`. -/
def hasExpressionIndex (m : IndexManager) (expression : IndexExpression) : Bool :=
  (m.expressionIndexName expression).isSome

/-- `IndexManager::indexDefinitions`. -/
def indexDefinitions (m : IndexManager) (schema : List Column) : List IndexDefinition :=
  m.indexColumns.toList.map fun entry =>
    let columns := entry.2.map (columnName schema)
    { name := entry.1
      column := columns.head?.getD ""
      columns := columns
      expression := m.indexExpressions[entry.1]? }

/-- `IndexManager::indexKeyForRow`. -/
def indexKeyForRow (m : IndexManager) (name : String) (row : Row) (schema : List Column) :
    Except Error Value :=
  match m.indexExpressions[name]? with
  | some expression => evaluateIndexExpression expression row (findColumn schema)
  | none => Value.makeComposite ((m.indexColumns[name]?.getD []).map row.at)

/-- The index is a trigram index. -/
def isTrigram (m : IndexManager) (name : String) : Bool :=
  match m.indexExpressions[name]? with
  | some expression => expression.kind = .trigram
  | none => false

/-- The keys a row has in the hash store of an index: its trigrams, or its one key. -/
def hashKeysForRow (m : IndexManager) (name : String) (row : Row) (schema : List Column) :
    Except Error (List Value) := do
  let key ← m.indexKeyForRow name row schema
  if m.isTrigram name then
    match key with
    | .string text => return (extractTrigrams text).map Value.string
    | _ => return []
  else return [key]

/-- One round of the first loop of `addRowToIndexes`. -/
def addRowToHashIndex (rowId : ℕ) (row : Row) (schema : List Column) (name : String) :
    EStateM Error IndexManager Unit := do
  let m ← EStateM.get
  let keys ← Exec.ofExcept (m.hashKeysForRow name row schema)
  let index := keys.foldl (fun index key => index.insert key rowId) (m.hashIndex name)
  EStateM.set { m with indexes := m.indexes.insert name index }

/-- One round of the second loop of `addRowToIndexes`. -/
def addRowToOrderedIndex (rowId : ℕ) (row : Row) (schema : List Column) (name : String) :
    EStateM Error IndexManager Unit := do
  let m ← EStateM.get
  if m.isTrigram name then return ()
  let key ← Exec.ofExcept (m.indexKeyForRow name row schema)
  EStateM.set { m with
    orderedIndexes := m.orderedIndexes.insert name ((m.orderedIndex name).insert key rowId) }

/-- `IndexManager::addRowToIndexes`. -/
def addRowToIndexes (rowId : ℕ) (rowStore : PageRowStore) (schema : List Column) :
    EStateM Error IndexManager Unit := do
  match rowStore.get rowId with
  | none => return ()
  | some row =>
    let m ← EStateM.get
    forM m.indexes.keys (addRowToHashIndex rowId row schema)
    forM m.orderedIndexes.keys (addRowToOrderedIndex rowId row schema)

/-- The clearing loops of `rebuildIndexes`. -/
def clearIndexes (m : IndexManager) : IndexManager :=
  { m with
    indexes := m.indexes.map fun _ index => index.clear
    orderedIndexes := m.orderedIndexes.map fun _ index => index.clear }

/-- `IndexManager::rebuildIndexes`. -/
def rebuildIndexes (rowStore : PageRowStore) (schema : List Column) :
    EStateM Error IndexManager Unit := do
  modify clearIndexes
  forM (List.range rowStore.capacity) fun rowId => addRowToIndexes rowId rowStore schema

/-- `IndexManager::registerIndex`. -/
def registerIndex (name : String) (columnIndexes : List ℕ) (expression : Option IndexExpression)
    (rebuild : Bool) (rowStore : PageRowStore) (schema : List Column) :
    EStateM Error IndexManager Bool := do
  let m ← EStateM.get
  if columnIndexes = [] then return false
  if expression.isSome ∧ columnIndexes.length ≠ 1 then return false
  if m.indexes.contains name ∨ m.indexColumns.contains name then return false
  if columnIndexes.any fun columnIndex => schema.length ≤ columnIndex then return false
  EStateM.set { m with
    indexColumns := m.indexColumns.insert name columnIndexes
    indexExpressions :=
      match expression with
      | some expression => m.indexExpressions.insertIfNew name expression
      | none => m.indexExpressions
    indexes := m.indexes.insertIfNew name {}
    orderedIndexes := m.orderedIndexes.insertIfNew name {} }
  if rebuild then rebuildIndexes rowStore schema
  return true

/-- `IndexManager::dropIndex`. -/
def dropIndex (m : IndexManager) (name : String) : Bool × IndexManager :=
  if !m.indexColumns.contains name && !m.indexes.contains name && !m.orderedIndexes.contains name &&
      !m.indexExpressions.contains name then (false, m)
  else
    (true,
      { indexColumns := m.indexColumns.erase name
        indexExpressions := m.indexExpressions.erase name
        indexes := m.indexes.erase name
        orderedIndexes := m.orderedIndexes.erase name })

section Maintenance

variable {m : IndexManager} {schema : List Column} {name : String}

/-- Every index has a key for the row. -/
def Indexable (m : IndexManager) (row : Row) (schema : List Column) : Prop :=
  ∀ name ∈ m.indexColumns.keys, (m.indexKeyForRow name row schema).isOk = true

instance (m : IndexManager) (row : Row) (schema : List Column) :
    Decidable (m.Indexable row schema) :=
  inferInstanceAs (Decidable (∀ name ∈ m.indexColumns.keys, _))

/-- The hash store after the keys of a row are added. -/
def addHashKeys (m : IndexManager) (rowId : ℕ) (row : Row) (schema : List Column) (name : String)
    (index : HashIndex) : HashIndex :=
  match m.hashKeysForRow name row schema with
  | .ok keys => keys.foldl (fun index key => index.insert key rowId) index
  | .error _ => index

/-- The ordered store after the key of a row is added. -/
def addOrderedKey (m : IndexManager) (rowId : ℕ) (row : Row) (schema : List Column) (name : String)
    (index : BTreeIndex) : BTreeIndex :=
  if m.isTrigram name then index
  else
    match m.indexKeyForRow name row schema with
    | .ok key => index.insert key rowId
    | .error _ => index

/-- The index manager after an indexable row is added. -/
def addRow (m : IndexManager) (rowId : ℕ) (row : Row) (schema : List Column) : IndexManager :=
  { m with
    indexes := m.indexes.map (m.addHashKeys rowId row schema)
    orderedIndexes := m.orderedIndexes.map (m.addOrderedKey rowId row schema) }

variable {m' : IndexManager}

section Congr

variable (hcol : m'.indexColumns = m.indexColumns)
  (hexpr : m'.indexExpressions = m.indexExpressions)
include hcol hexpr

theorem indexKeyForRow_congr : m'.indexKeyForRow = m.indexKeyForRow := by
  funext name row schema
  rw [indexKeyForRow, indexKeyForRow, hcol, hexpr]

theorem hashKeysForRow_congr : m'.hashKeysForRow = m.hashKeysForRow := by
  funext name row schema
  rw [hashKeysForRow, hashKeysForRow, indexKeyForRow_congr hcol hexpr, isTrigram, isTrigram, hexpr]

end Congr

theorem hashKeysForRow_isOk {row : Row} (h : (m.indexKeyForRow name row schema).isOk = true) :
    ∃ keys, m.hashKeysForRow name row schema = .ok keys := by
  cases hk : m.indexKeyForRow name row schema with
  | error e => simp [hk, Except.isOk, Except.toBool] at h
  | ok key =>
    unfold hashKeysForRow
    rw [hk]
    by_cases ht : m.isTrigram name
    · cases key <;> exact ⟨_, by simp [ht]; rfl⟩
    · exact ⟨[key], by simp [ht]⟩

/-- A loop over the entries of a map in which every round replaces the value of its entry. -/
theorem forM_toList_map {β : Type} {f : String × β → EStateM Error IndexManager Unit}
    (put : Std.ExtTreeMap String β → IndexManager) (g : String → β → β)
    (stores : Std.ExtTreeMap String β)
    (hstep : ∀ name index, stores[name]? = some index → ∀ current : Std.ExtTreeMap String β,
      current[name]? = some index →
      f (name, index) (put current) = .ok ⟨⟩ (put (current.insert name (g name index)))) :
    forM stores.toList f (put stores) = .ok ⟨⟩ (put (stores.map g)) := by
  -- the values that are still to come are as they were, the others are replaced
  have hloop : ∀ (entries : List (String × β)) (current : Std.ExtTreeMap String β),
      (entries.map Prod.fst).Nodup → (∀ entry ∈ entries, stores[entry.1]? = some entry.2) →
      (∀ k, current[k]? = if k ∈ entries.map Prod.fst then stores[k]? else (stores.map g)[k]?) →
      forM entries f (put current) = .ok ⟨⟩ (put (stores.map g)) := by
    intro entries
    induction entries with
    | nil =>
      intro current _ _ hget
      obtain rfl : current = stores.map g := ext_getElem? fun k => by simpa using hget k
      rfl
    | cons entry entries ih =>
      intro current hnodup hmem hget
      obtain ⟨hname, hnodup⟩ := List.nodup_cons.mp hnodup
      obtain ⟨hentry, hmem⟩ := List.forall_mem_cons.mp hmem
      have hcurrent : current[entry.1]? = some entry.2 := by
        rw [hget, if_pos (by simp), hentry]
      rw [forM_cons_run, bind_of_ok (hstep entry.1 entry.2 hentry current hcurrent)]
      refine ih _ hnodup hmem fun k => ?_
      by_cases hk : entry.1 = k
      · subst hk
        rw [if_neg hname]
        simp [hentry]
      · rw [getElem?_insert, if_neg (by simpa using hk), hget k, List.map_cons]
        simp only [List.mem_cons, eq_false (Ne.symm hk), false_or]
  refine hloop _ stores (by simpa using nodup_keys (t := stores))
    (fun entry => mem_toList_iff_getElem?_eq_some.mp) fun k => ?_
  rw [map_fst_toList_eq_keys]
  by_cases hk : k ∈ stores <;> simp [hk]

/-- Every index has its definition and its two stores. -/
structure Registered (m : IndexManager) : Prop where
  mem_indexes : ∀ name, name ∈ m.indexes ↔ name ∈ m.indexColumns
  mem_orderedIndexes : ∀ name, name ∈ m.orderedIndexes ↔ name ∈ m.indexColumns

theorem Registered.addRow (hm : m.Registered) (rowId : ℕ) (row : Row) :
    (m.addRow rowId row schema).Registered :=
  ⟨fun name => by simpa [IndexManager.addRow] using hm.mem_indexes name,
    fun name => by simpa [IndexManager.addRow] using hm.mem_orderedIndexes name⟩

theorem Registered.clearIndexes (hm : m.Registered) : m.clearIndexes.Registered :=
  ⟨fun name => by simpa [IndexManager.clearIndexes] using hm.mem_indexes name,
    fun name => by simpa [IndexManager.clearIndexes] using hm.mem_orderedIndexes name⟩

variable {rowStore : PageRowStore}

theorem addRowToIndexes_ok (hm : m.Registered) {rowId : ℕ} {row : Row}
    (hget : rowStore.get rowId = some row) (hrow : m.Indexable row schema) :
    addRowToIndexes rowId rowStore schema m = .ok ⟨⟩ (m.addRow rowId row schema) := by
  have hhash : forM m.indexes.keys (addRowToHashIndex rowId row schema) m =
      .ok ⟨⟩ { m with indexes := m.indexes.map (m.addHashKeys rowId row schema) } := by
    rw [← map_fst_toList_eq_keys, List.forM_map]
    refine forM_toList_map (fun indexes => { m with indexes := indexes }) _ m.indexes
      fun name index hstored indexes hindex => ?_
    have hname : name ∈ m.indexes := mem_iff_isSome_getElem?.mpr (by simp [hstored])
    obtain ⟨keys, hkeys⟩ :=
      hashKeysForRow_isOk (hrow name (by simpa [← hm.mem_indexes] using hname))
    have hsame : ({ m with indexes := indexes } : IndexManager).hashKeysForRow =
        m.hashKeysForRow := hashKeysForRow_congr rfl rfl
    simp [addRowToHashIndex, hsame, hkeys, addHashKeys, hashIndex, hindex]
  simp only [addRowToIndexes, hget, get_bind]
  rw [bind_of_ok hhash, ← map_fst_toList_eq_keys, List.forM_map]
  refine forM_toList_map (fun ordered => { m with
    indexes := m.indexes.map (m.addHashKeys rowId row schema), orderedIndexes := ordered })
    _ m.orderedIndexes fun name index hstored ordered hindex => ?_
  have hname : name ∈ m.orderedIndexes := mem_iff_isSome_getElem?.mpr (by simp [hstored])
  have hidx := hrow name (by simpa [← hm.mem_orderedIndexes] using hname)
  have hkind : (IndexManager.mk m.indexColumns m.indexExpressions
      (m.indexes.map (m.addHashKeys rowId row schema)) ordered).isTrigram = m.isTrigram := rfl
  have hkeys : (IndexManager.mk m.indexColumns m.indexExpressions
      (m.indexes.map (m.addHashKeys rowId row schema)) ordered).indexKeyForRow =
      m.indexKeyForRow := indexKeyForRow_congr rfl rfl
  cases hkey : m.indexKeyForRow name row schema with
  | error e => simp [hkey, Except.isOk, Except.toBool] at hidx
  | ok key =>
    by_cases ht : m.isTrigram name
    · have hself : ordered.insert name index = ordered := ext_getElem? fun k => by
        by_cases hk : name = k
        · subst hk
          simp [hindex]
        · simp [getElem?_insert, hk]
      simp [addRowToOrderedIndex, hkind, ht, addOrderedKey, hself]
    · simp [addRowToOrderedIndex, hkind, hkeys, ht, addOrderedKey, hkey, orderedIndex, hindex]

/-- The index manager after indexable rows are added one after another. -/
def addRows (m : IndexManager) (entries : List (ℕ × Row)) (schema : List Column) : IndexManager :=
  entries.foldl (fun m entry => m.addRow entry.1 entry.2 schema) m

theorem Registered.addRows (hm : m.Registered) (entries : List (ℕ × Row)) :
    (m.addRows entries schema).Registered := by
  induction entries generalizing m with
  | nil => exact hm
  | cons entry entries ih => exact ih (hm.addRow entry.1 entry.2)

theorem indexColumns_addRows (m : IndexManager) (entries : List (ℕ × Row)) (schema : List Column) :
    (m.addRows entries schema).indexColumns = m.indexColumns ∧
      (m.addRows entries schema).indexExpressions = m.indexExpressions := by
  induction entries generalizing m with
  | nil => exact ⟨rfl, rfl⟩
  | cons entry entries ih => exact ih (m.addRow entry.1 entry.2 schema)

theorem rebuildIndexes_ok (hm : m.Registered)
    (hrows : ∀ i row, rowStore.get i = some row → m.Indexable row schema) :
    rebuildIndexes rowStore schema m =
      .ok ⟨⟩ (m.clearIndexes.addRows rowStore.liveEntries schema) := by
  have hloop : ∀ (ids : List ℕ) (m' : IndexManager), m'.Registered →
      m'.indexColumns = m.indexColumns → m'.indexExpressions = m.indexExpressions →
      forM ids (fun i => addRowToIndexes i rowStore schema) m' =
        .ok ⟨⟩ (m'.addRows (ids.filterMap fun i => (rowStore.get i).map (i, ·)) schema) := by
    intro ids
    induction ids with
    | nil => exact fun m' _ _ _ => rfl
    | cons i ids ih =>
      intro m' hm' hcol hexpr
      rw [forM_cons_run]
      cases hget : rowStore.get i with
      | none =>
        have hstep : addRowToIndexes i rowStore schema m' = .ok ⟨⟩ m' := by
          simp [addRowToIndexes, hget]
        rw [bind_of_ok hstep, ih m' hm' hcol hexpr]
        simp [hget]
      | some row =>
        have hrow : m'.Indexable row schema := by
          intro name hname
          rw [indexKeyForRow_congr hcol hexpr]
          exact hrows i row hget name (hcol ▸ hname)
        rw [bind_of_ok (addRowToIndexes_ok hm' hget hrow), ih _ (hm'.addRow i row) hcol hexpr]
        simp [hget, IndexManager.addRows]
  simp only [rebuildIndexes, modify_bind]
  exact hloop (List.range rowStore.capacity) m.clearIndexes hm.clearIndexes rfl rfl

/-- The row has a key in the hash store of the index that equals `key`. -/
def HasKey (m : IndexManager) (name : String) (row : Row) (schema : List Column) (key : Value) :
    Prop :=
  ∃ keys, m.hashKeysForRow name row schema = .ok keys ∧ ∃ k ∈ keys, k.beq key = true

theorem hasKey_congr (hcol : m'.indexColumns = m.indexColumns)
    (hexpr : m'.indexExpressions = m.indexExpressions) : m'.HasKey = m.HasKey := by
  funext name row schema key
  rw [HasKey, hashKeysForRow_congr hcol hexpr, HasKey]

theorem hashIndex_addRow (m : IndexManager) (rowId : ℕ) (row : Row) (hname : name ∈ m.indexes) :
    (m.addRow rowId row schema).hashIndex name =
      m.addHashKeys rowId row schema name (m.hashIndex name) := by
  obtain ⟨index, hindex⟩ := Option.isSome_iff_exists.mp (mem_iff_isSome_getElem?.mp hname)
  simp [hashIndex, IndexManager.addRow, hindex]

theorem mem_find_addRow (m : IndexManager) (rowId : ℕ) (row : Row)
    (hname : name ∈ m.indexes) (key : Value) (r : ℕ) :
    r ∈ ((m.addRow rowId row schema).hashIndex name).find key ↔
      r ∈ (m.hashIndex name).find key ∨ r = rowId ∧ m.HasKey name row schema key := by
  rw [hashIndex_addRow m rowId row hname, addHashKeys]
  cases hkeys : m.hashKeysForRow name row schema with
  | error e => simp [HasKey, hkeys]
  | ok keys => simp [HashIndex.mem_find_foldl_insert, HasKey, hkeys]

theorem mem_find_addRows (entries : List (ℕ × Row)) (m : IndexManager)
    (hname : name ∈ m.indexes) (key : Value) (r : ℕ) :
    r ∈ ((m.addRows entries schema).hashIndex name).find key ↔
      r ∈ (m.hashIndex name).find key ∨ ∃ row, (r, row) ∈ entries ∧
        m.HasKey name row schema key := by
  induction entries generalizing m with
  | nil => simp [IndexManager.addRows]
  | cons entry entries ih =>
    obtain ⟨i, row⟩ := entry
    have hmem : name ∈ (m.addRow i row schema).indexes := by
      simpa [IndexManager.addRow] using hname
    have hkey : (m.addRow i row schema).HasKey = m.HasKey := hasKey_congr rfl rfl
    have hcons : m.addRows ((i, row) :: entries) schema =
        (m.addRow i row schema).addRows entries schema := rfl
    rw [hcons, ih _ hmem, mem_find_addRow m i row hname, hkey]
    constructor
    · rintro ((h | ⟨rfl, h⟩) | ⟨row', hmem', h⟩)
      · exact Or.inl h
      · exact Or.inr ⟨row, List.mem_cons_self, h⟩
      · exact Or.inr ⟨row', List.mem_cons_of_mem _ hmem', h⟩
    · rintro (h | ⟨row', hmem', h⟩)
      · exact Or.inl (Or.inl h)
      · rcases List.mem_cons.mp hmem' with heq | hmem'
        · obtain ⟨rfl, rfl⟩ := Prod.mk.inj heq
          exact Or.inl (Or.inr ⟨rfl, h⟩)
        · exact Or.inr ⟨row', hmem', h⟩

/-- The hash stores hold exactly the keys of the live rows, and every live row is indexable. -/
structure Agrees (m : IndexManager) (rowStore : PageRowStore) (schema : List Column) : Prop
    extends Registered m where
  indexable : ∀ i row, rowStore.get i = some row → m.Indexable row schema
  mem_find : ∀ name ∈ m.indexes, ∀ r key, r ∈ (m.hashIndex name).find key ↔
    ∃ row, rowStore.get r = some row ∧ m.HasKey name row schema key

theorem agrees_rebuilt (hm : m.Registered) (hs : rowStore.Valid)
    (hrows : ∀ i row, rowStore.get i = some row → m.Indexable row schema) :
    (m.clearIndexes.addRows rowStore.liveEntries schema).Agrees rowStore schema := by
  obtain ⟨hcol, hexpr⟩ := indexColumns_addRows m.clearIndexes rowStore.liveEntries schema
  have hkey := hasKey_congr hcol hexpr
  refine ⟨hm.clearIndexes.addRows _, fun i row hget name hname => ?_, fun name hname r key => ?_⟩
  · rw [indexKeyForRow_congr hcol hexpr]
    rw [hcol] at hname
    exact hrows i row hget name hname
  · have hname' : name ∈ m.clearIndexes.indexes := by
      rw [(hm.clearIndexes.addRows _).mem_indexes, hcol] at hname
      exact (hm.clearIndexes.mem_indexes name).mpr hname
    have hnil : (m.clearIndexes.hashIndex name).find key = [] := by
      obtain ⟨index, hindex⟩ := Option.isSome_iff_exists.mp (mem_iff_isSome_getElem?.mp hname')
      simp only [IndexManager.clearIndexes, getElem?_map, Option.map_eq_some_iff] at hindex
      obtain ⟨old, hold, -⟩ := hindex
      simp [hashIndex, IndexManager.clearIndexes, hold]
    rw [mem_find_addRows _ _ hname', hnil, hkey]
    simp [PageRowStore.mem_liveEntries hs]

theorem Agrees.addRow {rowStore' : PageRowStore} (h : m.Agrees rowStore schema) {i : ℕ} {row : Row}
    (hfree : rowStore.get i = none)
    (hget : rowStore'.get = Function.update rowStore.get i (some row))
    (hrow : m.Indexable row schema) : (m.addRow i row schema).Agrees rowStore' schema := by
  have hkey : (m.addRow i row schema).HasKey = m.HasKey := hasKey_congr rfl rfl
  have hkeyFn : (m.addRow i row schema).indexKeyForRow = m.indexKeyForRow :=
    indexKeyForRow_congr rfl rfl
  refine ⟨h.toRegistered.addRow i row, fun j row' hj name hname => ?_, fun name hname r key => ?_⟩
  · rw [hkeyFn]
    rw [hget, Function.update_apply] at hj
    split_ifs at hj with hij
    · exact Option.some.inj hj ▸ hrow name hname
    · exact h.indexable j row' hj name hname
  · have hname' : name ∈ m.indexes := by simpa [IndexManager.addRow] using hname
    rw [mem_find_addRow m i row hname', h.mem_find name hname', hkey, hget]
    by_cases hr : r = i
    · subst hr
      simp [hfree]
    · simp [hr]

end Maintenance

end IndexManager

end VertexDB
