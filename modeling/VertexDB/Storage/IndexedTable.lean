import VertexDB.Indexing.IndexAgreement
import VertexDB.Storage.TableSteps

/-!
# The indexes of a table along its life

Every operation on a table leaves the stores of its indexes built from the live rows: rows are added
one by one or all indexes are rebuilt, and the schema changes move the positions that the index
definitions hold and keep the keys. The hash lookups are exact whatever the rows are. The ordered
store of an index needs keys that `operator<` orders, and a NaN is not ordered with any number: its
lookups are exact as long as no live row has a NaN in its key.

## Main definitions

* `Table.Current`: the stores of the indexes are built from the live rows.
* `TableOp`: the operations on a table.

## Main results

* `Table.Current.perform`: an operation that returns keeps `Table.Current`.
* `Table.current_of_run`: so does a run from a new table.
-/

namespace VertexDB

open Exec Std.ExtTreeMap IndexManager

variable {oldName newName : String} {column : Column} {done : Bool} {t₀ : Table}

/-! ### Columns by name -/

section FindColumn

variable {schema : List Column} {c : String} {i index : ℕ}

theorem findColumn_eq_some :
    findColumn schema c = some i ↔ (∃ column, schema[i]? = some column ∧ column.name = c) ∧
      ∀ j < i, ∀ column, schema[j]? = some column → column.name ≠ c := by
  rw [findColumn, List.findIdx?_eq_some_iff_getElem]
  constructor
  · rintro ⟨hi, hname, hfirst⟩
    refine ⟨⟨schema[i], List.getElem?_eq_getElem hi, by simpa using hname⟩,
      fun j hj column hcol => ?_⟩
    obtain ⟨hlt, rfl⟩ := List.getElem?_eq_some_iff.mp hcol
    simpa using hfirst j hj
  · rintro ⟨⟨column, hcol, hname⟩, hfirst⟩
    obtain ⟨hi, rfl⟩ := List.getElem?_eq_some_iff.mp hcol
    refine ⟨hi, by simpa using hname, fun j hj => ?_⟩
    simpa using hfirst j hj _ (List.getElem?_eq_getElem (hj.trans hi))

theorem findColumn_eq_none :
    findColumn schema c = none ↔ ∀ column ∈ schema, column.name ≠ c := by
  simp [findColumn, List.findIdx?_eq_none_iff]

theorem lt_length_of_findColumn (h : findColumn schema c = some i) : i < schema.length := by
  obtain ⟨⟨column, hcol, -⟩, -⟩ := findColumn_eq_some.mp h
  exact (List.getElem?_eq_some_iff.mp hcol).1

theorem columnName_of_findColumn (h : findColumn schema c = some i) : columnName schema i = c := by
  obtain ⟨⟨column, hcol, hname⟩, -⟩ := findColumn_eq_some.mp h
  rw [columnName, hcol]
  exact hname

theorem findColumn_columnName (h : findColumn schema c = some i) :
    findColumn schema (columnName schema i) = some i := by
  rw [columnName_of_findColumn h, h]

theorem exists_findColumn_of_mapM {names : List String} {positions : List ℕ}
    (h : names.mapM (findColumn schema) = some positions) :
    ∀ i ∈ positions, ∃ c, findColumn schema c = some i := by
  intro i hi
  have hmem : some i ∈ names.map (findColumn schema) := by
    rw [Exec.mapM_eq_some.mp h]
    exact List.mem_map_of_mem hi
  obtain ⟨c, -, hc⟩ := List.mem_map.mp hmem
  exact ⟨c, hc⟩

theorem findColumn_append (h : findColumn schema c = some i) (column : Column) :
    findColumn (schema ++ [column]) c = some i := by
  have hi := lt_length_of_findColumn h
  obtain ⟨hat, hfirst⟩ := findColumn_eq_some.mp h
  refine findColumn_eq_some.mpr ⟨?_, fun j hj => ?_⟩
  · rwa [List.getElem?_append_left hi]
  · rw [List.getElem?_append_left (hj.trans hi)]
    exact hfirst j hj

theorem findColumn_eraseIdx (h : findColumn schema c = some i) (hne : i ≠ index) :
    findColumn (schema.eraseIdx index) c = some (shiftErased index i) := by
  obtain ⟨⟨column, hcol, hname⟩, hfirst⟩ := findColumn_eq_some.mp h
  rw [shiftErased]
  refine findColumn_eq_some.mpr ⟨⟨column, ?_, hname⟩, fun j hj column' hcol' => ?_⟩
  · split_ifs with hlt
    · rw [List.getElem?_eraseIdx, if_neg (by omega), Nat.sub_add_cancel (by omega)]
      exact hcol
    · rw [List.getElem?_eraseIdx, if_pos (by omega)]
      exact hcol
  · rw [List.getElem?_eraseIdx] at hcol'
    split_ifs at hj hcol' <;> exact hfirst _ (by omega) column' hcol'

theorem findColumn_insertIdx (h : findColumn schema c = some i) (hname : column.name ≠ c) :
    findColumn (schema.insertIdx index column) c = some (shiftInserted index i) := by
  obtain ⟨⟨found, hcol, hfound⟩, hfirst⟩ := findColumn_eq_some.mp h
  rw [shiftInserted]
  refine findColumn_eq_some.mpr ⟨⟨found, ?_, hfound⟩, fun j hj other hother => ?_⟩
  · rw [List.getElem?_insertIdx]
    split_ifs <;> first | omega | skip
    all_goals simpa using hcol
  · rw [List.getElem?_insertIdx] at hother
    split_ifs at hj hother
    all_goals first
      | exact hfirst _ (by omega) other hother
      | (obtain rfl := Option.some.inj hother; exact hname)

/-- The place of a column after one has been renamed. -/
theorem findColumn_modify (hold : findColumn schema oldName = some index)
    (hnew : findColumn schema newName = none) (h : findColumn schema c = some i) :
    findColumn (schema.modify index fun column => { column with name := newName })
      (renameName oldName newName c) = some i := by
  have hget : ∀ j column, (schema.modify index fun column => { column with name := newName })[j]? =
      some column → ∃ old, schema[j]? = some old ∧
        column.name = if index = j then newName else old.name := by
    intro j column hj
    rw [List.getElem?_modify, Option.map_eq_map, Option.map_eq_some_iff] at hj
    obtain ⟨old, hold, rfl⟩ := hj
    refine ⟨old, hold, ?_⟩
    split_ifs <;> rfl
  have hfresh : ∀ (j : ℕ) (column : Column), schema[j]? = some column → column.name ≠ newName :=
    fun j column hj =>
    findColumn_eq_none.mp hnew column (List.mem_of_getElem? hj)
  obtain ⟨⟨found, hcol, hname⟩, hfirst⟩ := findColumn_eq_some.mp h
  rw [renameName]
  refine findColumn_eq_some.mpr
    ⟨⟨if index = i then { found with name := newName } else found, ?_, ?_⟩,
    fun j hj column hcolumn => ?_⟩
  · rw [List.getElem?_modify, hcol]
    split_ifs <;> rfl
  · split_ifs with heq hc hc
    · rfl
    · -- the column found is the one renamed, so it had the old name
      obtain ⟨⟨old, hcol', hname'⟩, -⟩ := findColumn_eq_some.mp hold
      rw [heq, hcol] at hcol'
      exact absurd (hname.symm.trans (Option.some.inj hcol' ▸ hname')) hc
    · exact absurd (Option.some.inj (hold.symm.trans (hc ▸ h))) heq
    · exact hname
  · obtain ⟨old, hold', hrenamed⟩ := hget j column hcolumn
    rw [hrenamed]
    split_ifs with heq hc hc
    · have := Option.some.inj (hold.symm.trans (hc ▸ h))
      omega
    · exact fun hc' => hfresh i found hcol (hname.trans hc'.symm)
    · exact hfresh j old hold'
    · exact hfirst j hj old hold'

/-- The column that was renamed no longer has its old name. -/
theorem findColumn_modify_ne (hne : oldName ≠ newName)
    (hold : findColumn schema oldName = some index) :
    findColumn (schema.modify index fun column => { column with name := newName }) oldName ≠
      some index := by
  intro h
  obtain ⟨⟨column, hcolumn, -⟩, -⟩ := findColumn_eq_some.mp hold
  obtain ⟨⟨renamed, hrenamed, hname⟩, -⟩ := findColumn_eq_some.mp h
  rw [List.getElem?_modify_eq, hcolumn] at hrenamed
  rw [← Option.some.inj hrenamed] at hname
  exact hne hname.symm

end FindColumn

/-- The live rows have the width of the schema. -/
structure WideRows (rowStore : PageRowStore) (schema : List Column) : Prop where
  valid : rowStore.Valid
  width : ∀ i row, rowStore.get i = some row → row.length = schema.length

variable {name : String} {columnIndexes : List ℕ} {expression : Option IndexExpression} {u : Unit}

/-! ### The definitions of the indexes -/

namespace IndexManager

variable {m m' : IndexManager} {rowStore rowStore' : PageRowStore} {schema schema' : List Column}

/-- The index definitions fit the schema: their positions are those of the names there, and the
column of an expression stands at the position of its index. -/
structure Fits (m : IndexManager) (schema : List Column) : Prop extends Registered m where
  positions : ∀ (name : String) positions, m.indexColumns[name]? = some positions →
    ∀ i ∈ positions, findColumn schema (columnName schema i) = some i
  expressions : ∀ (name : String) e, m.indexExpressions[name]? = some e →
    ∃ i, m.indexColumns[name]? = some [i] ∧ findColumn schema e.column = some i

theorem Fits.congr (h : m.Fits schema) (hreg : m'.Registered)
    (hcol : m'.indexColumns = m.indexColumns) (hexpr : m'.indexExpressions = m.indexExpressions) :
    m'.Fits schema :=
  ⟨hreg, by rw [hcol]; exact h.positions, by rw [hcol, hexpr]; exact h.expressions⟩

theorem Fits.mem_indexColumns (h : m.Fits schema) (hname : name ∈ m.indexExpressions) :
    name ∈ m.indexColumns := by
  obtain ⟨e, he⟩ := Option.isSome_iff_exists.mp (mem_iff_isSome_getElem?.mp hname)
  obtain ⟨i, hi, -⟩ := h.expressions name e he
  exact mem_iff_isSome_getElem?.mpr (by rw [hi]; rfl)

/-- The stores of the indexes were built from the live rows, and the definitions fit the schema. -/
structure Current (m : IndexManager) (rowStore : PageRowStore) (schema : List Column) : Prop where
  rows : WideRows rowStore schema
  fits : m.Fits schema
  built : m.Built rowStore schema

theorem Current.of_rebuild (hrows : WideRows rowStore schema) (hfits : m.Fits schema) {u : PUnit}
    (h : rebuildIndexes rowStore schema m = .ok u m') : m'.Current rowStore schema := by
  obtain ⟨hbuilt, hcol, hexpr⟩ := built_of_rebuildIndexes hfits.toRegistered hrows.valid h
  exact ⟨hrows, hfits.congr hbuilt.toRegistered hcol hexpr, hbuilt⟩

/-- The logs stay when the rows keep their keys. -/
theorem Built.transfer (h : m.Built rowStore schema) (hreg : m'.Registered)
    (hmem : ∀ name ∈ m'.indexColumns, name ∈ m.indexColumns)
    (hhash : ∀ name ∈ m'.indexColumns, m'.hashIndex name = m.hashIndex name)
    (hord : ∀ name ∈ m'.indexColumns, m'.orderedIndex name = m.orderedIndex name)
    (htri : ∀ name ∈ m'.indexColumns, m'.isTrigram name = m.isTrigram name) {f : Row → Row}
    (hget : ∀ i, rowStore'.get i = (rowStore.get i).map f)
    (hkey : ∀ i row, rowStore.get i = some row → ∀ name ∈ m'.indexColumns,
      m'.indexKeyForRow name (f row) schema' = m.indexKeyForRow name row schema) :
    m'.Built rowStore' schema' := by
  have hrows : ∀ i row', rowStore'.get i = some row' ↔
      ∃ row, rowStore.get i = some row ∧ f row = row' := by
    intro i row'
    rw [hget, Option.map_eq_some_iff]
  refine ⟨hreg, fun i row' hrow' name hname => ?_, fun name hname => ?_⟩
  · obtain ⟨row, hrow, rfl⟩ := (hrows i row').mp hrow'
    have hname' := mem_keys.mp hname
    rw [hkey i row hrow name hname']
    exact h.indexable i row hrow name (mem_keys.mpr (hmem name hname'))
  · obtain ⟨log, hlog⟩ := h.exists_log name (hmem name hname)
    refine ⟨log, ?_, ?_, hlog.nodup, fun r k => (hlog.mem_iff r k).trans ⟨?_, ?_⟩⟩
    · rw [hhash name hname, htri name hname]
      exact hlog.find
    · rw [hord name hname, htri name hname]
      exact hlog.entries
    · rintro ⟨row, hrow, hk⟩
      exact ⟨f row, (hrows r _).mpr ⟨row, hrow, rfl⟩, (hkey r row hrow name hname).trans hk⟩
    · rintro ⟨row', hrow', hk⟩
      obtain ⟨row, hrow, rfl⟩ := (hrows r row').mp hrow'
      exact ⟨row, hrow, (hkey r row hrow name hname).symm.trans hk⟩

section Definitions

/-- The index manager with one more definition and empty stores for it. -/
def withIndex (m : IndexManager) (name : String) (columnIndexes : List ℕ)
    (expression : Option IndexExpression) : IndexManager :=
  { indexColumns := m.indexColumns.insert name columnIndexes
    indexExpressions :=
      match expression with
      | some expression => m.indexExpressions.insertIfNew name expression
      | none => m.indexExpressions
    indexes := m.indexes.insertIfNew name {}
    orderedIndexes := m.orderedIndexes.insertIfNew name {} }

theorem registerIndex_eq_ok {rebuild : Bool}
    (h : registerIndex name columnIndexes expression rebuild rowStore schema m = .ok done m') :
    done = false ∧ m' = m ∨ done = true ∧ name ∉ m.indexColumns ∧
      if rebuild then
        rebuildIndexes rowStore schema (m.withIndex name columnIndexes expression) = .ok ⟨⟩ m'
      else m' = m.withIndex name columnIndexes expression := by
  simp only [registerIndex, get_bind, ite_run, pure_apply] at h
  by_cases hrefuse : columnIndexes = [] ∨ (expression.isSome ∧ columnIndexes.length ≠ 1) ∨
      (m.indexes.contains name ∨ m.indexColumns.contains name) ∨
      columnIndexes.any fun columnIndex => schema.length ≤ columnIndex
  · refine Or.inl ?_
    split_ifs at h with hnil hlen hname hrange
    iterate 4 exact ⟨(EStateM.Result.ok.inj h).1.symm, (EStateM.Result.ok.inj h).2.symm⟩
    all_goals exact absurd hrefuse (by tauto)
  · simp only [not_or] at hrefuse
    obtain ⟨hnil, hlen, hname, hrange⟩ := hrefuse
    rw [if_neg hnil, if_neg hlen, if_neg (not_or.mpr hname), if_neg hrange, set_bind] at h
    have hnot : name ∉ m.indexColumns := by simpa using hname.2
    refine Or.inr ?_
    cases rebuild with
    | true =>
      rw [if_pos rfl, bind_eq_ok] at h
      obtain ⟨_, _, hrebuild, h⟩ := h
      obtain ⟨rfl, rfl⟩ := EStateM.Result.ok.inj h
      exact ⟨rfl, hnot, hrebuild⟩
    | false =>
      obtain ⟨rfl, rfl⟩ := EStateM.Result.ok.inj h
      exact ⟨rfl, hnot, rfl⟩

theorem registerIndex_of_mem (hname : name ∈ m.indexColumns) (columnIndexes : List ℕ)
    (expression : Option IndexExpression) (rebuild : Bool) :
    registerIndex name columnIndexes expression rebuild rowStore schema m = .ok false m := by
  have hcontains : m.indexColumns.contains name := contains_iff_mem.mpr hname
  simp only [registerIndex, get_bind, ite_run, pure_apply, hcontains, or_true, if_true]
  split_ifs <;> rfl

/-- A request with a free name registers the index, and rebuilds all of them when it has to. -/
theorem registerIndex_of_not_mem (hm : m.Registered) (hname : name ∉ m.indexColumns)
    (hnil : columnIndexes ≠ []) (hexpression : expression.isSome → columnIndexes.length = 1)
    (hrange : ∀ i ∈ columnIndexes, i < schema.length) (rebuild : Bool) :
    registerIndex name columnIndexes expression rebuild rowStore schema m =
      ((if rebuild then rebuildIndexes rowStore schema else pure ⟨⟩) >>= fun _ => pure true)
        (m.withIndex name columnIndexes expression) := by
  have hfree : ¬(m.indexes.contains name ∨ m.indexColumns.contains name) := by
    simp [hm.mem_indexes, hname]
  have hlen : ¬(expression.isSome ∧ columnIndexes.length ≠ 1) := fun h => h.2 (hexpression h.1)
  have hinside : ¬columnIndexes.any fun columnIndex => schema.length ≤ columnIndex := by
    simpa using hrange
  simp only [registerIndex, get_bind, ite_run, if_neg hnil, if_neg hlen, if_neg hfree,
    if_neg hinside, set_bind]
  cases rebuild <;> rfl

theorem Registered.withIndex (hm : m.Registered) (name : String) (columnIndexes : List ℕ)
    (expression : Option IndexExpression) :
    (m.withIndex name columnIndexes expression).Registered :=
  ⟨fun k => by simp [IndexManager.withIndex, hm.mem_indexes],
    fun k => by simp [IndexManager.withIndex, hm.mem_orderedIndexes]⟩

theorem Fits.withIndex (h : m.Fits schema) (hname : name ∉ m.indexColumns)
    (hcols : ∀ i ∈ columnIndexes, ∃ c, findColumn schema c = some i)
    (hexpression : ∀ e, expression = some e →
      ∃ i, columnIndexes = [i] ∧ findColumn schema e.column = some i) :
    (m.withIndex name columnIndexes expression).Fits schema := by
  have hfresh : name ∉ m.indexExpressions := fun hmem => hname (h.mem_indexColumns hmem)
  refine ⟨⟨fun k => ?_, fun k => ?_⟩, fun k positions hk => ?_, fun k e he => ?_⟩
  · simp [IndexManager.withIndex, h.mem_indexes]
  · simp [IndexManager.withIndex, h.mem_orderedIndexes]
  · simp only [IndexManager.withIndex, getElem?_insert] at hk
    split_ifs at hk
    · obtain rfl := Option.some.inj hk
      intro i hi
      obtain ⟨c, hc⟩ := hcols i hi
      exact findColumn_columnName hc
    · exact h.positions k positions hk
  · by_cases hk : k = name
    · subst hk
      have hexpr : expression = some e := by
        cases expression with
        | none =>
          simp only [withIndex] at he
          exact absurd (mem_iff_isSome_getElem?.mpr (by rw [he]; rfl)) hfresh
        | some e' =>
          simp only [withIndex] at he
          rwa [getElem?_insertIfNew, if_pos ⟨Std.ReflCmp.compare_self, hfresh⟩] at he
      obtain ⟨i, rfl, hi⟩ := hexpression e hexpr
      exact ⟨i, by simp [withIndex], hi⟩
    · have he' : m.indexExpressions[k]? = some e := by
        cases expression with
        | none => exact he
        | some e' =>
          simpa [IndexManager.withIndex, getElem?_insertIfNew, Ne.symm hk] using he
      obtain ⟨i, hi, hfind⟩ := h.expressions k e he'
      refine ⟨i, ?_, hfind⟩
      simpa [IndexManager.withIndex, getElem?_insert, Ne.symm hk] using hi

theorem dropIndex_cases (m : IndexManager) (name : String) :
    (m.dropIndex name).2 = m ∨ (m.dropIndex name).2 =
      { indexColumns := m.indexColumns.erase name
        indexExpressions := m.indexExpressions.erase name
        indexes := m.indexes.erase name
        orderedIndexes := m.orderedIndexes.erase name } := by
  rw [dropIndex]
  split_ifs
  · exact Or.inl rfl
  · exact Or.inr rfl

theorem Fits.dropIndex (h : m.Fits schema) (name : String) : (m.dropIndex name).2.Fits schema := by
  rcases m.dropIndex_cases name with heq | heq <;> rw [heq]
  · exact h
  refine ⟨⟨fun k => ?_, fun k => ?_⟩, fun k positions hk => ?_, fun k e he => ?_⟩
  · simp [h.mem_indexes]
  · simp [h.mem_orderedIndexes]
  · simp only [getElem?_erase] at hk
    split_ifs at hk
    exact h.positions k positions hk
  · simp only [getElem?_erase] at he ⊢
    split_ifs at he with hk
    rw [if_neg hk]
    exact h.expressions k e he

theorem Built.dropIndex (h : m.Built rowStore schema) (name : String) :
    (m.dropIndex name).2.Built rowStore schema := by
  rcases m.dropIndex_cases name with heq | heq <;> rw [heq]
  · exact h
  have hne : ∀ k ∈ m.indexColumns.erase name, k ≠ name ∧ k ∈ m.indexColumns := fun k hk => by
    simpa [eq_comm (a := name)] using hk
  have hexpr : ∀ k, k ≠ name → (m.indexExpressions.erase name)[k]? = m.indexExpressions[k]? :=
    fun k hk => by simp [getElem?_erase, Ne.symm hk]
  refine h.transfer (f := id) ⟨fun k => by simp [h.mem_indexes],
    fun k => by simp [h.mem_orderedIndexes]⟩
    (fun k hk => (hne k hk).2) (fun k hk => ?_) (fun k hk => ?_) (fun k hk => ?_) (fun i => by simp)
    fun i row hrow k hk => ?_
  · simp [hashIndex, getElem?_erase, Ne.symm (hne k hk).1]
  · simp [orderedIndex, getElem?_erase, Ne.symm (hne k hk).1]
  · simp only [isTrigram, hexpr k (hne k hk).1]
  · simp only [indexKeyForRow, hexpr k (hne k hk).1, id, getElem?_erase,
      Std.LawfulEqCmp.compare_eq_iff_eq, if_neg (Ne.symm (hne k hk).1)]

theorem Current.dropIndex (h : m.Current rowStore schema) (name : String) :
    (m.dropIndex name).2.Current rowStore schema :=
  ⟨h.rows, h.fits.dropIndex name, h.built.dropIndex name⟩

end Definitions

section Columns

variable {index : ℕ}

theorem Fits.mapColumns (h : m.Fits schema) {shift : ℕ → ℕ}
    (hfind : ∀ (name : String) positions, m.indexColumns[name]? = some positions → ∀ i ∈ positions,
      ∀ c, findColumn schema c = some i → findColumn schema' c = some (shift i)) :
    Fits { m with indexColumns := m.indexColumns.map fun _ positions => positions.map shift }
      schema' := by
  refine ⟨⟨fun name => ?_, fun name => ?_⟩, fun name positions hname => ?_, fun name e he => ?_⟩
  · simp [h.mem_indexes]
  · simp [h.mem_orderedIndexes]
  · simp only [getElem?_map, Option.map_eq_some_iff] at hname
    obtain ⟨old, hold, rfl⟩ := hname
    intro j hj
    obtain ⟨i, hi, rfl⟩ := List.mem_map.mp hj
    exact findColumn_columnName (hfind name old hold i hi _ (h.positions name old hold i hi))
  · obtain ⟨i, hi, hcolumn⟩ := h.expressions name e he
    exact ⟨shift i, by simp [hi], hfind name [i] hi i List.mem_cons_self _ hcolumn⟩

theorem Fits.withoutColumn (h : m.Fits schema) (hfree : ∀ (name : String) positions,
    m.indexColumns[name]? = some positions → index ∉ positions) :
    (m.withoutColumn index).Fits (schema.eraseIdx index) := by
  refine h.mapColumns fun name positions hname i hi c hc => findColumn_eraseIdx hc ?_
  rintro rfl
  exact hfree name positions hname hi

theorem Fits.eraseColumn (h : m.Fits schema) (hm : eraseColumn index m = .ok u m') :
    m'.Fits (schema.eraseIdx index) := by
  obtain ⟨hfree, rfl⟩ := eraseColumn_eq_ok hm
  exact h.withoutColumn hfree

theorem Fits.insertColumn (h : m.Fits schema) (index : ℕ)
    (hnew : findColumn schema column.name = none) :
    (m.insertColumn index).Fits (schema.insertIdx index column) := by
  refine h.mapColumns fun _ _ _ i _ c hc => findColumn_insertIdx hc fun heq => ?_
  rw [heq, hc] at hnew
  cases hnew

end Columns

end IndexManager

variable {schema : List Column}

namespace Table

open IndexManager

variable {t t' : Table} {capture : DroppedColumnCapture} {constraint : UniqueConstraint}

/-- The indexes of the table agree with its live rows. -/
def Current (t : Table) : Prop := t.indexManager.Current t.rowStore t.schema

/-! ### Operations on rows -/

section Rows

/-- A change of one slot keeps the indexes current. -/
theorem Current.slotChange (ht : t.Current) {i : ℕ} {row : Option Row} {versions : MvccRowStore}
    (hrow : ∀ stored, row = some stored → stored.length = t.schema.length)
    (h : SlotChange t i row versions t') : t'.Current := by
  have hschema : t'.schema = t.schema := by rw [h.rest]
  have hrows : WideRows t'.rowStore t.schema := by
    refine ⟨h.valid, fun j stored hj => ?_⟩
    rw [h.get, Function.update_apply] at hj
    split_ifs at hj
    · exact hrow stored hj
    · exact ht.rows.width j stored hj
  rw [Current, hschema]
  rcases h.indexes with hrebuild | ⟨hfree, hsome, hadd⟩
  · exact Current.of_rebuild hrows ht.fits hrebuild
  · obtain ⟨stored, rfl⟩ := Option.isSome_iff_exists.mp hsome
    obtain ⟨hbuilt, hcol, hexpr⟩ := ht.built.of_addRowToIndexes hfree h.get hadd
    exact ⟨hrows, ht.fits.congr hbuilt.toRegistered hcol hexpr, hbuilt⟩

/-- A change of one slot keeps the indexes in step with the heap. -/
theorem Searchable.slotChange {t t' : Table} (ht : t.Searchable) {i : ℕ} {row : Option Row}
    {versions : MvccRowStore} (h : SlotChange t i row versions t') : t'.Searchable := by
  have hrest := h.rest
  have hrules : t'.indexManager.indexColumns = t.indexManager.indexColumns →
      t'.indexManager.indexExpressions = t.indexManager.indexExpressions → t.SameRules t' :=
    fun hcols hexpressions =>
      ⟨by rw [hrest], by rw [hrest], by rw [hrest], hcols, hexpressions⟩
  rcases h.indexes with hrebuild | ⟨hfree, hsome, hadd⟩
  · obtain ⟨hbuilt, hcols, hexpressions⟩ := built_of_rebuildIndexes
      ht.indexes.toRegistered h.valid hrebuild
    have hrules := hrules hcols hexpressions
    exact ⟨h.valid, hrules.schema ▸ hbuilt.agrees, hrules.canonical ht.canonical⟩
  · obtain ⟨stored, rfl⟩ := Option.isSome_iff_exists.mp hsome
    have hget : t'.rowStore.get i = some stored := by rw [h.get, Function.update_self]
    have hrow := indexable_of_addRowToIndexes ht.indexes.toRegistered hget hadd
    rw [addRowToIndexes_ok ht.indexes.toRegistered hget hrow,
      EStateM.Result.ok.injEq] at hadd
    have hrules := hrules (by rw [← hadd.2]; rfl) (by rw [← hadd.2]; rfl)
    refine ⟨h.valid, ?_, hrules.canonical ht.canonical⟩
    rw [← hadd.2, hrules.schema]
    exact ht.indexes.addRow hfree h.get hrow

theorem length_of_validateRow {row : Row} (h : t.validateRow row = .ok ()) :
    row.length = t.schema.length := by
  rw [validateRow] at h
  by_contra hne
  rw [if_pos hne] at h
  cases h

theorem updatedRow_eq_ok {row updated : Row} {rowId index : ℕ} {value : Value}
    (h : t.updatedRow row rowId index column value = .ok updated) :
    validateCell value column "updated value does not match column type" = .ok () ∧
      t.enforceCheckConstraints updated = .ok () ∧
      t.enforceUniqueConstraintsUnlocked updated (some rowId) = .ok () ∧
      updated = row.set index value := by
  simp only [updatedRow, bind, Except.bind] at h
  split at h
  · cases h
  rename_i hcell
  split at h
  · cases h
  rename_i hchecks
  split at h
  · cases h
  rename_i hunique
  obtain rfl := Except.ok.inj h
  exact ⟨hcell, hchecks, hunique, rfl⟩

end Rows

section Definitions

theorem Current.registerIndex (ht : t.Current)
    (hcols : ∀ i ∈ columnIndexes, ∃ c, findColumn t.schema c = some i)
    (hexpression : ∀ e, expression = some e →
      ∃ i, columnIndexes = [i] ∧ findColumn t.schema e.column = some i)
    (h : registerIndex name columnIndexes expression true t = .ok done t') :
    t'.Current ∧ ∃ m, t' = { t with indexManager := m } := by
  obtain ⟨m, hm, rfl⟩ := onIndexes_eq_ok.mp h
  refine ⟨?_, m, rfl⟩
  rcases registerIndex_eq_ok hm with ⟨-, rfl⟩ | ⟨-, hname, hrebuild⟩
  · exact ht
  · exact Current.of_rebuild ht.rows (ht.fits.withIndex hname hcols hexpression) hrebuild

theorem Current.createIndex (ht : t.Current) {columns : List String}
    (h : createIndex name columns t = .ok done t') : t'.Current := by
  simp only [Table.createIndex, get_bind, ite_run] at h
  split_ifs at h
  · exact (pure_eq_ok.mp h).2 ▸ ht
  rcases hcols : columns.mapM t.columnIndex with _ | indexes
  · rw [hcols] at h
    exact (pure_eq_ok.mp h).2 ▸ ht
  · rw [hcols] at h
    exact (ht.registerIndex (exists_findColumn_of_mapM hcols) (by simp) h).1

theorem Current.createExpressionIndex (ht : t.Current) {expression : IndexExpression}
    (h : createExpressionIndex name expression t = .ok done t') : t'.Current := by
  simp only [Table.createExpressionIndex, get_bind] at h
  rcases hcolumn : t.columnIndex expression.column with _ | index
  · rw [hcolumn] at h
    exact (pure_eq_ok.mp h).2 ▸ ht
  · rw [hcolumn] at h
    refine (ht.registerIndex (by simpa using ⟨_, hcolumn⟩) (fun e he => ⟨index, rfl, ?_⟩) h).1
    rw [← Option.some.inj he]
    exact hcolumn

theorem Current.ensureConstraintIndex (ht : t.Current) {context : String}
    (h : ensureConstraintIndex context true constraint t = .ok u t') : t'.Current := by
  simp only [Table.ensureConstraintIndex, get_bind, ite_run] at h
  split_ifs at h
  · exact (pure_eq_ok.mp h).2 ▸ ht
  rcases hcols : constraint.columns.mapM t.columnIndex with _ | indexes
  · rw [hcols] at h
    exact (throw_eq_ok.mp h).elim
  rw [hcols, bind_eq_ok] at h
  obtain ⟨done, t₁, hregister, h⟩ := h
  obtain ⟨ht₁, -⟩ := ht.registerIndex (exists_findColumn_of_mapM hcols) (by simp) hregister
  simp only [ite_run] at h
  split_ifs at h
  · exact (throw_eq_ok.mp h).elim
  · exact (pure_eq_ok.mp h).2 ▸ ht₁

end Definitions

/-! ### Changes of the schema -/

section Columns

theorem wideRows_of_rewritten {rewrite : ℕ × Row → Except Error Row} {s s' : PageRowStore}
    {schema' : List Column} (hs : Rewritten rewrite s s')
    (hrewrite : ∀ i row row', s.get i = some row → rewrite (i, row) = .ok row' →
      row'.length = schema'.length) : WideRows s' schema' := by
  refine ⟨hs.valid, fun i row' hrow' => ?_⟩
  rcases hrow : s.get i with _ | row
  · rw [hs.dead i hrow] at hrow'
    cases hrow'
  · obtain ⟨row'', hrewritten, hget⟩ := hs.live i row hrow
    rw [hget] at hrow'
    exact hrewrite i row row' hrow (Option.some.inj hrow' ▸ hrewritten)

theorem at_append_of_lt {row : Row} {i : ℕ} (hi : i < row.length) (pad : Value) :
    Row.at (row ++ [pad]) i = row.at i := by
  simp [Row.at, List.getD, List.getElem?_append_left hi]

/-- The rows and the definitions of the indexes fit the schema with one more column. -/
theorem fits_addColumn (hrows : WideRows t.rowStore t.schema) (hfits : t.indexManager.Fits t.schema)
    {fill : Option Value} (h : addColumn column fill t = .ok u t') :
    WideRows t'.rowStore t'.schema ∧ t'.indexManager.Fits t'.schema := by
  obtain ⟨-, -, -, s, hs, rfl⟩ := addColumn_eq_ok hrows.valid h
  refine ⟨wideRows_of_rewritten hs fun i row row' hrow hok => ?_, hfits.toRegistered,
    fun name positions hname i hi => ?_, fun name e he => ?_⟩
  · obtain rfl := Except.ok.inj hok
    simp [hrows.width i row hrow]
  · exact findColumn_columnName
      (findColumn_append (hfits.positions name positions hname i hi) column)
  · obtain ⟨i, hi, hfind⟩ := hfits.expressions name e he
    exact ⟨i, hi, findColumn_append hfind column⟩

/-- A column at the end changes no key. -/
theorem Current.addColumn (ht : t.Current) {fill : Option Value}
    (h : addColumn column fill t = .ok u t') : t'.Current := by
  obtain ⟨hrows, hfits⟩ := fits_addColumn ht.rows ht.fits h
  obtain ⟨-, -, -, s, hs, rfl⟩ := addColumn_eq_ok ht.rows.valid h
  refine ⟨hrows, hfits, ?_⟩
  refine ht.built.transfer (f := fun row => row ++ [fill.getD .null]) ht.fits.toRegistered
    (fun _ hname => hname) (fun _ _ => rfl) (fun _ _ => rfl) (fun _ _ => rfl) (fun i => ?_)
    fun i row hrow name hname => ?_
  · rcases hrow : t.rowStore.get i with _ | row
    · exact hs.dead i hrow
    · obtain ⟨row', hok, hget⟩ := hs.live i row hrow
      rw [hget, Option.map_some, ← Except.ok.inj hok]
  · have hwidth := ht.rows.width i row hrow
    cases hexpr : t.indexManager.indexExpressions[name]? with
    | some e =>
      obtain ⟨j, -, hfind⟩ := ht.fits.expressions name e hexpr
      have hj := lt_length_of_findColumn hfind
      simp only [indexKeyForRow, hexpr, evaluateIndexExpression, hfind,
        findColumn_append hfind column, at_append_of_lt (hwidth ▸ hj)]
    | none =>
      simp only [indexKeyForRow, hexpr]
      congr 1
      refine List.map_congr_left fun j hj => at_append_of_lt ?_ _
      rcases hpos : t.indexManager.indexColumns[name]? with _ | positions
      · rw [hpos] at hj
        cases hj
      · rw [hpos] at hj
        exact hwidth ▸ lt_length_of_findColumn (ht.fits.positions name positions hpos j hj)

theorem fits_dropIndexes {m : IndexManager} (h : m.Fits schema) (names : List String) :
    (dropIndexes m names).Fits schema := by
  induction names generalizing m with
  | nil => exact h
  | cons name names ih => exact ih (h.dropIndex name)

/-- The rebuild at the end of `dropColumn` makes the indexes current. -/
theorem current_of_dropColumn (hrows : WideRows t.rowStore t.schema)
    (hfits : t.indexManager.Fits t.schema) {columnName : String} {database : Option Database}
    {cascade : Bool}
    (h : dropColumn columnName database cascade t = .ok capture t') : t'.Current := by
  obtain ⟨index, column, dependents, t₁, hidx, -, -, ht₁, s, values, versions, m, m',
      hs, -, hm, hm',
    -, rfl⟩ := dropColumn_eq_ok hrows.valid h
  have hlt : index < t.schema.length := lt_length_of_findColumn hidx
  have hfits₁ : t₁.indexManager.Fits t.schema := by
    subst ht₁
    split_ifs
    · exact fits_dropIndexes (fits_dropIndexes hfits _) _
    · exact hfits
  refine Current.of_rebuild ?_ (hfits₁.eraseColumn hm) hm'
  refine wideRows_of_rewritten hs fun i row row' hrow hok => ?_
  rw [narrowRow] at hok
  split_ifs at hok
  obtain rfl := Except.ok.inj hok
  have hwidth := hrows.width i row hrow
  rw [List.length_eraseIdx_of_lt hlt, List.length_eraseIdx_of_lt (hwidth ▸ hlt), hwidth]

theorem fits_registerIndex (ht : t.indexManager.Fits t.schema)
    (hcols : ∀ i ∈ columnIndexes, ∃ c, findColumn t.schema c = some i)
    (hexpression : ∀ e, expression = some e →
      ∃ i, columnIndexes = [i] ∧ findColumn t.schema e.column = some i)
    (h : registerIndex name columnIndexes expression false t = .ok done t') :
    ∃ m, t' = { t with indexManager := m } ∧ m.Fits t.schema := by
  obtain ⟨m, hm, rfl⟩ := onIndexes_eq_ok.mp h
  refine ⟨m, rfl, ?_⟩
  rcases registerIndex_eq_ok hm with ⟨-, rfl⟩ | ⟨-, hname, rfl⟩
  · exact ht
  · exact ht.withIndex hname hcols hexpression

/-- What the loops of `restoreDependents` keep. -/
def Restoring (t t' : Table) : Prop :=
  t'.rowStore = t.rowStore ∧ t'.schema = t.schema ∧ t'.indexManager.Fits t.schema

theorem Restoring.registerIndex (ht : Restoring t₀ t) {failed : Error}
    (hcols : ∀ i ∈ columnIndexes, ∃ c, findColumn t.schema c = some i)
    (hexpression : ∀ e, expression = some e →
      ∃ i, columnIndexes = [i] ∧ findColumn t.schema e.column = some i)
    (h : (registerIndex name columnIndexes expression false >>= fun done =>
      if !done then throw failed else pure ()) t = .ok u t') : Restoring t₀ t' := by
  obtain ⟨hstore, hschema, hfits⟩ := ht
  rw [bind_eq_ok] at h
  obtain ⟨done, t₁, hregister, h⟩ := h
  simp only [ite_run, throw_apply, ite_error_eq_ok] at h
  obtain ⟨m, rfl, hm⟩ := fits_registerIndex (hschema ▸ hfits) hcols hexpression hregister
  rw [← (pure_eq_ok.mp h.2).2]
  exact ⟨hstore, hschema, hschema ▸ hm⟩

theorem Restoring.restoreUserIndex (ht : Restoring t₀ t) {definition : IndexDefinition}
    (h : restoreUserIndex definition t = .ok u t') : Restoring t₀ t' := by
  rw [Table.restoreUserIndex, get_bind] at h
  cases hexpression : definition.expression with
  | none =>
    simp only [hexpression] at h
    rcases hidxs : definition.columns.mapM t.columnIndex with _ | indexes
    · rw [hidxs] at h
      exact (throw_eq_ok.mp h).elim
    · rw [hidxs] at h
      exact ht.registerIndex (exists_findColumn_of_mapM hidxs) (by simp) h
  | some e =>
    simp only [hexpression] at h
    rcases hfind : t.columnIndex e.column with _ | i
    · simp only [List.mapM_cons, hfind] at h
      exact (throw_eq_ok.mp h).elim
    · simp only [List.mapM_cons, hfind] at h
      refine ht.registerIndex (by simpa using ⟨_, hfind⟩) (fun e' he' => ?_) h
      obtain rfl := Option.some.inj he'
      exact ⟨i, rfl, hfind⟩

theorem Restoring.ensureConstraintIndex (ht : Restoring t₀ t) {context : String}
    (h : ensureConstraintIndex context false constraint t = .ok u t') :
    Restoring t₀ t' := by
  simp only [Table.ensureConstraintIndex, get_bind, ite_run] at h
  split_ifs at h
  · exact (pure_eq_ok.mp h).2 ▸ ht
  rcases hcols : constraint.columns.mapM t.columnIndex with _ | indexes
  · rw [hcols] at h
    exact (throw_eq_ok.mp h).elim
  · rw [hcols] at h
    exact ht.registerIndex (exists_findColumn_of_mapM hcols) (by simp) h

/-- The rebuild at the end of `restoreDroppedColumn` makes the indexes current. -/
theorem Current.restoreDroppedColumn (ht : t.Current)
    (h : restoreDroppedColumn capture t = .ok u t') : t'.Current := by
  obtain ⟨hrange, hnew, s, versions, t₁, t₂, m, -, hs, ht₁, hdeps, hm, rfl⟩ :=
    restoreDroppedColumn_eq_ok ht.rows.valid h
  have hrows : WideRows t₁.rowStore t₁.schema := by
    subst ht₁
    refine wideRows_of_rewritten hs fun i row row' hrow hok => ?_
    rw [widenRow] at hok
    split at hok
    · cases hok
    split_ifs at hok with hlen
    obtain rfl := Except.ok.inj hok
    rw [List.length_insertIdx_of_le_length (not_lt.mp hlen), ht.rows.width i row hrow,
      List.length_insertIdx_of_le_length hrange]
  have hfits : t₁.indexManager.Fits t₁.schema := by
    subst ht₁
    exact ht.fits.insertColumn capture.columnIndex hnew
  obtain ⟨hstore, hschema, hfits'⟩ : Restoring t₁ t₂ := by
    cases hcascaded : capture.cascaded with
    | false =>
      rw [hcascaded] at hdeps
      obtain rfl : t₂ = t₁ := hdeps
      exact ⟨rfl, rfl, hfits⟩
    | true =>
      rw [hcascaded, if_pos rfl] at hdeps
      obtain ⟨t₃, t₄, rfl, huser, hunique⟩ := restoreDependents_eq_ok hdeps
      refine forM_ok_induction (fun _ _ _ _ _ ht hstep => ht.ensureConstraintIndex hstep) ?_ hunique
      refine forM_ok_induction (fun _ _ _ _ _ ht hstep => ht.restoreUserIndex hstep) ?_ huser
      exact ⟨rfl, rfl, hfits⟩
  exact Current.of_rebuild (hschema ▸ hstore ▸ hrows) (hschema ▸ hfits') hm

section Rename

variable (hfits : t.indexManager.Fits t.schema) {index : ℕ}
  (hold : t.columnIndex oldName = some index)
  (hnew : t.columnIndex newName = none)

include hfits hold hnew

theorem fits_withRenamedColumn : (t.withRenamedColumn index oldName newName).indexManager.Fits
    (t.withRenamedColumn index oldName newName).schema := by
  refine ⟨⟨hfits.mem_indexes, hfits.mem_orderedIndexes⟩, fun name positions hname i hi => ?_,
    fun name e' he' => ?_⟩
  · exact findColumn_columnName
      (findColumn_modify hold hnew (hfits.positions name positions hname i hi))
  · rw [Table.withRenamedColumn, IndexManager.renameColumn, getElem?_map,
      Option.map_eq_some_iff] at he'
    obtain ⟨e, he, rfl⟩ := he'
    obtain ⟨i, hi, hfind⟩ := hfits.expressions name e he
    exact ⟨i, hi, findColumn_modify hold hnew hfind⟩

theorem indexKeyForRow_withRenamedColumn (name : String) (row : Row) :
    (t.withRenamedColumn index oldName newName).indexManager.indexKeyForRow name row
        (t.withRenamedColumn index oldName newName).schema =
      t.indexManager.indexKeyForRow name row t.schema := by
  simp only [indexKeyForRow, Table.withRenamedColumn, IndexManager.renameColumn, getElem?_map]
  cases hexpr : t.indexManager.indexExpressions[name]? with
  | some e =>
    obtain ⟨j, -, hfind⟩ := hfits.expressions name e hexpr
    simp only [Option.map_some, evaluateIndexExpression, hfind, findColumn_modify hold hnew hfind]
  | none => rfl

end Rename

theorem wideRows_withRenamedColumn (hrows : WideRows t.rowStore t.schema) (index : ℕ)
    (oldName newName : String) : WideRows (t.withRenamedColumn index oldName newName).rowStore
      (t.withRenamedColumn index oldName newName).schema := by
  refine ⟨hrows.valid, fun i row hrow => ?_⟩
  rw [Table.withRenamedColumn, List.length_modify]
  exact hrows.width i row hrow

theorem Current.withRenamedColumn (ht : t.Current) {index : ℕ}
    (hold : t.columnIndex oldName = some index) (hnew : t.columnIndex newName = none) :
    (t.withRenamedColumn index oldName newName).Current := by
  refine ⟨wideRows_withRenamedColumn ht.rows _ _ _, fits_withRenamedColumn ht.fits hold hnew, ?_⟩
  refine ht.built.transfer (f := id) ⟨ht.fits.mem_indexes, ht.fits.mem_orderedIndexes⟩
    (fun _ hname => hname) (fun _ _ => rfl) (fun _ _ => rfl) (fun name _ => ?_) (fun i => ?_)
    fun i row _ name _ => indexKeyForRow_withRenamedColumn ht.fits hold hnew name row
  · rw [isTrigram, isTrigram, Table.withRenamedColumn, IndexManager.renameColumn, getElem?_map]
    cases t.indexManager.indexExpressions[name]? <;> rfl
  · rw [Option.map_id, id]
    rfl

theorem Current.renameConstraintIndex (ht : t.Current) {rename : String × UniqueConstraint}
    (h : renameConstraintIndex rename t = .ok u t') : t'.Current := by
  have hdrop : Table.Current { t with indexManager := (t.indexManager.dropIndex rename.1).2 } :=
    IndexManager.Current.dropIndex ht rename.1
  simp only [Table.renameConstraintIndex, ite_run] at h
  by_cases hsame : rename.1 = constraintIndexName rename.2
  · rw [if_pos hsame] at h
    exact (pure_eq_ok.mp h).2 ▸ ht
  rw [if_neg hsame, bind_of_ok (dropIndex_run _ t), ite_run] at h
  generalize { t with indexManager := (t.indexManager.dropIndex rename.1).2 } = t₁ at hdrop h
  by_cases hfound : (!(t.indexManager.dropIndex rename.1).1) = true
  · rw [if_pos hfound] at h
    exact (pure_eq_ok.mp h).2 ▸ hdrop
  rw [if_neg hfound, get_bind] at h
  rcases hcols : rename.2.columns.mapM t₁.columnIndex with _ | indexes
  · rw [hcols] at h
    exact (throw_eq_ok.mp h).elim
  · rw [hcols, bind_eq_ok] at h
    obtain ⟨done, t₂, hregister, h⟩ := h
    obtain ⟨ht₂, -⟩ := hdrop.registerIndex (exists_findColumn_of_mapM hcols) (by simp) hregister
    simp only [ite_run, throw_apply, ite_error_eq_ok] at h
    exact (pure_eq_ok.mp h.2).2 ▸ ht₂

theorem Current.renameColumn (ht : t.Current) (h : renameColumn oldName newName t = .ok u t') :
    t'.Current := by
  rcases renameColumn_eq_ok h with ⟨-, rfl⟩ | ⟨index, -, hold, hnew, hrename⟩
  · exact ht
  · exact forM_ok_induction (fun _ _ _ _ _ ht hstep => ht.renameConstraintIndex hstep)
      (ht.withRenamedColumn hold hnew) hrename

end Columns

end Table

/-- The operations on a table. -/
inductive TableOp where
  | insert (row : Row) (writerId : ℕ)
  | update (rowId index : ℕ) (value : Value) (writerId : ℕ)
  | erase (rowId writerId : ℕ)
  | eraseDiscardingVersion (rowId : ℕ)
  | replaceRow (rowId : ℕ) (row : Row)
  | revive (rowId : ℕ) (row : Row)
  | addColumn (column : Column) (fill : Option Value)
  | dropColumn (columnName : String) (database : Option Database) (cascade : Bool)
  | restoreDroppedColumn (capture : Table.DroppedColumnCapture)
  | renameColumn (oldName newName : String)
  | createIndex (name : String) (columns : List String)
  | createExpressionIndex (name : String) (expression : IndexExpression)
  | dropIndex (name : String)
  | ensureConstraintIndexes
  | applyPhysicalUpsert (rowId : ℕ) (row : Row)
  | applyPhysicalErase (rowId : ℕ)

/-- The call of the operation; what it returns is not used. -/
def TableOp.perform : TableOp → EStateM Error Table Unit
  | insert row writerId => discard (Table.insert row writerId)
  | update rowId index value writerId => discard (Table.update rowId index value writerId)
  | erase rowId writerId => discard (Table.erase rowId writerId)
  | eraseDiscardingVersion rowId => discard (Table.eraseDiscardingVersion rowId)
  | replaceRow rowId row => discard (Table.replaceRow rowId row)
  | revive rowId row => discard (Table.revive rowId row)
  | addColumn column fill => Table.addColumn column fill
  | dropColumn columnName database cascade => discard (Table.dropColumn columnName database cascade)
  | restoreDroppedColumn capture => Table.restoreDroppedColumn capture
  | renameColumn oldName newName => Table.renameColumn oldName newName
  | createIndex name columns => discard (Table.createIndex name columns)
  | createExpressionIndex name expression => discard (Table.createExpressionIndex name expression)
  | dropIndex name => discard (Table.dropIndex name)
  | ensureConstraintIndexes => Table.ensureConstraintIndexes
  | applyPhysicalUpsert rowId row => discard (Table.applyPhysicalUpsert rowId row)
  | applyPhysicalErase rowId => discard (Table.applyPhysicalErase rowId)

namespace Table

open IndexManager

variable {t t' : Table}

/-! ### Runs of operations -/

section Run

/-- Every operation that returns keeps the indexes current. -/
theorem Current.perform (ht : t.Current) {op : TableOp} (h : op.perform t = .ok u t') :
    t'.Current := by
  have hs := ht.rows.valid
  cases op with
  | insert row writerId =>
    obtain ⟨i, h⟩ := discard_eq_ok.mp h
    obtain ⟨hvalid, -, -, hslot⟩ := insert_eq_ok hs h
    exact ht.slotChange (fun _ hrow => Option.some.inj hrow ▸ length_of_validateRow hvalid) hslot
  | update rowId index value writerId =>
    obtain ⟨done, h⟩ := discard_eq_ok.mp h
    rcases update_eq_ok hs h with ⟨-, rfl⟩ | ⟨-, row, column, updated, hrow, -, hupd, hslot⟩
    · exact ht
    obtain ⟨-, -, -, rfl⟩ := updatedRow_eq_ok hupd
    refine ht.slotChange (fun stored hstored => ?_) hslot
    rw [← Option.some.inj hstored, List.length_set, ht.rows.width rowId row hrow]
  | erase rowId writerId =>
    obtain ⟨done, h⟩ := discard_eq_ok.mp h
    rcases erase_eq_ok hs h with ⟨-, rfl⟩ | ⟨-, -, hslot⟩
    · exact ht
    · exact ht.slotChange (by simp) hslot
  | eraseDiscardingVersion rowId =>
    obtain ⟨done, h⟩ := discard_eq_ok.mp h
    rcases eraseDiscardingVersion_eq_ok hs h with ⟨-, rfl⟩ | ⟨-, -, hslot⟩
    · exact ht
    · exact ht.slotChange (by simp) hslot
  | replaceRow rowId row =>
    obtain ⟨done, h⟩ := discard_eq_ok.mp h
    rcases replaceRow_eq_ok hs h with ⟨-, rfl⟩ | ⟨-, hvalid, -, -, hslot⟩
    · exact ht
    · exact ht.slotChange (fun _ hrow => Option.some.inj hrow ▸ length_of_validateRow hvalid) hslot
  | revive rowId row =>
    obtain ⟨done, h⟩ := discard_eq_ok.mp h
    rcases revive_eq_ok hs h with ⟨-, rfl⟩ | ⟨-, hvalid, -, -, hslot⟩
    · exact ht
    · exact ht.slotChange (fun _ hrow => Option.some.inj hrow ▸ length_of_validateRow hvalid) hslot
  | addColumn column fill => exact ht.addColumn h
  | dropColumn columnName database cascade =>
    obtain ⟨capture, h⟩ := discard_eq_ok.mp h
    exact current_of_dropColumn ht.rows ht.fits h
  | restoreDroppedColumn capture => exact ht.restoreDroppedColumn h
  | renameColumn oldName newName => exact ht.renameColumn h
  | createIndex name columns =>
    obtain ⟨done, h⟩ := discard_eq_ok.mp h
    exact ht.createIndex h
  | createExpressionIndex name expression =>
    obtain ⟨done, h⟩ := discard_eq_ok.mp h
    exact ht.createExpressionIndex h
  | dropIndex name =>
    obtain ⟨done, h⟩ := discard_eq_ok.mp h
    rw [dropIndex_run, EStateM.Result.ok.injEq] at h
    obtain ⟨-, rfl⟩ := h
    exact IndexManager.Current.dropIndex ht name
  | ensureConstraintIndexes =>
    rw [TableOp.perform, Table.ensureConstraintIndexes, get_bind] at h
    exact forM_ok_induction (fun _ _ _ _ _ ht hstep => ht.ensureConstraintIndex hstep) ht h
  | applyPhysicalUpsert rowId row =>
    obtain ⟨done, h⟩ := discard_eq_ok.mp h
    rcases applyPhysicalUpsert_eq_ok hs h with ⟨-, rfl⟩ | ⟨-, hvalid, hslot⟩
    · exact ht
    · exact ht.slotChange (fun _ hrow => Option.some.inj hrow ▸ length_of_validateRow hvalid) hslot
  | applyPhysicalErase rowId =>
    obtain ⟨done, h⟩ := discard_eq_ok.mp h
    rw [applyPhysicalErase_eq] at h
    rcases eraseDiscardingVersion_eq_ok hs h with ⟨-, rfl⟩ | ⟨-, -, hslot⟩
    · exact ht
    · exact ht.slotChange (by simp) hslot

variable {checks : List CheckPredicate} {foreignKeys : List ForeignKeyConstraint}
  {uniques : List UniqueConstraint}

theorem construct_eq_ok (h : construct name schema checks foreignKeys uniques = .ok t) :
    ∃ sawPrimaryKey schema', checkPrimaryKeyColumns false schema = .ok sawPrimaryKey ∧
      applyUniqueConstraints sawPrimaryKey schema uniques = .ok schema' ∧
      checks.forM assertSimpleCheckConstraint = .ok ⟨⟩ ∧
      t = { name := name, schema := schema', checkConstraints := checks, foreignKeys := foreignKeys,
            uniqueConstraints := uniques } := by
  rw [construct] at h
  by_cases hname : name = ""
  · rw [if_pos hname] at h
    cases h
  by_cases hschema : schema = []
  · rw [if_neg hname, if_pos hschema] at h
    cases h
  rw [if_neg hname, if_neg hschema] at h
  rcases hkeys : checkPrimaryKeyColumns false schema with e | sawPrimaryKey
  · rw [hkeys] at h
    cases h
  rcases happly : applyUniqueConstraints sawPrimaryKey schema uniques with e | schema'
  · rw [hkeys] at h
    simp only [bind, Except.bind, happly] at h
    cases h
  rcases hchecks : checks.forM assertSimpleCheckConstraint with e | _
  · rw [hkeys] at h
    simp only [bind, Except.bind, happly, hchecks] at h
    cases h
  rw [hkeys] at h
  simp only [bind, Except.bind, happly, hchecks] at h
  exact ⟨sawPrimaryKey, schema', rfl, happly, rfl, (Except.ok.inj h).symm⟩

theorem current_of_construct (h : construct name schema checks foreignKeys uniques = .ok t) :
    t.Current := by
  obtain ⟨_, schema', -, -, -, rfl⟩ := construct_eq_ok h
  have hnone : ∀ i, ({} : PageRowStore).get i = none := fun i => by simp [PageRowStore.get]
  refine ⟨⟨PageRowStore.valid_empty (by decide), fun i row hrow => ?_⟩,
    ⟨⟨by simp, by simp⟩, by simp, by simp⟩, ⟨by simp, by simp⟩, fun i row hrow => ?_, by simp⟩
  all_goals
    rw [hnone] at hrow
    cases hrow

theorem current_of_run (hnew : construct name schema checks foreignKeys uniques = .ok t₀)
    {ops : List TableOp} {u : PUnit} (hrun : forM ops TableOp.perform t₀ = .ok u t) : t.Current :=
  forM_ok_induction (fun _ _ _ _ _ ht hstep => ht.perform hstep) (current_of_construct hnew) hrun

/-- The lookups of a trigram index, by the text of the row. -/
theorem exists_storedKey_trigram {key : Value} {gram : List UInt8} (hgram : gram ≠ []) :
    (∃ k ∈ storedKeys true key, k.beq (.string gram) = true) ↔ ∃ text, key = .string text ∧
      (3 ≤ text.length ∧ gram.length = 3 ∧ gram <:+: text ∨ text.length < 3 ∧ gram = text) := by
  cases key with
  | string text =>
    have hstored : (∃ k ∈ storedKeys true (.string text), k.beq (.string gram) = true) ↔
        gram ∈ extractTrigrams text := by
      simp [storedKeys, Value.beq]
    rw [hstored]
    by_cases hlen : 3 ≤ text.length
    · rw [mem_extractTrigrams hlen]
      constructor
      · exact fun h => ⟨text, rfl, Or.inl ⟨hlen, h⟩⟩
      · rintro ⟨_, heq, ⟨-, h⟩ | ⟨hlt, -⟩⟩
        · exact (Value.string.inj heq) ▸ h
        · rw [← Value.string.inj heq] at hlt
          omega
    · have hshort : gram ∈ extractTrigrams text ↔ gram = text := by
        rw [extractTrigrams, if_pos (by omega)]
        cases text with
        | nil => simpa using hgram
        | cons c text => simp
      rw [hshort]
      constructor
      · exact fun h => ⟨text, rfl, Or.inr ⟨by omega, h⟩⟩
      · rintro ⟨_, heq, ⟨hle, -⟩ | ⟨-, h⟩⟩
        · rw [← Value.string.inj heq] at hle
          omega
        · exact h.trans (Value.string.inj heq).symm
  | null | int _ | double _ | parameter _ | composite _ => simp [storedKeys]

/-- In every state that operations which return lead to, the lookups of an index return the live
rows with the key: those of the hash store always, those of the ordered store when no live row has a
NaN in its key. A trigram index finds the texts that contain the gram, or are the gram when they are
shorter than three bytes. -/
theorem lookups_exact {name : String} {schema : List Column} {checks : List CheckPredicate}
    {foreignKeys : List ForeignKeyConstraint} {uniques : List UniqueConstraint} {t₀ t : Table}
    {ops : List TableOp} (hnew : construct name schema checks foreignKeys uniques = .ok t₀)
    (hrun : forM ops TableOp.perform t₀ = .ok ⟨⟩ t) (index : String)
    (hidx : index ∈ t.indexManager.indexColumns) :
    (t.indexManager.isTrigram index = false →
      (∀ key r, r ∈ (t.indexManager.hashIndex index).find key ↔
        ∃ row, t.rowStore.get r = some row ∧ t.indexManager.KeyEquals index row t.schema key) ∧
      ((∀ r row k, t.rowStore.get r = some row →
          t.indexManager.indexKeyForRow index row t.schema = .ok k → k.IsKey) →
        ∀ key r, r ∈ (t.indexManager.orderedIndex index).find key ↔
          ∃ row, t.rowStore.get r = some row ∧ t.indexManager.KeyEquals index row t.schema key)) ∧
    (t.indexManager.isTrigram index = true → ∀ gram, gram ≠ [] → ∀ r,
      r ∈ (t.indexManager.hashIndex index).find (.string gram) ↔
        ∃ row text, t.rowStore.get r = some row ∧
          t.indexManager.indexKeyForRow index row t.schema = .ok (.string text) ∧
          (3 ≤ text.length ∧ gram.length = 3 ∧ gram <:+: text ∨ text.length < 3 ∧
            gram = text)) := by
  have hbuilt := (current_of_run hnew hrun).built
  refine ⟨fun htri => ⟨fun key r => ?_, fun hkeys key r => ?_⟩, fun htri gram hgram r => ?_⟩
  · rw [hbuilt.mem_find hidx, htri]
    simp [storedKeys, KeyEquals]
  · obtain ⟨log, hlog⟩ := hbuilt.exists_log index hidx
    refine hlog.mem_find_ordered htri (fun entry hentry => ?_) r key
    obtain ⟨row, hrow, hk⟩ := (hlog.mem_iff entry.1 entry.2).mp hentry
    exact hkeys entry.1 row entry.2 hrow hk
  · rw [hbuilt.mem_find hidx, htri]
    simp only [exists_storedKey_trigram hgram]
    constructor
    · rintro ⟨row, hrow, k, hk, text, rfl, htext⟩
      exact ⟨row, text, hrow, hk, htext⟩
    · rintro ⟨row, text, hrow, hk, htext⟩
      exact ⟨row, hrow, _, hk, text, rfl, htext⟩

/-- A column of doubles. -/
def doubleTable : Table := { name := "t", schema := [{ name := "a", type := .double }] }

/-- A number comes into the indexed column. -/
def numberOps : List TableOp := [.createIndex "i" ["a"], .insert [.double (.ofInt64 1)] 0]

/-- Both stores find the number. -/
theorem lookups_exact_number : ∃ t, forM numberOps TableOp.perform doubleTable = .ok ⟨⟩ t ∧
    0 ∈ (t.indexManager.hashIndex "i").find (.double (.ofInt64 1)) ∧
    0 ∈ (t.indexManager.orderedIndex "i").find (.double (.ofInt64 1)) := by
  have hrun : Returns (forM numberOps TableOp.perform) doubleTable fun _ t =>
      "i" ∈ t.indexManager.indexColumns ∧ t.indexManager.isTrigram "i" = false ∧
        t.rowStore.get 0 = some [.double (.ofInt64 1)] ∧
        (∀ entry ∈ t.rowStore.liveEntries, entry.2 = [.double (.ofInt64 1)]) ∧
        t.indexManager.indexKeyForRow "i" [.double (.ofInt64 1)] t.schema =
          .ok (.double (.ofInt64 1)) := by
    decide +kernel
  obtain ⟨_, t, hrun, hmem, htri, hget, hrows, hkey⟩ := hrun
  have hnew : construct "t" [{ name := "a", type := .double }] [] [] [] = .ok doubleTable := rfl
  have hs := (current_of_run hnew hrun).rows.valid
  obtain ⟨hhash, hord⟩ := (lookups_exact hnew hrun "i" hmem).1 htri
  have hequals : t.indexManager.KeyEquals "i" [.double (.ofInt64 1)]
      t.schema (.double (.ofInt64 1)) :=
    ⟨_, hkey, by decide +kernel⟩
  refine ⟨t, hrun, (hhash _ 0).mpr ⟨_, hget, hequals⟩, (hord (fun r row k hrow hk => ?_) _ 0).mpr
    ⟨_, hget, hequals⟩⟩
  obtain rfl : row = _ := hrows _ ((PageRowStore.mem_liveEntries hs r row).mpr hrow)
  rw [hkey] at hk
  obtain rfl := Except.ok.inj hk
  exact (by decide +kernel : (Double.ofInt64 1).isNaN = false)

/-- A NaN comes after it. -/
def nanOps : List TableOp := numberOps ++ [.insert [.double .nan] 0]

/-- The NaN stands before the number in the leaves, where the search for the number stops at it. -/
theorem find_after_nan :
    construct "t" [{ name := "a", type := .double }] [] [] [] = .ok doubleTable ∧
    ∃ t, forM nanOps TableOp.perform doubleTable = .ok ⟨⟩ t ∧ "i" ∈ t.indexManager.indexColumns ∧
      t.indexManager.isTrigram "i" = false ∧ t.rowStore.get 0 = some [.double (.ofInt64 1)] ∧
      t.indexManager.KeyEquals "i" [.double (.ofInt64 1)] t.schema (.double (.ofInt64 1)) ∧
      0 ∉ (t.indexManager.orderedIndex "i").find (.double (.ofInt64 1)) := by
  have hrun : Returns (forM nanOps TableOp.perform) doubleTable fun _ t =>
      "i" ∈ t.indexManager.indexColumns ∧ t.indexManager.isTrigram "i" = false ∧
        t.rowStore.get 0 = some [.double (.ofInt64 1)] ∧
        t.indexManager.indexKeyForRow "i" [.double (.ofInt64 1)] t.schema =
          .ok (.double (.ofInt64 1)) ∧
        0 ∉ (t.indexManager.orderedIndex "i").find (.double (.ofInt64 1)) := by
    decide +kernel
  obtain ⟨_, t, hrun, hmem, htri, hget, hkey, hfind⟩ := hrun
  exact ⟨rfl, t, hrun, hmem, htri, hget, ⟨_, hkey, by decide +kernel⟩, hfind⟩

end Run

end Table

end VertexDB
