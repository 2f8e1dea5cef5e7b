import VertexDB.Storage.LateFailures
import VertexDB.Transaction.TableUndo

/-!
# Restoring a dropped column

`Table::dropColumn` with CASCADE takes the column out of the rows, the versions, the schema and the
positions of the indexes, and drops the constraints and indexes on it; `Table::restoreDroppedColumn`
puts back what was captured. The rows, the versions, the user indexes and the constraints come back
as they were. The indexes of the constraints are not captured but created again, each under the name
that joins its columns: a constraint without an index gets one, and an index that only bears such a
name is lost.

## Main definitions

* `Table.Dropped`: what a DROP COLUMN with CASCADE leaves of the table.
* `Table.Recoverable`: what restoring the column needs.
* `Table.Restored`: the rows, versions, constraints and lookups are as before.

## Main results

* `MvccRowStore.insertColumn_extractColumn`: the versions come back as they were.
* `Table.Dropped.restoreDroppedColumn_run`, `Table.Dropped.restoreDroppedColumn_returns`: how
  `restoreDroppedColumn` runs on the dropped table, and when it returns.
-/

namespace VertexDB

open Exec IndexManager Std.ExtTreeMap

/-! ### The versions -/

namespace MvccRowStore

variable {s s' : MvccRowStore} {index : ℕ} {values : List (ℕ × List Value)}

/-- A chain that lost a column gets its values back. -/
theorem insertIntoChain_eraseIdx {chain : List RowVersion}
    (h : ∀ version ∈ chain, index < version.row.length) :
    insertIntoChain index
      (chain.map fun version => { version with row := version.row.eraseIdx index })
      (some (chain.map fun version => version.row.at index)) = .ok chain := by
  have hwide : ¬((chain.map fun version => { version with row := version.row.eraseIdx index }).any
      fun version => version.row.length < index) = true := by
    rw [List.any_map, List.any_eq_true]
    rintro ⟨version, hver, hlt⟩
    have hlen : (version.row.eraseIdx index).length < index := of_decide_eq_true hlt
    rw [List.length_eraseIdx_of_lt (h version hver)] at hlen
    have := h version hver
    omega
  rw [insertIntoChain, if_neg (by simp), if_neg hwide, List.zipWith_map, List.zipWith_self]
  refine congrArg Except.ok ((List.map_congr_left fun version hver => ?_).trans (List.map_id _))
  have hlt := h version hver
  have hat : version.row.at index = version.row[index] := by
    simp [Row.at, List.getD, List.getElem?_eq_getElem hlt]
  simp only [hat, List.insertIdx_eraseIdx_getElem hlt, id]

/-- The loop of `insertColumn` over a part of the chains, which get the values of another store. -/
theorem foldlM_insertColumn_ok {entries : List (ℕ × List RowVersion)}
    (hentries : ∀ entry ∈ entries, ∃ chain, s.versions[entry.1]? = some chain ∧
      insertIntoChain index entry.2
        ((values.find? fun value : ℕ × List Value => value.1 = entry.1).map Prod.snd) = .ok chain)
    (s₁ : MvccRowStore) :
    ∃ s₂, entries.foldlM (fun (s : MvccRowStore) entry => do
        let columnValues :=
          (values.find? fun value : ℕ × List Value => value.1 = entry.1).map Prod.snd
        let chain ← insertIntoChain index entry.2 columnValues
        return ({ versions := s.versions.insert entry.1 chain } : MvccRowStore)) s₁ = .ok s₂ ∧
      ∀ i, s₂.versions[i]? = if i ∈ entries.map Prod.fst then
        s.versions[i]? else s₁.versions[i]? := by
  induction entries generalizing s₁ with
  | nil => exact ⟨s₁, rfl, by simp⟩
  | cons entry entries ih =>
    obtain ⟨⟨chain, hchain, hinsert⟩, htail⟩ := List.forall_mem_cons.mp hentries
    obtain ⟨s₂, hrun, hget⟩ := ih htail { versions := s₁.versions.insert entry.1 chain }
    refine ⟨s₂, ?_, fun i => ?_⟩
    · rw [List.foldlM_cons]
      simp only [hinsert, bind, Except.bind, pure, Except.pure] at hrun ⊢
      exact hrun
    · rw [hget, List.map_cons, getElem?_insert]
      by_cases hi : entry.1 = i
      · subst hi
        simp [hchain]
      · simp only [Std.LawfulEqCmp.compare_eq_iff_eq, if_neg hi, List.mem_cons,
          Ne.symm hi, false_or]

theorem find?_columnValues {i : ℕ} {chain : List RowVersion} (h : s.versions[i]? = some chain)
    (f : List RowVersion → List Value) :
    ((s.versions.toList.map fun entry => (entry.1, f entry.2)).find?
      fun value : ℕ × List Value => value.1 = i).map Prod.snd = some (f chain) := by
  have hmem : (i, f chain) ∈ s.versions.toList.map fun entry => (entry.1, f entry.2) :=
    List.mem_map.mpr ⟨(i, chain), mem_toList_iff_getElem?_eq_some.mpr h, rfl⟩
  obtain ⟨value, hvalue⟩ : ∃ value, (s.versions.toList.map fun entry => (entry.1, f entry.2)).find?
      (fun value : ℕ × List Value => value.1 = i) = some value :=
    Option.isSome_iff_exists.mp (List.find?_isSome.mpr ⟨_, hmem, by simp⟩)
  obtain ⟨⟨j, chain'⟩, hentry, rfl⟩ := List.mem_map.mp (List.mem_of_find?_eq_some hvalue)
  obtain rfl : j = i := by simpa using List.find?_some hvalue
  obtain rfl : chain' = chain := Option.some.inj
    ((mem_toList_iff_getElem?_eq_some.mp hentry).symm.trans h)
  rw [hvalue, Option.map_some]

/-- The values that `extractColumn` takes out are put back by `insertColumn`. -/
theorem insertColumn_extractColumn
    (h : s.extractColumn index = .ok (values, s')) : s'.insertColumn index values = .ok s := by
  rw [extractColumn] at h
  split_ifs at h with hnarrow
  obtain ⟨rfl, rfl⟩ := Prod.mk.inj (Except.ok.inj h)
  have hwide : ∀ (i : ℕ) chain, s.versions[i]? = some chain →
      ∀ version ∈ chain, index < version.row.length := by
    intro i chain hchain version hver
    by_contra hle
    exact hnarrow (List.any_eq_true.mpr ⟨(i, chain),
      mem_toList_iff_getElem?_eq_some.mpr hchain,
      List.any_eq_true.mpr ⟨version, hver, decide_eq_true (not_lt.mp hle)⟩⟩)
  obtain ⟨s₂, hrun, hget⟩ := foldlM_insertColumn_ok (s := s)
    (fun entry (hentry : entry ∈ (s.transformRows fun row =>
      row.eraseIdx index).versions.toList) => by
      obtain ⟨i, narrowed⟩ := entry
      rw [mem_toList_iff_getElem?_eq_some, transformRows, getElem?_map,
        Option.map_eq_some_iff] at hentry
      obtain ⟨chain, hchain, rfl⟩ := hentry
      refine ⟨chain, hchain, ?_⟩
      rw [find?_columnValues hchain fun chain => chain.map fun version => version.row.at index]
      exact insertIntoChain_eraseIdx (hwide i chain hchain))
    (s.transformRows fun row => row.eraseIdx index)
  obtain rfl : s₂ = s := by
    refine congrArg MvccRowStore.mk (ext_getElem? fun i => ?_)
    rw [hget]
    split_ifs with hi
    · rfl
    · rw [transformRows, getElem?_map]
      rcases hchain : s.versions[i]? with _ | chain
      · rfl
      · exact absurd (by simp [transformRows, hchain]) hi
  exact hrun

end MvccRowStore

theorem SameOutcome.exists_iff {x y : Except Error Value} (h : SameOutcome x y) {p : Value → Prop}
    (hp : ∀ v w, v.Indistinct w → (p v ↔ p w)) : (∃ v, x = .ok v ∧ p v) ↔ ∃ w, y = .ok w ∧ p w := by
  cases h with
  | error e => simp
  | ok h => simpa using hp _ _ h

/-- Keys that no comparison tells apart are found under the same keys. -/
theorem Value.Indistinct.storedKeys_iff {v w : Value} (h : v.Indistinct w) (trigram : Bool)
    (key : Value) :
    (∃ k ∈ storedKeys trigram v, k.beq key = true) ↔ ∃ k ∈ storedKeys trigram w,
      k.beq key = true := by
  cases h with
  | refl v => rfl
  | double h => cases trigram <;> simp [storedKeys, (Value.Indistinct.double h).beq_eq key]

namespace IndexManager

variable {m : IndexManager} {rowStore : PageRowStore} {schema : List Column} {index : ℕ}
  {name : String}

section Positions

theorem shiftInserted_shiftErased {i : ℕ} (h : i ≠ index) :
    shiftInserted index (shiftErased index i) = i := by
  unfold shiftInserted shiftErased
  split_ifs <;> omega

/-- The positions that moved down move up again. -/
theorem indexColumns_insertColumn_withoutColumn (hfree : ∀ (name : String) positions,
    m.indexColumns[name]? = some positions → index ∉ positions) :
    ((m.withoutColumn index).insertColumn index).indexColumns = m.indexColumns := by
  refine ext_getElem? fun name => ?_
  rw [insertColumn, withoutColumn, getElem?_map, getElem?_map]
  rcases hname : m.indexColumns[name]? with _ | positions
  · rfl
  · rw [Option.map_some, Option.map_some, List.map_map]
    refine congrArg some ((List.map_congr_left fun i hi => ?_).trans (List.map_id _))
    exact shiftInserted_shiftErased fun heq => hfree name positions hname (heq ▸ hi)

end Positions

end IndexManager

namespace Table

variable {t t' t'' : Table} {columns : List String} {positions : List ℕ} {context : String}

/-- Two answers of a lookup: both or none, with the same rows. -/
def SameAnswer : Option (List ℕ) → Option (List ℕ) → Prop :=
  Option.Rel fun rowIds rowIds' => ∀ r, r ∈ rowIds ↔ r ∈ rowIds'

variable {name : String} {expression : IndexExpression}

/-! ### What lookups answer -/

section Answers

theorem SameAnswer.isSome_eq {a b : Option (List ℕ)} (h : SameAnswer a b) :
    a.isSome = b.isSome := by
  cases h <;> rfl

/-- Answers of indexes that are found together and hold the same rows. -/
theorem sameAnswer_map {a b : Option String} {f g : String → List ℕ} (hsome : a.isSome = b.isSome)
    (h : ∀ name name', a = some name → b = some name' → ∀ r, r ∈ f name ↔ r ∈ g name') :
    SameAnswer (a.map f) (b.map g) := by
  cases a with
  | none =>
    cases b with
    | none => exact .none
    | some name' => cases hsome
  | some name =>
    cases b with
    | none => cases hsome
    | some name' => exact .some (h name name' rfl rfl)

theorem mapM_findColumn {schema : List Column}
    (h : ∀ i ∈ positions, findColumn schema (columnName schema i) = some i) :
    (positions.map (columnName schema)).mapM (findColumn schema) = some positions := by
  rw [mapM_eq_some, List.map_map]
  exact List.map_congr_left h

theorem Current.columnIndexName (ht : t.Current)
    (h : t.indexManager.columnIndexName columns t.schema = some name) :
    ∃ positions, columns.mapM (findColumn t.schema) = some positions ∧
      t.indexManager.indexColumns[name]? = some positions ∧
      t.indexManager.isTrigram name = false ∧
        ∀ row, t.indexManager.indexKeyForRow name row t.schema =
        Value.makeComposite (positions.map row.at) := by
  obtain ⟨positions, hcols, hexpr, rfl⟩ := columnIndexName_eq_some h
  refine ⟨positions, mapM_findColumn (ht.fits.positions name positions hcols), hcols, ?_,
    fun row => ?_⟩
  · rw [isTrigram, hexpr]
  · rw [indexKeyForRow, hexpr, hcols, Option.getD_some]

/-- The index that answers a lookup of an expression has the values of the expression as keys. -/
theorem Current.expressionIndexName (ht : t.Current)
    (h : t.indexManager.expressionIndexName expression = some name) :
    ∃ i, t.indexManager.indexColumns[name]? = some [i] ∧
      t.indexManager.isTrigram name = decide (expression.kind = .trigram) ∧
      ∀ row, SameOutcome (t.indexManager.indexKeyForRow name row t.schema)
        (evaluateIndexExpression expression row (findColumn t.schema)) := by
  obtain ⟨e, he, hbeq⟩ := expressionIndexName_eq_some h
  obtain ⟨i, hi, -⟩ := ht.fits.expressions name e he
  refine ⟨i, hi, ?_, fun row => ?_⟩
  · simp only [IndexExpression.beq, Bool.and_eq_true, beq_iff_eq] at hbeq
    rw [isTrigram, he, ← hbeq.1.1]
  · rw [indexKeyForRow, he]
    exact evaluateIndexExpression_congr hbeq row _

theorem Current.mem_find_columns (ht : t.Current)
    (h : t.indexManager.columnIndexName columns t.schema = some name)
    (hpos : columns.mapM (findColumn t.schema) = some positions) (key : Value) (r : ℕ) :
    r ∈ (t.indexManager.hashIndex name).find key ↔ ∃ row, t.rowStore.get r = some row ∧
      ∃ k, Value.makeComposite (positions.map row.at) = .ok k ∧ k.beq key = true := by
  obtain ⟨positions', hpos', hcols, htrigram, hkey⟩ := ht.columnIndexName h
  obtain rfl : positions' = positions := Option.mem_unique hpos' hpos
  rw [ht.built.mem_find (mem_iff_isSome_getElem?.mpr (by rw [hcols]; rfl)), htrigram]
  simp only [hkey, storedKeys, Bool.false_eq_true, if_false, List.mem_singleton, exists_eq_left]

theorem Current.mem_find_expression (ht : t.Current)
    (h : t.indexManager.expressionIndexName expression = some name) (key : Value) (r : ℕ) :
    r ∈ (t.indexManager.hashIndex name).find key ↔ ∃ row, t.rowStore.get r = some row ∧
      ∃ k, evaluateIndexExpression expression row (findColumn t.schema) = .ok k ∧
        ∃ k' ∈ storedKeys (decide (expression.kind = .trigram)) k, k'.beq key = true := by
  obtain ⟨i, hcols, htrigram, hkey⟩ := ht.expressionIndexName h
  rw [ht.built.mem_find (mem_iff_isSome_getElem?.mpr (by rw [hcols]; rfl)), htrigram]
  exact exists_congr fun row => and_congr_right fun _ =>
    (hkey row).exists_iff fun v w hvw => hvw.storedKeys_iff _ key

theorem Current.mem_orderedFind_column (ht : t.Current)
    (hkeys : t.indexManager.OrderedKeys t.rowStore t.schema) {column : String}
    (h : t.indexManager.columnIndexName [column] t.schema = some name)
    (hpos : [column].mapM (findColumn t.schema) = some positions) (op : ComparisonOperator)
    (value : Value) (r : ℕ) :
    r ∈ (t.indexManager.orderedIndex name).orderedFind op value ↔
      ∃ row, t.rowStore.get r = some row ∧
      ∃ k, Value.makeComposite (positions.map row.at) = .ok k ∧
        compareValues k op value = true := by
  obtain ⟨positions', hpos', hcols, htrigram, hkey⟩ := ht.columnIndexName h
  obtain rfl : positions' = positions := Option.mem_unique hpos' hpos
  obtain ⟨i, rfl⟩ : ∃ i, positions' = [i] := by
    simp only [List.mapM_cons, List.mapM_nil, Option.pure_def, Option.bind_eq_bind,
      Option.bind_eq_some_iff] at hpos
    obtain ⟨i, -, rest, hrest, heq⟩ := hpos
    exact ⟨i, by cases hrest; exact (Option.some.inj heq).symm⟩
  rw [ht.built.mem_orderedFind hkeys hcols, htrigram]
  simp only [hkey, true_and]

theorem Current.mem_orderedFind_expression (ht : t.Current)
    (hkeys : t.indexManager.OrderedKeys t.rowStore t.schema)
    (h : t.indexManager.expressionIndexName expression = some name) (op : ComparisonOperator)
    (value : Value) (r : ℕ) :
    r ∈ (t.indexManager.orderedIndex name).orderedFind op value ↔ expression.kind ≠ .trigram ∧
      ∃ row, t.rowStore.get r = some row ∧
        ∃ k, evaluateIndexExpression expression row (findColumn t.schema) = .ok k ∧
          compareValues k op value = true := by
  obtain ⟨i, hcols, htrigram, hkey⟩ := ht.expressionIndexName h
  rw [ht.built.mem_orderedFind hkeys hcols, htrigram, decide_eq_false_iff_not]
  exact and_congr_right fun _ => exists_congr fun row => and_congr_right fun _ =>
    (hkey row).exists_iff fun v w hvw => by rw [hvw.compareValues_eq]

/-- The lookups of both tables have the same answers. -/
structure SameLookups (t t'' : Table) : Prop where
  indexedLookup : ∀ columns key, SameAnswer (t.indexManager.indexedLookup columns key t.schema)
    (t''.indexManager.indexedLookup columns key t''.schema)
  expressionLookup : ∀ expression key, SameAnswer (t.indexManager.expressionLookup expression key)
    (t''.indexManager.expressionLookup expression key)
  orderedLookup : ∀ column op value,
    SameAnswer (t.indexManager.orderedLookup column op value t.schema)
      (t''.indexManager.orderedLookup column op value t''.schema)
  orderedExpressionLookup : ∀ expression op value,
    SameAnswer (t.indexManager.orderedExpressionLookup expression op value)
      (t''.indexManager.orderedExpressionLookup expression op value)

/-- Tables with the same rows have the same answers when the same lookups are answered. -/
theorem sameLookups_of (ht : t.Current) (ht'' : t''.Current) (hschema : t''.schema = t.schema)
    (hrows : t''.rowStore.get = t.rowStore.get)
    (hkeys : t.indexManager.OrderedKeys t.rowStore t.schema)
    (hkeys'' : t''.indexManager.OrderedKeys t''.rowStore t''.schema)
    (hcols : ∀ columns, t.indexManager.hasIndex columns t.schema =
      t''.indexManager.hasIndex columns t''.schema)
    (hexpressions : ∀ expression, t.indexManager.hasExpressionIndex expression =
      t''.indexManager.hasExpressionIndex expression) : SameLookups t t'' := by
  have hpos : ∀ {columns name}, t.indexManager.columnIndexName columns t.schema = some name →
      ∃ positions, columns.mapM (findColumn t.schema) = some positions ∧
        columns.mapM (findColumn t''.schema) = some positions := by
    intro columns name hname
    obtain ⟨positions, hpos, -⟩ := ht.columnIndexName hname
    exact ⟨positions, hpos, hschema ▸ hpos⟩
  refine ⟨fun columns key => sameAnswer_map (hcols columns) fun name name' hname hname' r => ?_,
    fun expression key => sameAnswer_map (hexpressions expression) fun name name' hname hname' r =>
      ?_,
    fun column op value => sameAnswer_map (hcols [column]) fun name name' hname hname' r => ?_,
    fun expression op value => sameAnswer_map (hexpressions expression)
      fun name name' hname hname' r => ?_⟩
  · obtain ⟨positions, hp, hp''⟩ := hpos hname
    rw [ht.mem_find_columns hname hp, ht''.mem_find_columns hname' hp'', hrows]
  · rw [ht.mem_find_expression hname, ht''.mem_find_expression hname', hrows, hschema]
  · obtain ⟨positions, hp, hp''⟩ := hpos hname
    rw [ht.mem_orderedFind_column hkeys hname hp, ht''.mem_orderedFind_column hkeys'' hname' hp'',
      hrows]
  · rw [ht.mem_orderedFind_expression hkeys hname, ht''.mem_orderedFind_expression hkeys'' hname',
      hrows, hschema]

end Answers

variable {m : IndexManager}

/-! ### The indexes of the user -/

section UserIndexes

variable {a : Table} {index : ℕ} {columnName : String}

theorem getElem?_withIndex (hname : name ∉ m.indexExpressions) (positions : List ℕ)
    (expression : Option IndexExpression) (k : String) :
    (m.withIndex name positions expression).indexColumns[k]? =
        (if name = k then some positions else m.indexColumns[k]?) ∧
      (m.withIndex name positions expression).indexExpressions[k]? =
        if name = k then expression else m.indexExpressions[k]? := by
  refine ⟨by simp [withIndex, getElem?_insert], ?_⟩
  cases expression with
  | none =>
    simp only [withIndex]
    split_ifs with hk
    · subst hk
      exact getElem?_eq_none hname
    · rfl
  | some e =>
    simp only [withIndex, getElem?_insertIfNew, Std.LawfulEqCmp.compare_eq_iff_eq]
    by_cases hk : name = k
    · simp [hk, hk ▸ hname]
    · simp [hk]

/-- A user index that went with the column comes back with its definition. -/
theorem restoreUserIndex_ok (hfits : t.indexManager.Fits t.schema)
    (hidx : t.columnIndex columnName = some index) {definition : IndexDefinition}
    (hdef : definition ∈ t.userIndexesOn columnName) (hschema : a.schema = t.schema)
    (ha : a.Indexing false) (hname : definition.name ∉ a.indexManager.indexColumns) :
    ∃ m, restoreUserIndex definition a = .ok ⟨⟩ { a with indexManager := m } ∧
      ({ a with indexManager := m } : Table).Indexing false ∧
      ∀ k, m.indexColumns[k]? = (if definition.name = k then t.indexManager.indexColumns[k]?
          else a.indexManager.indexColumns[k]?) ∧
        m.indexExpressions[k]? = if definition.name = k then t.indexManager.indexExpressions[k]?
          else a.indexManager.indexExpressions[k]? := by
  obtain ⟨hmem, hcond⟩ := List.mem_filter.mp hdef
  obtain ⟨⟨name, positions⟩, hentry, rfl⟩ := List.mem_map.mp hmem
  have hget := mem_toList_iff_getElem?_eq_some.mp hentry
  obtain ⟨-, href⟩ := Bool.and_eq_true_iff.mp hcond
  have hon : index ∈ positions := (indexReferencesColumn_iff hfits hidx hget _).mp href
  have hcanon := hfits.positions name positions hget
  have hexpressions : name ∉ a.indexManager.indexExpressions :=
    fun h => hname (ha.expressions name h)
  have hreg : ∀ expression : Option IndexExpression, (expression.isSome → positions.length = 1) →
      registerIndex name positions expression false a =
        .ok true { a with indexManager := a.indexManager.withIndex name positions expression } := by
    intro expression hlen
    have h : IndexManager.registerIndex name positions expression false a.rowStore a.schema
        a.indexManager = _ :=
      registerIndex_of_not_mem ha.registered hname (List.ne_nil_of_mem hon) hlen
        (fun i hi => hschema ▸ lt_length_of_findColumn (hcanon i hi)) false
    exact onIndexes_eq_ok.mpr ⟨_, h, rfl⟩
  refine ⟨a.indexManager.withIndex name positions t.indexManager.indexExpressions[name]?, ?_,
    ⟨ha.registered.withIndex _ _ _, fun h => Bool.noConfusion h, fun k hk => ?_⟩, fun k => ?_⟩
  · rw [restoreUserIndex, get_bind]
    cases hexpr : t.indexManager.indexExpressions[name]? with
    | none =>
      have hres : (positions.map (VertexDB.columnName t.schema)).mapM a.columnIndex =
          some positions := by
        have h := mapM_findColumn hcanon
        rwa [← hschema] at h ⊢
      simp only [hres]
      rw [bind_of_ok (hreg none (by simp))]
      rfl
    | some e =>
      obtain ⟨i, hi, hfind⟩ := hfits.expressions name e hexpr
      obtain rfl : [i] = positions := Option.mem_unique hi hget
      have hres : [e.column].mapM a.columnIndex = some [i] := by
        rw [← hschema] at hfind
        simp [List.mapM_cons, columnIndex, hfind]
      simp only [hres]
      rw [bind_of_ok (hreg (some e) (fun _ => rfl))]
      rfl
  · rw [mem_iff_isSome_getElem?, (getElem?_withIndex hexpressions _ _ k).1]
    rw [mem_iff_isSome_getElem?, (getElem?_withIndex hexpressions _ _ k).2] at hk
    split_ifs at hk ⊢ with hkname
    · rfl
    · exact mem_iff_isSome_getElem?.mp (ha.expressions k (mem_iff_isSome_getElem?.mpr hk))
  · obtain ⟨hcols, hexprs⟩ := getElem?_withIndex hexpressions positions
      t.indexManager.indexExpressions[name]? k
    rw [hcols, hexprs]
    by_cases hk : name = k
    · subst hk
      simp [hget]
    · simp [hk]

/-- The loop over user indexes that went with the column. -/
theorem forM_restoreUserIndex_ok (hfits : t.indexManager.Fits t.schema)
    (hidx : t.columnIndex columnName = some index) {definitions : List IndexDefinition}
    (hdefs : ∀ definition ∈ definitions, definition ∈ t.userIndexesOn columnName)
    (hnodup : (definitions.map IndexDefinition.name).Nodup) (hschema : a.schema = t.schema)
    (ha : a.Indexing false)
    (hfree : ∀ definition ∈ definitions, definition.name ∉ a.indexManager.indexColumns) :
    ∃ m, forM definitions restoreUserIndex a = .ok ⟨⟩ { a with indexManager := m } ∧
      ({ a with indexManager := m } : Table).Indexing false ∧
      ∀ k, m.indexColumns[k]? = (if k ∈ definitions.map IndexDefinition.name
          then t.indexManager.indexColumns[k]? else a.indexManager.indexColumns[k]?) ∧
        m.indexExpressions[k]? = if k ∈ definitions.map IndexDefinition.name
          then t.indexManager.indexExpressions[k]? else a.indexManager.indexExpressions[k]? := by
  induction definitions generalizing a with
  | nil => exact ⟨a.indexManager, rfl, ha, by simp⟩
  | cons definition definitions ih =>
    rw [List.map_cons, List.nodup_cons] at hnodup
    obtain ⟨hhead, htail⟩ := List.forall_mem_cons.mp hdefs
    obtain ⟨hheadFree, htailFree⟩ := List.forall_mem_cons.mp hfree
    obtain ⟨m₁, hstep, hm₁, hget₁⟩ := restoreUserIndex_ok hfits hidx hhead hschema ha hheadFree
    obtain ⟨m, hrun, hm, hget⟩ := ih htail hnodup.2 (a := { a with indexManager := m₁ }) hschema hm₁
      fun other hother => by
        have hne : definition.name ≠ other.name :=
          fun heq => hnodup.1 (heq ▸ List.mem_map_of_mem hother)
        rw [mem_iff_isSome_getElem?, (hget₁ other.name).1, if_neg hne, ← mem_iff_isSome_getElem?]
        exact htailFree other hother
    refine ⟨m, by rw [forM_cons_run, bind_of_ok hstep, hrun], hm, fun k => ?_⟩
    rw [(hget k).1, (hget k).2]
    by_cases hk : definition.name = k
    · subst hk
      simp [hget₁]
    · simp [hget₁, hk, Ne.symm hk]

end UserIndexes

/-! ### The run -/

section Run

variable {index : ℕ} {columnName : String} {database : Option Database}
  {capture : DroppedColumnCapture}

theorem captureDependents_cascade (t : Table) (column : Column) (index : ℕ) (columnName : String) :
    t.captureDependents column index columnName true = .ok {
      column := column
      columnIndex := index
      cascaded := true
      droppedUserIndexes := t.userIndexesOn columnName
      droppedChecks := t.checkConstraints.filter fun check => checkReferencesColumn check columnName
      droppedUniques := t.uniquesOn column columnName
      droppedChildForeignKeys := t.foreignKeys.filter fun fk =>
        foreignKeyReferencesColumn fk columnName } := by
  simp only [captureDependents, rejectOrCascade, Bool.not_true, Bool.and_false]
  rfl

theorem reservedName_constraintIndexName (constraint : UniqueConstraint) :
    reservedName (constraintIndexName constraint) = true := by
  rw [reservedName, constraintIndexName, String.toList_append, Bool.or_eq_true]
  cases constraint.primaryKey with
  | true => exact Or.inl (List.isPrefixOf_iff_prefix.mpr (List.prefix_append _ _))
  | false => exact Or.inr (List.isPrefixOf_iff_prefix.mpr (List.prefix_append _ _))

/-- The names of the indexes of the constraints on the column. -/
def constraintIndexNames (t : Table) (index : ℕ) (columnName : String) : List String :=
  (t.uniquesOn (t.droppedColumn index columnName) columnName).map constraintIndexName

/-- The table with the constraints on the column behind the others and without the indexes named
after them. -/
def regrouped (t : Table) (index : ℕ) (columnName : String) : Table :=
  { t with
    checkConstraints :=
      (t.checkConstraints.filter fun check => !checkReferencesColumn check columnName) ++
      t.checkConstraints.filter fun check => checkReferencesColumn check columnName
    foreignKeys := (t.foreignKeys.filter fun fk => !foreignKeyReferencesColumn fk columnName) ++
      t.foreignKeys.filter fun fk => foreignKeyReferencesColumn fk columnName
    uniqueConstraints := (t.uniqueConstraints.filter fun constraint =>
        !uniqueReferencesColumn constraint columnName) ++
      t.uniqueConstraints.filter fun constraint => uniqueReferencesColumn constraint columnName
    indexManager := dropIndexes t.indexManager (t.constraintIndexNames index columnName) }

theorem widenRow_ok (hs : t.rowStore.Valid) (hcapt : capture.columnIndex = index)
    (hvalues : capture.heapValues =
      t.rowStore.liveEntries.map fun entry => (entry.1, entry.2.at index)) {i : ℕ} {row row₁ : Row}
    (hrow : t.rowStore.get i = some row) (hlt : index < row.length)
    (hnarrow : narrowRow index (i, row) = .ok row₁) : widenRow capture (i, row₁) = .ok row := by
  have hmem : (i, row.at index) ∈ capture.heapValues := by
    rw [hvalues]
    exact List.mem_map.mpr ⟨(i, row), (PageRowStore.mem_liveEntries hs _ _).mpr hrow, rfl⟩
  obtain ⟨value, hfind⟩ : ∃ value, capture.heapValues.find?
      (fun value : ℕ × Value => value.1 = i) = some value :=
    Option.isSome_iff_exists.mp (List.find?_isSome.mpr ⟨_, hmem, by simp⟩)
  have hlen : ¬row₁.length < capture.columnIndex := by
    rw [narrowRow_eq_ok hnarrow, List.length_eraseIdx_of_lt hlt, hcapt]
    omega
  have hwiden : widenRow capture (i, row₁) = .ok (row₁.insertIdx capture.columnIndex value.2) := by
    simp only [widenRow, hfind, if_neg hlen]
    rfl
  rw [hwiden, widenRow_narrowRow hs hcapt hvalues hrow hlt hnarrow hwiden]

theorem droppedColumn_eq (hidx : t.columnIndex columnName = some index)
    (hlt : index < t.schema.length) :
    t.droppedColumn index columnName = t.schema[index] ∧ t.schema[index].name = columnName := by
  obtain ⟨⟨found, hfound, hname⟩, -⟩ := findColumn_eq_some.mp hidx
  rw [List.getElem?_eq_getElem hlt, Option.some.injEq] at hfound
  refine ⟨?_, hfound ▸ hname⟩
  rw [droppedColumn, List.getD_eq_getElem?_getD, List.getElem?_eq_getElem hlt, Option.getD_some]

/-- The constraints of a multi-column table that go with the column and are not its flags. -/
theorem filter_uniquesOn
    (hmulti : ∀ constraint ∈ t.uniqueConstraints, 2 ≤ constraint.columns.length) (column : Column)
    (columnName : String) :
    ((t.uniquesOn column columnName).filter fun constraint => constraint.columns ≠ [columnName]) =
      t.uniqueConstraints.filter fun constraint =>
        uniqueReferencesColumn constraint columnName := by
  have hkept : ((t.uniqueConstraints.filter fun constraint =>
      uniqueReferencesColumn constraint columnName).filter
        fun constraint => constraint.columns ≠ [columnName]) =
      t.uniqueConstraints.filter fun constraint =>
        uniqueReferencesColumn constraint columnName := by
    refine List.filter_eq_self.mpr fun constraint hcon => decide_eq_true fun heq => ?_
    have hlen := hmulti constraint (List.mem_of_mem_filter hcon)
    rw [heq, List.length_singleton] at hlen
    omega
  simp only [uniquesOn]
  split_ifs
  · rw [List.filter_append, hkept, List.filter_cons_of_neg (by simp), List.filter_nil,
      List.append_nil]
  · exact hkept

/-- What `dropColumn` with CASCADE has done and captured. -/
structure Dropped (t t' : Table) (index : ℕ) (columnName : String)
    (capture : DroppedColumnCapture) :
    Prop where
  column : capture.column = t.droppedColumn index columnName
  columnIndex : capture.columnIndex = index
  cascaded : capture.cascaded = true
  userIndexes : capture.droppedUserIndexes = t.userIndexesOn columnName
  checks : capture.droppedChecks = t.checkConstraints.filter fun check =>
    checkReferencesColumn check columnName
  uniques : capture.droppedUniques = t.uniquesOn (t.droppedColumn index columnName) columnName
  foreignKeys : capture.droppedChildForeignKeys = t.foreignKeys.filter fun fk =>
    foreignKeyReferencesColumn fk columnName
  values : capture.heapValues = t.rowStore.liveEntries.map fun entry => (entry.1, entry.2.at index)
  rows : Rewritten (narrowRow index) t.rowStore t'.rowStore
  versions : t'.versions.insertColumn index capture.versionValues = .ok t.versions
  indexColumns : ∀ k, (t'.indexManager.insertColumn index).indexColumns[k]? =
    if k ∈ t.constraintIndexNames index columnName then none
    else if k ∈ (t.userIndexesOn columnName).map IndexDefinition.name then none
    else t.indexManager.indexColumns[k]?
  indexExpressions : ∀ k, (t'.indexManager.insertColumn index).indexExpressions[k]? =
    if k ∈ t.constraintIndexNames index columnName then none
    else if k ∈ (t.userIndexesOn columnName).map IndexDefinition.name then none
    else t.indexManager.indexExpressions[k]?
  rest : t' = { t with
    schema := t.schema.eraseIdx index
    rowStore := t'.rowStore
    versions := t'.versions
    indexManager := t'.indexManager
    checkConstraints :=
      t.checkConstraints.filter fun check => !checkReferencesColumn check columnName
    foreignKeys := t.foreignKeys.filter fun fk => !foreignKeyReferencesColumn fk columnName
    uniqueConstraints := t.uniqueConstraints.filter fun constraint =>
      !uniqueReferencesColumn constraint columnName }

theorem dropped_of_dropColumn (ht : t.Shaped) (hidx : t.columnIndex columnName = some index)
    (hdrop : dropColumn columnName database true t = .ok capture t') :
    Dropped t t' index columnName capture := by
  obtain ⟨index', column, dependents, t₁, hidx', hcol, hdeps, ht₁, s, values, versions, m, m',
    hrows, hextract, herase, hrebuild, rfl, rfl⟩ := dropColumn_eq_ok ht.rows.valid hdrop
  obtain rfl : index' = index := Option.mem_unique hidx' hidx
  obtain rfl : column = t.droppedColumn index' columnName := hcol
  rw [captureDependents_cascade] at hdeps
  obtain rfl := Except.ok.inj hdeps
  rw [if_pos rfl] at ht₁
  obtain ⟨hfree, rfl⟩ := eraseColumn_eq_ok herase
  have hfits₁ : t₁.indexManager.Fits t.schema := by
    rw [ht₁]
    exact fits_dropIndexes (fits_dropIndexes ht.fits _) _
  obtain ⟨-, hcols', hexpressions'⟩ := built_of_rebuildIndexes
    (hfits₁.withoutColumn hfree).toRegistered hrows.valid hrebuild
  have hcols₁ : (m'.insertColumn index').indexColumns = t₁.indexManager.indexColumns := by
    rw [← indexColumns_insertColumn_withoutColumn hfree, IndexManager.insertColumn,
      IndexManager.insertColumn, hcols']
  have hexprs₁ : (m'.insertColumn index').indexExpressions = t₁.indexManager.indexExpressions :=
    hexpressions'
  refine ⟨rfl, rfl, rfl, rfl, rfl, rfl, rfl, rfl, hrows,
    MvccRowStore.insertColumn_extractColumn hextract, fun k => ?_, fun k => ?_, ?_⟩
  · rw [hcols₁, ht₁, withoutDependents, (getElem?_dropIndexes _ _ _).1,
      (getElem?_dropIndexes _ _ _).1]
    rfl
  · rw [hexprs₁, ht₁, withoutDependents, (getElem?_dropIndexes _ _ _).2,
      (getElem?_dropIndexes _ _ _).2]
    rfl
  · rw [ht₁]
    rfl

variable (h : Dropped t t' index columnName capture)
include h

theorem Dropped.widenRow (ht : t.Shaped) (hlt : index < t.schema.length) {i : ℕ} {row₁ : Row}
    (hrow₁ : t'.rowStore.get i = some row₁) :
    ∃ row, t.rowStore.get i = some row ∧ Table.widenRow capture (i, row₁) = .ok row := by
  obtain ⟨row, hrow, hnarrow⟩ := h.rows.exists_of_get hrow₁
  exact ⟨row, hrow, widenRow_ok ht.rows.valid h.columnIndex h.values hrow
    (ht.rows.width i row hrow ▸ hlt) hnarrow⟩

theorem Dropped.insertIdx_schema (hidx : t.columnIndex columnName = some index) :
    t'.schema.insertIdx index capture.column = t.schema := by
  have hlt : index < t.schema.length := lt_length_of_findColumn hidx
  rw [h.rest, h.column, (droppedColumn_eq hidx hlt).1, List.insertIdx_eraseIdx_getElem hlt]

/-- The column is not found while it is gone when no other one has its name. -/
theorem Dropped.columnIndex_eq_none_iff (hidx : t.columnIndex columnName = some index) :
    t'.columnIndex capture.column.name = none ↔
      findColumn (t.schema.eraseIdx index) columnName = none := by
  have hlt : index < t.schema.length := lt_length_of_findColumn hidx
  obtain ⟨hdropped, hname⟩ := droppedColumn_eq hidx hlt
  rw [Table.columnIndex, h.rest, h.column, hdropped, hname]

/-- The user indexes come back under their names, which are not those of constraint indexes. -/
theorem Dropped.forM_restoreUserIndex (ht : t.Shaped) (ht' : t'.Current)
    (hidx : t.columnIndex columnName = some index)
    (halone : t'.columnIndex capture.column.name = none) (s : PageRowStore) :
    ∃ m, forM capture.droppedUserIndexes restoreUserIndex { t.regrouped index columnName with
          rowStore := s
          indexManager := t'.indexManager.insertColumn index } =
        .ok ⟨⟩ { t.regrouped index columnName with rowStore := s, indexManager := m } ∧
      ({ t.regrouped index columnName with rowStore := s, indexManager := m } : Table).Indexing
        false ∧
      m.indexColumns = (t.regrouped index columnName).indexManager.indexColumns ∧
      m.indexExpressions = (t.regrouped index columnName).indexManager.indexExpressions := by
  have hfits : (t'.indexManager.insertColumn index).Fits t.schema := by
    have hinsert := ht'.fits.insertColumn index halone
    rwa [h.insertIdx_schema hidx] at hinsert
  obtain ⟨m, hrun, hm, hget⟩ := forM_restoreUserIndex_ok ht.fits hidx
    (fun definition hdef => hdef) (nodup_userIndexesOn t columnName)
    (a := { t.regrouped index columnName with
      rowStore := s
      indexManager := t'.indexManager.insertColumn index }) rfl
    ⟨hfits.toRegistered, fun h => Bool.noConfusion h, fun _ => hfits.mem_indexColumns⟩
    fun definition hdef => by
      rw [mem_iff_isSome_getElem?, h.indexColumns, if_pos (List.mem_map_of_mem hdef), ite_self]
      exact Bool.false_ne_true
  have hreserved : ∀ k ∈ (t.userIndexesOn columnName).map IndexDefinition.name,
      k ∉ t.constraintIndexNames index columnName := by
    intro k hk hcon
    obtain ⟨constraint, -, rfl⟩ := List.mem_map.mp hcon
    have hfalse := ((mem_userIndexesOn_iff ht.fits hidx).mp hk).1
    rw [reservedName_constraintIndexName] at hfalse
    cases hfalse
  have hkept : ∀ {α : Type} (k : String) (o : Option α),
      (if k ∈ (t.userIndexesOn columnName).map IndexDefinition.name then o
        else if k ∈ t.constraintIndexNames index columnName then none
        else if k ∈ (t.userIndexesOn columnName).map IndexDefinition.name then none else o) =
      if k ∈ t.constraintIndexNames index columnName then none else o := by
    intro α k o
    by_cases hk : k ∈ (t.userIndexesOn columnName).map IndexDefinition.name
    · simp [hk, hreserved k hk]
    · simp [hk]
  refine ⟨m, by rw [h.userIndexes, hrun], hm, ext_getElem? fun k => ?_, ext_getElem? fun k => ?_⟩
  · rw [(hget k).1, h.indexColumns, hkept, regrouped, (getElem?_dropIndexes _ _ _).1]
  · rw [(hget k).2, h.indexExpressions, hkept, regrouped, (getElem?_dropIndexes _ _ _).2]

/-- `restoreDroppedColumn` up to the loop over the constraints: the column and the user indexes on
it are back. -/
theorem Dropped.restoreDroppedColumn_run (ht : t.Shaped) (ht' : t'.Current)
    (hmulti : ∀ constraint ∈ t.uniqueConstraints, 2 ≤ constraint.columns.length)
    (hidx : t.columnIndex columnName = some index)
    (halone : t'.columnIndex capture.column.name = none) :
    ∃ s m, s.Valid ∧ s.get = t.rowStore.get ∧
      m.indexColumns = (t.regrouped index columnName).indexManager.indexColumns ∧
      m.indexExpressions = (t.regrouped index columnName).indexManager.indexExpressions ∧
      ({ t.regrouped index columnName with rowStore := s, indexManager := m } : Table).Indexing
        false ∧
      restoreDroppedColumn capture t' =
        (forM (t.regrouped index columnName).allUniqueConstraints
          (ensureConstraintIndex "failed to restore constraint index " false) >>= fun _ =>
            rebuildIndexes)
          { t.regrouped index columnName with rowStore := s, indexManager := m } := by
  have hlt : index < t.schema.length := lt_length_of_findColumn hidx
  have hback := h.insertIdx_schema hidx
  obtain ⟨s, hrewrite, hs⟩ := rewriteRows_ok (t := { t' with
    schema := t.schema
    versions := t.versions
    indexManager := t'.indexManager.insertColumn index })
    "failed to restore row during DROP COLUMN undo" h.rows.valid
    fun i row₁ hrow₁ => (h.widenRow ht hlt hrow₁).imp fun _ h => h.2
  have hrows : s.get = t.rowStore.get := by
    refine h.rows.back rfl hs fun i row row₁ row₂ hrow hnarrow hok => ?_
    have hwiden := widenRow_ok ht.rows.valid h.columnIndex h.values hrow
      (ht.rows.width i row hrow ▸ hlt) hnarrow
    exact Except.ok.inj (hok.symm.trans hwiden)
  obtain ⟨m, huser, hm, hcols, hexpressions⟩ := h.forM_restoreUserIndex ht ht' hidx halone s
  refine ⟨s, m, hs.valid, hrows, hcols, hexpressions, hm, ?_⟩
  have hrange : ¬t'.schema.length < index := by
    rw [h.rest, List.length_eraseIdx_of_lt hlt]
    omega
  have hmissing : ¬(t'.columnIndex capture.column.name).isSome = true := by
    rw [halone]
    exact Bool.false_ne_true
  simp only [restoreDroppedColumn, get_bind, ite_run, throw_bind, h.columnIndex, if_neg hrange,
    if_neg hmissing, set_bind, h.versions, ofExcept_ok_bind, modify_bind, hback]
  rw [bind_of_ok hrewrite, h.cascaded, if_pos rfl, restoreDependents]
  have hname : capture.column.name = columnName := by
    rw [h.column, (droppedColumn_eq hidx hlt).1, (droppedColumn_eq hidx hlt).2]
  -- the constraints that went with the column stand behind the others
  have hstate : ({ t' with
      schema := t.schema
      versions := t.versions
      indexManager := t'.indexManager.insertColumn index
      rowStore := s
      checkConstraints := t'.checkConstraints ++ capture.droppedChecks
      foreignKeys := t'.foreignKeys ++ capture.droppedChildForeignKeys
      uniqueConstraints := t'.uniqueConstraints ++ capture.droppedUniques.filter fun constraint =>
        constraint.columns ≠ [capture.column.name] } : Table) =
      { t.regrouped index columnName with
        rowStore := s
        indexManager := t'.indexManager.insertColumn index } := by
    rw [hname, h.uniques, filter_uniquesOn hmulti, h.checks, h.foreignKeys, h.rest]
    rfl
  rw [bind_assoc, modify_bind, bind_assoc, hstate, bind_of_ok huser, bind_assoc, get_bind]
  rfl

end Run

/-! ### The indexes of the constraints -/

section Constraints

variable {a a' : Table} {index : ℕ} {columnName : String}

/-- What the loop over the constraints keeps: the table but for its indexes, their expressions, and
which rows have keys. -/
structure Ensured (a a' : Table) : Prop where
  change : IndexChange a a'
  fits : a'.indexManager.Fits a.schema
  expressions : a'.indexManager.indexExpressions = a.indexManager.indexExpressions
  indexable : ∀ row, a'.indexManager.Indexable row a.schema ↔ a.indexManager.Indexable row a.schema

variable {constraint : UniqueConstraint}

theorem ensureConstraintIndex_eq_ok {u : Unit}
    (h : ensureConstraintIndex context false constraint a = .ok u a') :
    a' = a ∨ ∃ positions, constraint.columns.mapM a.columnIndex = some positions ∧
      constraintIndexName constraint ∉ a.indexManager.indexColumns ∧
      a' = { a with
        indexManager :=
          a.indexManager.withIndex (constraintIndexName constraint) positions none } := by
  simp only [ensureConstraintIndex, get_bind, ite_run] at h
  split_ifs at h
  · exact Or.inl (pure_eq_ok.mp h).2.symm
  rcases hpos : constraint.columns.mapM a.columnIndex with _ | positions
  · rw [hpos] at h
    exact (throw_eq_ok.mp h).elim
  · rw [hpos] at h
    obtain ⟨m, hm, rfl⟩ := onIndexes_eq_ok.mp (ifFalse_throw_eq_ok h)
    rcases registerIndex_eq_ok hm with ⟨hfalse, -⟩ | ⟨-, hname, rfl⟩
    · cases hfalse
    · exact Or.inr ⟨positions, rfl, hname, rfl⟩

theorem Ensured.ensureConstraintIndex {a₀ : Table} (ha : Ensured a₀ a)
    (hnamed : a₀.Named constraint) {u : Unit}
    (h : ensureConstraintIndex context false constraint a = .ok u a') : Ensured a₀ a' := by
  rcases ensureConstraintIndex_eq_ok h with rfl | ⟨positions, hpos, hname, rfl⟩
  · exact ha
  obtain ⟨⟨m, rfl⟩, hfits, hexpressions, hidxable⟩ := ha
  obtain ⟨positions', hpos', hnil, -⟩ := hnamed.exists_indexes
  obtain rfl : positions' = positions := Option.mem_unique hpos' hpos
  have hfits' : (m.withIndex (constraintIndexName constraint) positions' none).Fits a₀.schema :=
    hfits.withIndex hname (exists_findColumn_of_mapM hpos) (by simp)
  exact ⟨⟨_, rfl⟩, hfits', hexpressions, fun row => Iff.trans
    ⟨indexable_of_withIndex hname, fun h => h.insert rfl rfl
      (fun h => hname (hfits.mem_indexColumns h)) hnil⟩ (hidxable row)⟩

private theorem mem_filter_append_filter {α : Type} {p : α → Bool} {l : List α} {b : α} :
    b ∈ (l.filter fun b => !p b) ++ l.filter p ↔ b ∈ l := by
  rw [List.mem_append, List.mem_filter, List.mem_filter, ← and_or_left]
  cases p b <;> simp

theorem mem_allUniqueConstraints_congr (hschema : a'.schema = a.schema)
    (huniques : ∀ constraint, constraint ∈ a'.uniqueConstraints ↔ constraint ∈ a.uniqueConstraints)
    (key : UniqueConstraint) : key ∈ a'.allUniqueConstraints ↔ key ∈ a.allUniqueConstraints := by
  have hcovered : ∀ column : Column, (a'.uniqueConstraints.any fun c => c.columns = [column.name]) =
      a.uniqueConstraints.any fun c => c.columns = [column.name] := by
    intro column
    rw [Bool.eq_iff_iff, List.any_eq_true, List.any_eq_true]
    simp only [huniques]
  simp only [allUniqueConstraints, List.mem_append, huniques, hschema, hcovered]

theorem mem_allUniqueConstraints_regrouped {key : UniqueConstraint} :
    key ∈ (t.regrouped index columnName).allUniqueConstraints ↔ key ∈ t.allUniqueConstraints := by
  have hschema : (t.regrouped index columnName).schema = t.schema := rfl
  have huniques : ∀ constraint, constraint ∈ (t.regrouped index columnName).uniqueConstraints ↔
      constraint ∈ t.uniqueConstraints := fun _ => mem_filter_append_filter
  exact mem_allUniqueConstraints_congr hschema huniques key

theorem hasIndex_congr {m' : IndexManager} (hcols : m'.indexColumns = m.indexColumns)
    (hexpressions : m'.indexExpressions = m.indexExpressions) (columns : List String)
    (schema : List Column) : m'.hasIndex columns schema = m.hasIndex columns schema := by
  rw [hasIndex, hasIndex, columnIndexName, columnIndexName, hcols, hexpressions]

theorem FreshNames.congr {constraints : List UniqueConstraint} (h : a.FreshNames constraints)
    (hschema : a'.schema = a.schema)
    (hcols : a'.indexManager.indexColumns = a.indexManager.indexColumns)
    (hexpressions : a'.indexManager.indexExpressions = a.indexManager.indexExpressions) :
    a'.FreshNames constraints := by
  have hnew : a'.newIndexes constraints = a.newIndexes constraints := by
    simp only [newIndexes, hschema, hasIndex_congr hcols hexpressions]
  exact ⟨hnew ▸ h.nodup, fun c hc => hcols ▸ h.free c (hnew ▸ hc)⟩

theorem Shaped.named_all (ht : t.Shaped) (h : constraint ∈ t.allUniqueConstraints) :
    t.Named constraint := by
  rcases mem_allUniqueConstraints h with hmem | ⟨column, hcol, -, hcols⟩
  · exact ht.named constraint hmem
  · rw [Named, hcols]
    refine ⟨by simp, fun name hname => ?_⟩
    rw [List.mem_singleton.mp hname]
    exact columnIndex_isSome.mpr (List.mem_map_of_mem hcol)

end Constraints

/-! ### The table afterwards -/

section Restored

variable {index : ℕ} {columnName : String} {database : Option Database}
  {capture : DroppedColumnCapture}

/-- The table `t''` has the contents of `t`: its schema, rows, versions and constraints, and the
answers of its lookups. -/
structure Restored (t t'' : Table) : Prop where
  schema : t''.schema = t.schema
  rows : t''.rowStore.get = t.rowStore.get
  versions : t''.versions = t.versions
  checks : ∀ check, check ∈ t''.checkConstraints ↔ check ∈ t.checkConstraints
  uniques : ∀ constraint, constraint ∈ t''.uniqueConstraints ↔ constraint ∈ t.uniqueConstraints
  foreignKeys : ∀ fk, fk ∈ t''.foreignKeys ↔ fk ∈ t.foreignKeys
  lookups : SameLookups t t''

/-- No other column has the name, every constraint has an index on its columns, the lookups that an
index answers are answered without the indexes named after the constraints on the column or are on
the columns of a constraint, the names for new constraint indexes are free then, and every live row
has a key in the indexes that stay. -/
structure Recoverable (t : Table) (index : ℕ) (columnName : String) : Prop where
  alone : findColumn (t.schema.eraseIdx index) columnName = none
  indexed : ∀ constraint ∈ t.allUniqueConstraints,
    t.indexManager.hasIndex constraint.columns t.schema = true
  columns : ∀ columns, t.indexManager.hasIndex columns t.schema = true →
    (t.regrouped index columnName).indexManager.hasIndex columns t.schema = true ∨
      ∃ constraint ∈ t.allUniqueConstraints, constraint.columns = columns
  expressions : ∀ expression, t.indexManager.hasExpressionIndex expression = true →
    (t.regrouped index columnName).indexManager.hasExpressionIndex expression = true
  fresh : (t.regrouped index columnName).FreshNames
    (t.regrouped index columnName).allUniqueConstraints
  keys : ∀ i row, t.rowStore.get i = some row → (t.regrouped index columnName).Indexable row

theorem hasIndex_of_regrouped
    (h : (t.regrouped index columnName).indexManager.hasIndex columns t.schema = true) :
    t.indexManager.hasIndex columns t.schema = true := by
  obtain ⟨name, positions, hget, hplain, hnames⟩ := hasIndex_eq_true.mp h
  obtain ⟨hcols, hexpressions⟩ := getElem?_dropIndexes t.indexManager
    (t.constraintIndexNames index columnName) name
  rw [regrouped, hcols] at hget
  split_ifs at hget with hname
  rw [if_neg hname] at hexpressions
  rw [regrouped, mem_iff_isSome_getElem?, hexpressions, ← mem_iff_isSome_getElem?] at hplain
  exact hasIndex_eq_true.mpr ⟨name, positions, hget, hplain, hnames⟩

theorem hasExpressionIndex_eq_true :
    m.hasExpressionIndex expression = true ↔
      ∃ (name : String) (e : IndexExpression), m.indexExpressions[name]? = some e ∧
        e.beq expression = true := by
  rw [hasExpressionIndex, expressionIndexName, Option.isSome_map, List.find?_isSome]
  simp only [Prod.exists, mem_toList_iff_getElem?_eq_some]

theorem hasExpressionIndex_of_regrouped
    (h : (t.regrouped index columnName).indexManager.hasExpressionIndex expression = true) :
    t.indexManager.hasExpressionIndex expression = true := by
  obtain ⟨name, e, hget, hbeq⟩ := hasExpressionIndex_eq_true.mp h
  rw [regrouped, (getElem?_dropIndexes _ _ _).2] at hget
  split_ifs at hget
  exact hasExpressionIndex_eq_true.mpr ⟨name, e, hget, hbeq⟩

/-- A lookup of both tables that is answered by one of them is answered by the other. -/
theorem SameLookups.hasIndex_eq (h : SameLookups t t'') (columns : List String) :
    t.indexManager.hasIndex columns t.schema = t''.indexManager.hasIndex columns t''.schema := by
  have hsome := (h.indexedLookup columns .null).isSome_eq
  rwa [IndexManager.indexedLookup, IndexManager.indexedLookup, Option.isSome_map,
    Option.isSome_map] at hsome

theorem SameLookups.hasExpressionIndex_eq (h : SameLookups t t'') (expression : IndexExpression) :
    t.indexManager.hasExpressionIndex expression = t''.indexManager.hasExpressionIndex
      expression := by
  have hsome := (h.expressionLookup expression .null).isSome_eq
  rwa [IndexManager.expressionLookup, IndexManager.expressionLookup, Option.isSome_map,
    Option.isSome_map] at hsome

/-- What the loop over the constraints of the regrouped table leaves, once it returns. -/
theorem ensured_regrouped (ht : t.Shaped) {s : PageRowStore}
    (hcols : m.indexColumns = (t.regrouped index columnName).indexManager.indexColumns)
    (hexpressions :
    m.indexExpressions = (t.regrouped index columnName).indexManager.indexExpressions)
    (hm : ({ t.regrouped index columnName with rowStore := s, indexManager := m } : Table).Indexing
    false)
    {u : PUnit} {a : Table}
    (h : forM (t.regrouped index columnName).allUniqueConstraints
    (ensureConstraintIndex context false)
      { t.regrouped index columnName with rowStore := s, indexManager := m } = .ok u a) :
    Ensured { t.regrouped index columnName with rowStore := s, indexManager := m } a ∧
      (t.regrouped index columnName).FreshNames
        (t.regrouped index columnName).allUniqueConstraints ∧
      (∀ columns, a.indexManager.hasIndex columns t.schema = true ↔
        (t.regrouped index columnName).indexManager.hasIndex columns t.schema = true ∨
          ∃ constraint ∈ t.allUniqueConstraints, constraint.columns = columns) ∧
      ∀ row, a.indexManager.Indexable row t.schema ↔
        (t.regrouped index columnName).Indexable row := by
  have hnamed : ∀ constraint ∈ (t.regrouped index columnName).allUniqueConstraints,
      ({ t.regrouped index columnName with rowStore := s, indexManager := m } : Table).Named
        constraint :=
    fun constraint hcon => ht.named_all (mem_allUniqueConstraints_regrouped.mp hcon)
  obtain ⟨hfresh, m', rfl, hhas⟩ := FreshNames.of_forM hm hnamed h
  have hensured := forM_ok_induction (fun constraint hcon _ _ _ ha hstep =>
    Ensured.ensureConstraintIndex ha (hnamed constraint hcon) hstep)
    ⟨.refl _, (fits_dropIndexes ht.fits _).congr hm.registered hcols hexpressions, rfl,
      fun _ => Iff.rfl⟩ h
  refine ⟨hensured, hfresh.congr rfl hcols.symm hexpressions.symm, fun columns => ?_, fun row =>
    (hensured.indexable row).trans ?_⟩
  · have hcongr := hasIndex_congr hcols hexpressions columns t.schema
    rw [← hcongr]
    refine (hhas columns).trans
      (or_congr Iff.rfl (exists_congr fun constraint => and_congr_left fun _ => ?_))
    exact mem_allUniqueConstraints_regrouped
  · simp only [Table.Indexable, IndexManager.Indexable, hcols,
      indexKeyForRow_congr hcols hexpressions]

/-- The keys of indexes that the table had as well are no NaNs when those of the table are not. -/
theorem orderedKeys_of (ht : t.Current) (hkeys : t.indexManager.OrderedKeys t.rowStore t.schema)
    (ht'' : t''.Current) (hschema : t''.schema = t.schema)
    (hrows : t''.rowStore.get = t.rowStore.get)
    (hcols : ∀ columns, t.indexManager.hasIndex columns t.schema =
      t''.indexManager.hasIndex columns t''.schema)
    (hexpressions : ∀ (name : String) e, t''.indexManager.indexExpressions[name]? = some e →
      t.indexManager.indexExpressions[name]? = some e) :
    t''.indexManager.OrderedKeys t''.rowStore t''.schema := by
  intro name i hname r row k hrow hk
  rw [hrows] at hrow
  rw [hschema] at hk
  rcases he : t''.indexManager.indexExpressions[name]? with _ | e
  · -- an index on one column: the table had one on it, with the same keys
    have hplain : name ∉ t''.indexManager.indexExpressions := by
      rw [mem_iff_isSome_getElem?, he]
      exact Bool.false_ne_true
    have hhas : t''.indexManager.hasIndex [VertexDB.columnName t''.schema i] t''.schema = true :=
      hasIndex_eq_true.mpr ⟨name, [i], hname, hplain, rfl⟩
    rw [← hcols] at hhas
    obtain ⟨name', hname'⟩ := Option.isSome_iff_exists.mp hhas
    obtain ⟨positions, hpos, hget, -, hkey⟩ := ht.columnIndexName hname'
    obtain rfl : positions = [i] := by
      have hfind := ht''.fits.positions name [i] hname i (List.mem_singleton_self i)
      rw [hschema] at hfind hpos
      simp only [List.mapM_cons, hfind, List.mapM_nil] at hpos
      exact (Option.some.inj hpos).symm
    refine hkeys name' i hget r row k hrow ?_
    rw [hkey, ← hk, indexKeyForRow, he, hname, Option.getD_some]
  · have he' := hexpressions name e he
    obtain ⟨j, hj, -⟩ := ht.fits.expressions name e he'
    refine hkeys name j hj r row k hrow ?_
    rw [indexKeyForRow, he']
    rw [indexKeyForRow, he] at hk
    exact hk

/-- What a restore that returns leaves: the table but for its indexes, those that stay with the ones
for the constraints, and their expressions. -/
theorem Dropped.of_restoreDroppedColumn (h : Dropped t t' index columnName capture) (ht : t.Shaped)
    (ht' : t'.Current) (hmulti : ∀ constraint ∈ t.uniqueConstraints, 2 ≤ constraint.columns.length)
    (hidx : t.columnIndex columnName = some index)
    (hrestore : restoreDroppedColumn capture t' = .ok ⟨⟩ t'') :
    (t''.rowStore.get = t.rowStore.get ∧
      t'' = { t.regrouped index columnName with
        rowStore := t''.rowStore
        indexManager := t''.indexManager }) ∧
      (t.regrouped index columnName).FreshNames
        (t.regrouped index columnName).allUniqueConstraints ∧
      (∀ columns, t''.indexManager.hasIndex columns t.schema = true ↔
        (t.regrouped index columnName).indexManager.hasIndex columns t.schema = true ∨
          ∃ constraint ∈ t.allUniqueConstraints, constraint.columns = columns) ∧
      t''.indexManager.indexExpressions =
        (t.regrouped index columnName).indexManager.indexExpressions ∧
      ∀ i row, t.rowStore.get i = some row → (t.regrouped index columnName).Indexable row := by
  obtain ⟨-, hnew, -⟩ := restoreDroppedColumn_eq_ok ht'.rows.valid hrestore
  obtain ⟨s, m, hs, hrows, hcols, hexpressions, hm, hrun⟩ :=
    h.restoreDroppedColumn_run ht ht' hmulti hidx hnew
  rw [hrun] at hrestore
  obtain ⟨_, a, hloop, hrebuild⟩ := bind_eq_ok.mp hrestore
  obtain ⟨hensured, hfresh, hhas, hkeys⟩ := ensured_regrouped ht hcols hexpressions hm hloop
  obtain ⟨m'', hm'', rfl⟩ := onIndexes_eq_ok.mp hrebuild
  obtain ⟨⟨mₐ, rfl⟩, hfits, hkept, -⟩ := hensured
  obtain ⟨hbuilt, hcols'', hexpressions''⟩ := built_of_rebuildIndexes hfits.toRegistered hs hm''
  refine ⟨⟨hrows, rfl⟩, hfresh, fun columns => ?_, hexpressions''.trans (hkept.trans hexpressions),
    fun i row hrow => (hkeys row).mp fun name hname => ?_⟩
  · rw [hasIndex_congr hcols'' hexpressions'']
    exact hhas columns
  · rw [← indexKeyForRow_congr hcols'' hexpressions'']
    exact hbuilt.indexable i row (hrows ▸ hrow) name (hcols'' ▸ hname)

/-- The restore returns when the names for the constraint indexes are fresh and the rows have keys
in the indexes that stay. -/
theorem Dropped.restoreDroppedColumn_returns (h : Dropped t t' index columnName capture)
    (ht : t.Shaped)
    (ht' : t'.Current) (hmulti : ∀ constraint ∈ t.uniqueConstraints, 2 ≤ constraint.columns.length)
    (hidx : t.columnIndex columnName = some index)
    (hnew : t'.columnIndex capture.column.name = none)
    (hfresh : (t.regrouped index columnName).FreshNames
      (t.regrouped index columnName).allUniqueConstraints)
    (hkeys : ∀ i row, t.rowStore.get i = some row → (t.regrouped index columnName).Indexable row) :
    ∃ t'', restoreDroppedColumn capture t' = .ok ⟨⟩ t'' := by
  obtain ⟨s, m, hs, hrows, hcols, hexpressions, hm, hrun⟩ :=
    h.restoreDroppedColumn_run ht ht' hmulti hidx hnew
  have hfresh' :
    ({ t.regrouped index columnName with rowStore := s, indexManager := m } : Table).FreshNames
      (t.regrouped index columnName).allUniqueConstraints := hfresh.congr rfl hcols hexpressions
  obtain ⟨a, hloop⟩ := hfresh'.returns hm "failed to restore constraint index "
    fun constraint hcon => ht.named_all (mem_allUniqueConstraints_regrouped.mp hcon)
  obtain ⟨⟨⟨mₐ, rfl⟩, hfits, -, -⟩, -, -, hkept⟩ := ensured_regrouped ht hcols hexpressions hm hloop
  have hrebuild := IndexManager.rebuildIndexes_ok hfits.toRegistered fun i row hrow =>
    (hkept row).mpr (hkeys i row (hrows ▸ hrow))
  rw [hrun, bind_of_ok hloop]
  exact ⟨_, onIndexes_eq_ok.mpr ⟨_, hrebuild, rfl⟩⟩

theorem hasExpressionIndex_congr {m' : IndexManager}
    (hexpressions : m'.indexExpressions = m.indexExpressions) (expression : IndexExpression) :
    m'.hasExpressionIndex expression = m.hasExpressionIndex expression := by
  rw [hasExpressionIndex, hasExpressionIndex, expressionIndexName,
    expressionIndexName, hexpressions]

/-- Dropping a column with CASCADE and restoring it gives back the table only when the column was
recoverable, and does so when the indexes answered for the rows before and no key is a NaN: the
restore builds all indexes anew, and what an ordered store with a NaN finds depends on the order of
the insertions. -/
theorem restoreDroppedColumn_restores (t : Table) (ht : t.Shaped)
    (hmulti : ∀ constraint ∈ t.uniqueConstraints, 2 ≤ constraint.columns.length)
    (columnName : String)
    (database : Option Database) (capture : DroppedColumnCapture) (t' : Table)
    (hdrop : dropColumn columnName database true t = .ok capture t') (index : ℕ)
    (hidx : t.columnIndex columnName = some index) :
    ((∃ t'', restoreDroppedColumn capture t' = .ok ⟨⟩ t'' ∧ Restored t t'') →
        t.Recoverable index columnName) ∧
      (t.Recoverable index columnName → t.Current → t.indexManager.OrderedKeys t.rowStore t.schema →
        ∃ t'', restoreDroppedColumn capture t' = .ok ⟨⟩ t'' ∧ Restored t t'') := by
  have ht' := current_of_dropColumn ht.rows ht.fits hdrop
  have hdropped := dropped_of_dropColumn ht hidx hdrop
  have halone := hdropped.columnIndex_eq_none_iff hidx
  constructor
  · rintro ⟨t'', hrestore, hrestored⟩
    obtain ⟨-, hnew, -⟩ := restoreDroppedColumn_eq_ok ht'.rows.valid hrestore
    obtain ⟨-, hfresh, hhas, hexpressions, hkeys⟩ :=
      hdropped.of_restoreDroppedColumn ht ht' hmulti hidx hrestore
    have hsame := hrestored.lookups.hasIndex_eq
    rw [hrestored.schema] at hsame
    refine ⟨halone.mp hnew, fun constraint hcon => ?_, fun columns hcols => ?_,
      fun expression hexpr => ?_, hfresh, hkeys⟩
    · rw [hsame]
      exact (hhas _).mpr (Or.inr ⟨constraint, hcon, rfl⟩)
    · exact (hhas columns).mp (hsame columns ▸ hcols)
    · rw [hrestored.lookups.hasExpressionIndex_eq, hasExpressionIndex_congr hexpressions] at hexpr
      exact hexpr
  · intro hrecov hcurrent hkeys
    obtain ⟨t'', hrestore⟩ := hdropped.restoreDroppedColumn_returns ht ht' hmulti hidx
      (halone.mpr hrecov.alone) hrecov.fresh hrecov.keys
    obtain ⟨⟨hrows, hrest⟩, -, hhas, hexpressions, -⟩ :=
      hdropped.of_restoreDroppedColumn ht ht' hmulti hidx hrestore
    have ht'' := ht'.restoreDroppedColumn hrestore
    have hschema : t''.schema = t.schema := by rw [hrest]; rfl
    have hcols : ∀ columns, t.indexManager.hasIndex columns t.schema =
        t''.indexManager.hasIndex columns t''.schema := by
      intro columns
      rw [hschema, Bool.eq_iff_iff, hhas]
      refine ⟨hrecov.columns columns, ?_⟩
      rintro (hstays | ⟨constraint, hcon, rfl⟩)
      · exact hasIndex_of_regrouped hstays
      · exact hrecov.indexed constraint hcon
    have hsame : ∀ expression, t.indexManager.hasExpressionIndex expression =
        t''.indexManager.hasExpressionIndex expression := by
      intro expression
      rw [hasExpressionIndex_congr hexpressions, Bool.eq_iff_iff]
      exact ⟨hrecov.expressions expression, hasExpressionIndex_of_regrouped⟩
    have hkeys'' := orderedKeys_of hcurrent hkeys ht'' hschema hrows hcols fun name e he => by
      rw [hexpressions, regrouped, (getElem?_dropIndexes _ _ _).2] at he
      split_ifs at he
      exact he
    refine ⟨t'', hrestore, hschema, hrows, by rw [hrest]; rfl, fun check => ?_,
      fun constraint => ?_,
      fun fk => ?_, sameLookups_of hcurrent ht'' hschema hrows hkeys hkeys'' hcols hsame⟩
    · rw [hrest]
      exact mem_filter_append_filter
    · rw [hrest]
      exact mem_filter_append_filter
    · rw [hrest]
      exact mem_filter_append_filter

end Restored

section Example

/-- A table with the key `(a, b)`. -/
def pairTable : Table where
  name := "t"
  schema :=
    [{ name := "a", type := .int }, { name := "b", type := .int }, { name := "c", type := .int }]
  uniqueConstraints := [{ columns := ["a", "b"], primaryKey := false }]

/-- The table gets its constraint index, an index on `c` and a row. -/
def pairOps : List TableOp :=
  [.ensureConstraintIndexes, .createIndex "i" ["c"], .insert [.int 1, .int 2, .int 3] 0]

/-- The column `b` is dropped with the key and comes back with it. -/
theorem restoreDroppedColumn_pair : ∃ t, forM pairOps TableOp.perform pairTable = .ok ⟨⟩ t ∧
    ∃ capture t' t'', dropColumn "b" none true t = .ok capture t' ∧
      restoreDroppedColumn capture t' = .ok ⟨⟩ t'' ∧ Restored t t'' := by
  have hret : Returns (forM pairOps TableOp.perform) pairTable fun _ t =>
      t.schema = pairTable.schema ∧ t.uniqueConstraints = pairTable.uniqueConstraints ∧
      (∀ entry ∈ t.rowStore.liveEntries, ∀ value ∈ entry.2, value.IsOrdered) ∧
      t.indexManager.indexColumns.toList = [("__uq_a_b", [0, 1]), ("i", [2])] ∧
      t.indexManager.indexExpressions.isEmpty = true ∧
      (∀ constraint ∈ t.allUniqueConstraints,
        t.indexManager.hasIndex constraint.columns t.schema = true) ∧
      (t.regrouped 1 "b").indexManager.hasIndex ["c"] t.schema = true ∧
      (((t.regrouped 1 "b").newIndexes (t.regrouped 1 "b").allUniqueConstraints).map
        constraintIndexName).Nodup ∧
      (∀ c ∈ (t.regrouped 1 "b").newIndexes (t.regrouped 1 "b").allUniqueConstraints,
        constraintIndexName c ∉ (t.regrouped 1 "b").indexManager.indexColumns) ∧
      Returns (dropColumn "b" none true) t fun _ _ => True := by
    decide +kernel
  obtain ⟨_, t, hrun, hschema, huniques, hcells, hcols, hempty, hindexed, hstays, hnodup, hfree,
    capture, t', hdrop, -⟩ := hret
  have hnew : construct "t" pairTable.schema [] [] pairTable.uniqueConstraints = .ok pairTable :=
    rfl
  have ht := (reached_of_run (by decide) hrun).shaped hnew
  have hcurrent := current_of_run hnew hrun
  have hget : ∀ (name : String) positions, t.indexManager.indexColumns[name]? = some positions →
      positions = [0, 1] ∨ positions = [2] := by
    intro name positions hname
    rw [← mem_toList_iff_getElem?_eq_some, hcols] at hname
    simp only [List.mem_cons, Prod.mk.injEq, List.not_mem_nil, or_false] at hname
    exact hname.imp And.right And.right
  have hplain := isEmpty_iff.mp hempty
  have hrecov : t.Recoverable 1 "b" := by
    refine ⟨by rw [hschema]; decide, hindexed, fun columns hhas => ?_, fun expression hhas => ?_,
      ⟨hnodup, hfree⟩, fun i row hrow => (indexable_dropIndexes_iff _).mpr fun name hname _ =>
        hcurrent.built.indexable i row hrow name hname⟩
    · obtain ⟨name, positions, hname, -, rfl⟩ := hasIndex_eq_true.mp hhas
      rcases hget name positions hname with rfl | rfl
      · refine Or.inr ⟨{ columns := ["a", "b"], primaryKey := false },
          List.mem_append_left _ ?_, ?_⟩
        · rw [huniques]
          decide
        · rw [hschema]
          decide
      · refine Or.inl ?_
        have hname : [2].map (VertexDB.columnName t.schema) = ["c"] := by
          rw [hschema]
          decide
        rwa [hname]
    · obtain ⟨name, e, he, -⟩ := hasExpressionIndex_eq_true.mp hhas
      simp [hplain] at he
  have hkeys : t.indexManager.OrderedKeys t.rowStore t.schema :=
    orderedKeys_of_liveEntries ht.rows.valid hplain hcells
  obtain ⟨t'', hrestore, hrestored⟩ :=
    (restoreDroppedColumn_restores t ht (by rw [huniques]; decide) "b"
    none capture t' hdrop 1 (by rw [columnIndex, hschema]; decide)).2 hrecov hcurrent hkeys
  exact ⟨t, hrun, capture, t', t'', hdrop, hrestore, hrestored⟩

/-- With two columns of one name the restore throws. When the index of a key has been dropped, a
lookup on its columns is answered after the restore that was not answered before. -/
theorem not_restored_of_dropColumn :
    construct "t" (uniqueTable "a" "a" []).schema [] [] [] = .ok (uniqueTable "a" "a" []) ∧
    construct "t" pairTable.schema [] [] pairTable.uniqueConstraints = .ok pairTable ∧
    (Returns (dropColumn "a" none true) (uniqueTable "a" "a" []) fun capture t' =>
      Throws (restoreDroppedColumn capture) t' fun e _ =>
        e = .runtimeError "ALTER DROP COLUMN undo column already exists") ∧
    Returns (forM [TableOp.ensureConstraintIndexes, .dropIndex "__uq_a_b"] TableOp.perform)
      pairTable
      fun _ t => t.indexManager.indexedLookup ["a", "b"] .null t.schema = none ∧
        Returns (dropColumn "b" none true) t fun capture t' =>
          Returns (restoreDroppedColumn capture) t' fun _ t'' =>
            t''.indexManager.indexedLookup ["a", "b"] .null t''.schema = some [] := by
  refine ⟨rfl, rfl, ?_⟩
  decide +kernel

end Example

end Table

end VertexDB
