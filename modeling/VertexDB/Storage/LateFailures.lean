import VertexDB.Storage.ConstraintIndexes
import VertexDB.Storage.FailedCalls

/-!
# Schema changes that throw late

`Table::dropColumn` and `Table::renameColumn` check their arguments first and then change the table
step by step. Three steps can still throw. `dropColumn` takes every index whose name starts with
`__pk_` or `__uq_` for the index of a constraint, so a user index of such a name on the column is
neither refused nor dropped, and the loop over the positions of the indexes finds it when the rows
and the schema have lost the column. `renameColumn` registers the indexes of the constraints under
their new names at its end, and such a name may be in use. Both rebuild the indexes, and a row may
have no key in an index that a failed `createIndex` left in the catalog.

## Main definitions

* `Table.DropsCleanly`, `Table.RenamesCleanly`: the call does not throw after its checks.
* `Table.Reached`: the tables that statements lead to.

## Main results

* `Table.dropColumn_untouched_iff`, `Table.renameColumn_untouched_iff`: a call that throws leaves
  the table as it was just in these cases.
* `Table.Reached.shaped`: what these need holds along every run.
-/

namespace VertexDB

open Exec IndexManager Std.ExtTreeMap PageRowStore

variable {name : String}

namespace IndexManager

variable {m m' : IndexManager} {schema : List Column} {index : ℕ}

theorem getElem?_dropIndex (m : IndexManager) (name k : String) :
    (m.dropIndex name).2.indexColumns[k]? = (if name = k then none else m.indexColumns[k]?) ∧
      (m.dropIndex name).2.indexExpressions[k]? =
        if name = k then none else m.indexExpressions[k]? := by
  rw [dropIndex]
  split_ifs with habsent hk hk
  · subst hk
    simp only [Bool.and_eq_true, Bool.not_eq_true'] at habsent
    exact ⟨getElem?_eq_none (by simpa [← contains_iff_mem] using habsent.1.1.1),
      getElem?_eq_none (by simpa [← contains_iff_mem] using habsent.2)⟩
  · exact ⟨rfl, rfl⟩
  · simp [hk]
  · simp [getElem?_erase, hk]

theorem dropIndex_of_not_mem (hfits : m.Fits schema) (h : name ∉ m.indexColumns) :
    m.dropIndex name = (false, m) := by
  have hexprs : name ∉ m.indexExpressions := fun hmem => h (hfits.mem_indexColumns hmem)
  have hidxs : name ∉ m.indexes := (hfits.mem_indexes name).not.mpr h
  have hord : name ∉ m.orderedIndexes := (hfits.mem_orderedIndexes name).not.mpr h
  rw [dropIndex, if_pos]
  rw [← contains_iff_mem, Bool.not_eq_true] at h hexprs hidxs hord
  rw [h, hexprs, hidxs, hord]
  rfl

theorem dropIndex_fst (h : name ∈ m.indexColumns) : (m.dropIndex name).1 = true := by
  have hcontains : m.indexColumns.contains name := contains_iff_mem.mpr h
  simp [dropIndex, hcontains]

end IndexManager

/-- The calls that statements make; the others undo or redo them. -/
def TableOp.ofStatement : TableOp → Bool
  | .insert .. | .update .. | .erase .. | .addColumn .. | .dropColumn .. | .renameColumn ..
  | .createIndex .. | .createExpressionIndex .. | .dropIndex _ | .ensureConstraintIndexes => true
  | _ => false

/-- The calls that change the width of the rows. -/
def TableOp.resizes : TableOp → Bool
  | .addColumn .. | .dropColumn .. => true
  | _ => false

namespace Table

variable {t t' : Table} {m : IndexManager}

theorem getElem?_dropIndexes (m : IndexManager) (names : List String) (k : String) :
    (dropIndexes m names).indexColumns[k]? = (if k ∈ names then none else m.indexColumns[k]?) ∧
      (dropIndexes m names).indexExpressions[k]? =
        if k ∈ names then none else m.indexExpressions[k]? := by
  induction names generalizing m with
  | nil => simp [dropIndexes]
  | cons name names ih =>
    obtain ⟨hcols, hexprs⟩ := ih (m.dropIndex name).2
    obtain ⟨hcol, hexpression⟩ := m.getElem?_dropIndex name k
    rw [dropIndexes, List.foldl_cons, ← dropIndexes, hcols, hexprs, hcol, hexpression]
    by_cases hk : name = k
    · simp [hk]
    · simp [hk, Ne.symm hk]

/-- What a failed schema change has to leave as it was. -/
structure Untouched (t t' : Table) : Prop where
  schema : t'.schema = t.schema
  rows : t'.rowStore = t.rowStore
  versions : t'.versions = t.versions
  checks : t'.checkConstraints = t.checkConstraints
  uniques : t'.uniqueConstraints = t.uniqueConstraints
  foreignKeys : t'.foreignKeys = t.foreignKeys
  indexColumns : t'.indexManager.indexColumns = t.indexManager.indexColumns
  indexExpressions : t'.indexManager.indexExpressions = t.indexManager.indexExpressions

theorem Untouched.refl (t : Table) : Untouched t t := ⟨rfl, rfl, rfl, rfl, rfl, rfl, rfl, rfl⟩

/-- The rows, the versions, the definitions of the indexes and the constraints fit the schema. -/
structure Shaped (t : Table) : Prop where
  rows : WideRows t.rowStore t.schema
  fits : t.indexManager.Fits t.schema
  versions : t.versions.HasWidth t.schema.length
  named : ∀ constraint ∈ t.uniqueConstraints, t.Named constraint

/-! ### DROP COLUMN -/

section Drop

/-- The name of an index that `dropColumn` takes for the index of a constraint. -/
def reservedName (name : String) : Bool :=
  "__pk_".toList.isPrefixOf name.toList || "__uq_".toList.isPrefixOf name.toList

/-- The column at the position that `dropColumn` drops. -/
def droppedColumn (t : Table) (index : ℕ) (columnName : String) : Column :=
  t.schema.getD index { name := columnName, type := .int }

/-- The checks of `dropColumn` refuse the column. -/
def DropRefused (t : Table) (index : ℕ) (columnName : String) (database : Option Database)
    (cascade : Bool) : Prop :=
  t.schema.length ≤ 1 ∨
    (database.any fun database => columnIsForeignKeyParent database t.name columnName) = true ∨
    ∃ e, t.captureDependents (t.droppedColumn index columnName) index columnName cascade = .error e

/-- An index with a reserved name is on the column and is not the index of a constraint that goes
with the column. -/
def StrayIndexOn (t : Table) (index : ℕ) (columnName : String) (cascade : Bool) : Prop :=
  ∃ (name : String) (positions : List ℕ), t.indexManager.indexColumns[name]? = some positions ∧
    index ∈ positions ∧ reservedName name = true ∧
    ¬(cascade = true ∧
      name ∈ (t.uniquesOn (t.droppedColumn index columnName) columnName).map constraintIndexName)

/-- Every live row has a key in every index that does not go with the column. -/
def KeysLeft (t : Table) (index : ℕ) (columnName : String) (cascade : Bool) : Prop :=
  ∀ (name : String) (positions : List ℕ), t.indexManager.indexColumns[name]? = some positions →
    index ∉ positions →
    ¬(cascade = true ∧
      name ∈ (t.uniquesOn (t.droppedColumn index columnName) columnName).map constraintIndexName) →
    ∀ i row, t.rowStore.get i = some row →
      (t.indexManager.indexKeyForRow name row t.schema).isOk = true

/-- The checks refuse the column, or no stray index is on it and the other indexes can be
rebuilt. -/
def DropsCleanly (t : Table) (columnName : String) (database : Option Database) (cascade : Bool) :
    Prop :=
  ∀ index, t.columnIndex columnName = some index →
    t.DropRefused index columnName database cascade ∨
      ¬t.StrayIndexOn index columnName cascade ∧ t.KeysLeft index columnName cascade

variable {index : ℕ} {columnName : String} {database : Option Database} {cascade : Bool}
  {dependents : DroppedColumnCapture} {positions : List ℕ} {rewrite : ℕ × Row → Except Error Row}

/-- The loop over a part of the live rows, all of which can be rewritten. -/
theorem forM_rewriteRow_ok (failed : String)
    {entries : List (ℕ × Row)} (hs : t.rowStore.Valid) (hnodup : (entries.map Prod.fst).Nodup)
    (hlive : ∀ entry ∈ entries, t.rowStore.get entry.1 = some entry.2)
    (hok : ∀ entry ∈ entries, ∃ row, rewrite entry = .ok row) :
    ∃ s, forM entries (rewriteRow rewrite failed) t = .ok ⟨⟩ { t with rowStore := s } := by
  induction entries generalizing t with
  | nil => exact ⟨t.rowStore, rfl⟩
  | cons entry entries ih =>
    rw [List.map_cons, List.nodup_cons] at hnodup
    obtain ⟨hhead, htail⟩ := List.forall_mem_cons.mp hlive
    obtain ⟨⟨row, hrow⟩, hrest⟩ := List.forall_mem_cons.mp hok
    have hstep : rewriteRow rewrite failed entry t =
        .ok ⟨⟩ { t with rowStore := t.rowStore.setRow entry.1 row } := by
      rw [rewriteRow, hrow, ofExcept_ok_bind,
        bind_of_ok (onRowStore_ok (PageRowStore.update_ok hs row hhead))]
      rfl
    rw [forM_cons_run, bind_of_ok hstep]
    obtain ⟨s, hrun⟩ := ih (t := { t with rowStore := t.rowStore.setRow entry.1 row })
      (hs.setRow row hhead) hnodup.2 (fun other hother => by
        have hne : other.1 ≠ entry.1 := fun heq => hnodup.1 (heq ▸ List.mem_map_of_mem hother)
        rw [get_setRow hs row hhead, Function.update_of_ne hne]
        exact htail other hother) hrest
    exact ⟨s, hrun⟩

theorem rewriteRows_ok (failed : String) (hs : t.rowStore.Valid)
    (hok : ∀ i row, t.rowStore.get i = some row → ∃ row', rewrite (i, row) = .ok row') :
    ∃ s, rewriteRows rewrite failed t = .ok ⟨⟩ { t with rowStore := s } ∧
      Rewritten rewrite t.rowStore s := by
  have hlive : ∀ entry ∈ t.rowStore.liveEntries, t.rowStore.get entry.1 = some entry.2 :=
    fun entry hentry => (mem_liveEntries hs _ _).mp hentry
  obtain ⟨s, hrun⟩ := forM_rewriteRow_ok failed hs (nodup_liveEntries _) hlive
    fun entry hentry => hok entry.1 entry.2 (hlive entry hentry)
  have hrun' : rewriteRows rewrite failed t = .ok ⟨⟩ { t with rowStore := s } := by
    rw [rewriteRows, get_bind, hrun]
  obtain ⟨s', hs', hrewritten⟩ := rewriteRows_eq_ok hs hrun'
  obtain rfl : s = s' := congrArg Table.rowStore hs'
  exact ⟨s, hrun', hrewritten⟩

theorem extractColumn_ok (hvers : t.versions.HasWidth t.schema.length)
    (hidx : index < t.schema.length) : ∃ values versions,
      t.versions.extractColumn index = .ok (values, versions) := by
  rw [MvccRowStore.extractColumn, if_neg]
  · exact ⟨_, _, rfl⟩
  · rw [List.any_eq_true]
    rintro ⟨⟨i, chain⟩, hentry, hnarrow⟩
    obtain ⟨version, hver, hlen⟩ := List.any_eq_true.mp hnarrow
    have hchain : t.versions.chain i = chain := by
      rw [MvccRowStore.chain, mem_toList_iff_getElem?_eq_some.mp hentry, Option.getD_some]
    have hwidth := hvers i version (hchain ▸ hver)
    have hshort : version.row.length ≤ index := of_decide_eq_true hlen
    omega

theorem forM_cascadeDropIndex_ok {definitions : List IndexDefinition}
    (hnodup : (definitions.map IndexDefinition.name).Nodup)
    (hmem : ∀ definition ∈ definitions, definition.name ∈ t.indexManager.indexColumns) :
    ∃ t', forM definitions cascadeDropIndex t = .ok ⟨⟩ t' := by
  induction definitions generalizing t with
  | nil => exact ⟨t, rfl⟩
  | cons definition definitions ih =>
    rw [List.map_cons, List.nodup_cons] at hnodup
    obtain ⟨hhead, htail⟩ := List.forall_mem_cons.mp hmem
    have hstep : cascadeDropIndex definition t = .ok ⟨⟩
        { t with indexManager := (t.indexManager.dropIndex definition.name).2 } := by
      rw [cascadeDropIndex, bind_of_ok (dropIndex_run _ t), dropIndex_fst hhead]
      rfl
    rw [forM_cons_run, bind_of_ok hstep]
    refine ih hnodup.2 fun other hother => ?_
    have hne : definition.name ≠ other.name := fun heq =>
      hnodup.1 (heq ▸ List.mem_map_of_mem hother)
    have hkept := (t.indexManager.getElem?_dropIndex definition.name other.name).1
    rw [if_neg hne] at hkept
    rw [mem_iff_isSome_getElem?, hkept, ← mem_iff_isSome_getElem?]
    exact htail other hother

theorem forM_dropConstraintIndex_ok (constraints : List UniqueConstraint) (t : Table) :
    ∃ t',
      forM constraints (fun constraint => discard (dropIndex (constraintIndexName constraint))) t =
      .ok ⟨⟩ t' := by
  induction constraints generalizing t with
  | nil => exact ⟨t, rfl⟩
  | cons constraint constraints ih => exact ih _

theorem map_name_indexDefinitions (t : Table) :
    (t.indexManager.indexDefinitions t.schema).map IndexDefinition.name =
      t.indexManager.indexColumns.keys := by
  rw [indexDefinitions, List.map_map, ← map_fst_toList_eq_keys]
  rfl

theorem nodup_userIndexesOn (t : Table) (columnName : String) :
    ((t.userIndexesOn columnName).map IndexDefinition.name).Nodup := by
  have hsub : (t.userIndexesOn columnName).Sublist (t.indexManager.indexDefinitions t.schema) :=
    List.filter_sublist
  refine (hsub.map IndexDefinition.name).nodup ?_
  rw [map_name_indexDefinitions]
  exact nodup_keys

/-- CASCADE drops the dependents that were captured, without a failure. -/
theorem dropDependents_ok (hcapt : dependents.droppedUserIndexes = t.userIndexesOn columnName) :
    dropDependents dependents columnName t = .ok ⟨⟩
      (t.withoutDependents dependents columnName) := by
  obtain ⟨t₁, huser⟩ : ∃ t', forM dependents.droppedUserIndexes cascadeDropIndex t = .ok ⟨⟩ t' :=
    forM_cascadeDropIndex_ok (hcapt ▸ nodup_userIndexesOn t columnName) (by
      rw [hcapt]
      intro definition hdef
      rw [← mem_keys, ← map_name_indexDefinitions]
      exact List.mem_map_of_mem (List.mem_of_mem_filter hdef))
  have hrun : ∃ t', dropDependents dependents columnName t = .ok ⟨⟩ t' := by
    rw [dropDependents, bind_of_ok huser, modify_bind]
    obtain ⟨t₂, huniques⟩ := forM_dropConstraintIndex_ok dependents.droppedUniques { t₁ with
      checkConstraints := t₁.checkConstraints.filter fun check =>
        !checkReferencesColumn check columnName
      foreignKeys := t₁.foreignKeys.filter fun fk => !foreignKeyReferencesColumn fk columnName }
    rw [bind_of_ok huniques]
    exact ⟨_, rfl⟩
  obtain ⟨t', hrun⟩ := hrun
  rw [hrun, dropDependents_eq_ok hrun]

/-- A key of a row in an index that is not on the column is its key when the column is gone. -/
theorem indexKeyForRow_withoutColumn {schema : List Column} (hfits : m.Fits schema)
    (hfree : ∀ (name : String) positions, m.indexColumns[name]? = some positions →
    index ∉ positions)
    (name : String) (row : Row) :
    (m.withoutColumn index).indexKeyForRow name (row.eraseIdx index) (schema.eraseIdx index) =
      m.indexKeyForRow name row schema := by
  rw [indexKeyForRow, indexKeyForRow, withoutColumn]
  cases hexpr : m.indexExpressions[name]? with
  | some e =>
    obtain ⟨i, hi, hfind⟩ := hfits.expressions name e hexpr
    have hne : i ≠ index := fun heq => hfree name [i] hi (heq ▸ List.mem_singleton_self i)
    simp only [evaluateIndexExpression, hfind, findColumn_eraseIdx hfind hne, at_eraseIdx hne]
  | none =>
    simp only [getElem?_map]
    cases hpos : m.indexColumns[name]? with
    | none => rfl
    | some positions =>
      simp only [Option.map_some, Option.getD_some, List.map_map]
      congr 1
      refine List.map_congr_left fun i hi => at_eraseIdx ?_
      rintro rfl
      exact hfree name positions hpos hi

section Wide

variable (hrows : WideRows t.rowStore t.schema) (hvers : t.versions.HasWidth t.schema.length)
  (hidx : index < t.schema.length)
include hrows hvers hidx

/-- The end of `dropColumn` up to the loop over the positions of the indexes. -/
theorem eraseColumn_run (capture : DroppedColumnCapture) :
    ∃ s values versions, Rewritten (narrowRow index) t.rowStore s ∧
      eraseColumn index capture t =
        (onIndexes (fun _ => IndexManager.eraseColumn index) >>= fun _ =>
        rebuildIndexes >>= fun _ => pure { capture with
          heapValues := t.rowStore.liveEntries.map fun entry => (entry.1, entry.2.at index)
          versionValues := values })
        { t with rowStore := s, versions := versions, schema := t.schema.eraseIdx index } := by
  have hwide : ∀ i row, t.rowStore.get i = some row →
      ∃ row', narrowRow index (i, row) = .ok row' := by
    intro i row hrow
    have hlt : index < row.length := hrows.width i row hrow ▸ hidx
    exact ⟨row.eraseIdx index, by rw [narrowRow, if_neg (not_le.mpr hlt)]; rfl⟩
  obtain ⟨s, hrewrite, hs⟩ :=
    rewriteRows_ok "failed to rewrite row during DROP COLUMN" hrows.valid hwide
  obtain ⟨values, versions, hextract⟩ := extractColumn_ok hvers hidx
  refine ⟨s, values, versions, hs, ?_⟩
  rw [eraseColumn, get_bind, bind_of_ok hrewrite, hextract, ofExcept_ok_bind]
  rfl

/-- With an index on the column the end of `dropColumn` throws when the schema has lost it. -/
theorem eraseColumn_throws (capture : DroppedColumnCapture)
    (hname : t.indexManager.indexColumns[name]? = some positions) (hmem : index ∈ positions) :
    ∃ e t', eraseColumn index capture t = .error e t' ∧ t'.schema = t.schema.eraseIdx index := by
  obtain ⟨s, values, versions, -, hrun⟩ := eraseColumn_run hrows hvers hidx capture
  obtain ⟨e, m, herror⟩ := IndexManager.eraseColumn_error hname hmem
  have hthrow : onIndexes (fun _ => IndexManager.eraseColumn index)
      { t with rowStore := s, versions := versions, schema := t.schema.eraseIdx index } =
      .error e { t with
        rowStore := s
        versions := versions
        schema := t.schema.eraseIdx index
        indexManager := m } :=
    onIndexes_eq_error.mpr ⟨m, herror, rfl⟩
  rw [hrun, bind_of_error hthrow]
  exact ⟨e, _, rfl, rfl⟩

/-- Without an index on the column the end of `dropColumn` returns when the rows have keys, and
throws when the schema has lost the column otherwise. -/
theorem eraseColumn_of_free (hfits : t.indexManager.Fits t.schema) (capture : DroppedColumnCapture)
    (hfree : ∀ (name : String) positions, t.indexManager.indexColumns[name]? = some positions →
    index ∉ positions) :
    ((∀ i row, t.rowStore.get i = some row → t.indexManager.Indexable row t.schema) →
      ∃ result t', eraseColumn index capture t = .ok result t') ∧
    ((¬∀ i row, t.rowStore.get i = some row → t.indexManager.Indexable row t.schema) →
      ∃ e t', eraseColumn index capture t = .error e t' ∧ t'.schema = t.schema.eraseIdx index) := by
  obtain ⟨s, values, versions, hs, hrun⟩ := eraseColumn_run hrows hvers hidx capture
  have hkey : ∀ row, (t.indexManager.withoutColumn index).Indexable (row.eraseIdx index)
      (t.schema.eraseIdx index) ↔ t.indexManager.Indexable row t.schema := by
    intro row
    simp only [IndexManager.Indexable, indexKeyForRow_withoutColumn hfits hfree]
    simp only [withoutColumn, mem_keys, mem_map]
  have hkept : (∀ i row, s.get i = some row →
      (t.indexManager.withoutColumn index).Indexable row (t.schema.eraseIdx index)) ↔
      ∀ i row, t.rowStore.get i = some row → t.indexManager.Indexable row t.schema := by
    constructor
    · intro h i row hrow
      obtain ⟨row', hnarrow, hrow'⟩ := hs.live i row hrow
      exact (hkey row).mp (narrowRow_eq_ok hnarrow ▸ h i row' hrow')
    · intro h i row' hrow'
      obtain ⟨row, hrow, hnarrow⟩ := hs.exists_of_get hrow'
      exact narrowRow_eq_ok hnarrow ▸ (hkey row).mpr (h i row hrow)
  have hpos : onIndexes (fun _ => IndexManager.eraseColumn index)
      { t with rowStore := s, versions := versions, schema := t.schema.eraseIdx index } =
      .ok ⟨⟩ { t with
        rowStore := s
        versions := versions
        schema := t.schema.eraseIdx index
        indexManager := t.indexManager.withoutColumn index } :=
    onIndexes_eq_ok.mpr ⟨_, eraseColumn_ok hfree, rfl⟩
  have hreg := (hfits.withoutColumn hfree).toRegistered
  rw [hrun, bind_of_ok hpos, ← hkept]
  refine ⟨fun hall => ?_, fun hall => ?_⟩
  · exact ⟨_, _, bind_of_ok (onIndexes_eq_ok.mpr
      ⟨_, IndexManager.rebuildIndexes_ok hreg hall, rfl⟩)⟩
  · obtain ⟨e, m, herror⟩ := (IndexManager.rebuildIndexes_eq_error_iff hreg hs.valid).mpr hall
    exact ⟨e, _, bind_of_error (onIndexes_eq_error.mpr ⟨m, herror, rfl⟩), rfl⟩

end Wide

/-- A definition names the column exactly when the index is on its position. -/
theorem indexReferencesColumn_iff (hfits : t.indexManager.Fits t.schema)
    (hidx : t.columnIndex columnName = some index)
    (hname : t.indexManager.indexColumns[name]? = some positions) (first : String) :
    indexReferencesColumn
      { name := name
        column := first
        columns := positions.map (VertexDB.columnName t.schema)
        expression := t.indexManager.indexExpressions[name]? } columnName = true ↔
      index ∈ positions := by
  rw [indexReferencesColumn]
  cases hexpr : t.indexManager.indexExpressions[name]? with
  | some e =>
    obtain ⟨i, hi, hfind⟩ := hfits.expressions name e hexpr
    obtain rfl : [i] = positions := Option.mem_unique hi hname
    simp only [decide_eq_true_eq, List.mem_singleton]
    constructor
    · intro heq
      exact Option.some.inj (hidx.symm.trans (heq ▸ hfind))
    · rintro rfl
      exact (columnName_of_findColumn hfind).symm.trans (columnName_of_findColumn hidx)
  | none =>
    simp only [List.contains_iff_mem, List.mem_map]
    constructor
    · rintro ⟨i, hi, heq⟩
      have hfind := hfits.positions name positions hname i hi
      rw [heq] at hfind
      obtain rfl : index = i := Option.mem_unique hidx hfind
      exact hi
    · exact fun hmem => ⟨index, hmem, columnName_of_findColumn hidx⟩

/-- The user indexes on the column are those on its position whose names are not reserved. -/
theorem mem_userIndexesOn_iff (hfits : t.indexManager.Fits t.schema)
    (hidx : t.columnIndex columnName = some index) :
    name ∈ (t.userIndexesOn columnName).map IndexDefinition.name ↔
      reservedName name = false ∧
        ∃ positions, t.indexManager.indexColumns[name]? = some positions ∧ index ∈ positions := by
  constructor
  · intro h
    obtain ⟨definition, hdef, rfl⟩ := List.mem_map.mp h
    obtain ⟨hmem, hcond⟩ := List.mem_filter.mp hdef
    obtain ⟨⟨name, positions⟩, hentry, rfl⟩ := List.mem_map.mp hmem
    have hname := mem_toList_iff_getElem?_eq_some.mp hentry
    obtain ⟨hreserved, href⟩ := Bool.and_eq_true_iff.mp hcond
    exact ⟨Bool.not_eq_true' _ |>.mp hreserved, positions, hname,
      (indexReferencesColumn_iff hfits hidx hname _).mp href⟩
  · rintro ⟨hreserved, positions, hname, hmem⟩
    refine List.mem_map.mpr ⟨_, List.mem_filter.mpr ⟨List.mem_map.mpr ⟨(name, positions),
      mem_toList_iff_getElem?_eq_some.mpr hname, rfl⟩, ?_⟩, rfl⟩
    exact Bool.and_eq_true_iff.mpr ⟨Bool.not_eq_true' _ |>.mpr hreserved,
      (indexReferencesColumn_iff hfits hidx hname _).mpr hmem⟩

/-- The user indexes in what `dropColumn` captures. -/
theorem captureDependents_userIndexes {column : Column}
    (h : t.captureDependents column index columnName cascade = .ok dependents) :
    (cascade = false → t.userIndexesOn columnName = []) ∧
      dependents.droppedUserIndexes = t.userIndexesOn columnName ∧
      dependents.droppedUniques = t.uniquesOn column columnName := by
  simp only [captureDependents, bind_unit_eq_ok, rejectOrCascade_eq_ok] at h
  obtain ⟨huser, -, -, -, -, h⟩ := h
  obtain rfl := Except.ok.inj h
  refine ⟨fun hcascade => ?_, rfl, rfl⟩
  by_contra hne
  rw [hcascade] at huser
  cases huser (by simpa using hne)

/-- The names of the indexes that go with the column. -/
def droppedIndexes (t : Table) (index : ℕ) (columnName : String) (cascade : Bool) : List String :=
  (t.userIndexesOn columnName).map IndexDefinition.name ++
    if cascade then
      (t.uniquesOn (t.droppedColumn index columnName) columnName).map constraintIndexName
    else []

theorem mem_droppedIndexes_iff (hfits : t.indexManager.Fits t.schema)
    (hidx : t.columnIndex columnName = some index)
    (hname : t.indexManager.indexColumns[name]? = some positions) :
    name ∉ t.droppedIndexes index columnName cascade ↔
      (index ∈ positions → reservedName name = true) ∧
        ¬(cascade = true ∧ name ∈
          (t.uniquesOn (t.droppedColumn index columnName) columnName).map constraintIndexName) := by
  rw [droppedIndexes, List.mem_append, mem_userIndexesOn_iff hfits hidx, not_or]
  refine and_congr ?_ ?_
  · simp [hname, imp.swap]
  · cases cascade <;> simp

/-- The indexes that are left when the end of `dropColumn` is reached. -/
theorem indexManager_kept
    (hdeps : t.captureDependents (t.droppedColumn index columnName) index columnName cascade =
      .ok dependents) :
    (if cascade then t.withoutDependents dependents columnName else t).indexManager =
      dropIndexes t.indexManager (t.droppedIndexes index columnName cascade) := by
  obtain ⟨hnone, huser, huniques⟩ := captureDependents_userIndexes hdeps
  cases cascade with
  | false =>
    rw [droppedIndexes, hnone rfl]
    rfl
  | true =>
    rw [if_pos rfl, withoutDependents, huser, huniques, droppedIndexes, if_pos rfl]
    exact List.foldl_append.symm

theorem dropColumn_of_refused (hidx : t.columnIndex columnName = some index)
    (h : t.DropRefused index columnName database cascade) :
    ∃ e, dropColumn columnName database cascade t = .error e t := by
  simp only [dropColumn, get_bind, hidx, ite_run, throw_bind]
  by_cases hlast : t.schema.length ≤ 1
  · exact ⟨_, by rw [if_pos hlast]⟩
  rw [if_neg hlast]
  by_cases hparent : (database.any fun database =>
      columnIsForeignKeyParent database t.name columnName) = true
  · exact ⟨_, by rw [if_pos hparent]⟩
  rw [if_neg hparent]
  obtain ⟨e, he⟩ := (h.resolve_left hlast).resolve_left hparent
  rw [droppedColumn] at he
  rw [he]
  exact ⟨e, rfl⟩

/-- After its checks `dropColumn` drops the dependents under CASCADE and goes to its end. -/
theorem dropColumn_of_captured (hidx : t.columnIndex columnName = some index)
    (h : ¬t.DropRefused index columnName database cascade) : ∃ dependents,
      t.captureDependents (t.droppedColumn index columnName) index columnName cascade =
        .ok dependents ∧
      dropColumn columnName database cascade t = eraseColumn index dependents
        (if cascade then t.withoutDependents dependents columnName else t) := by
  simp only [DropRefused, not_or, not_exists] at h
  obtain ⟨hlast, hparent, hdeps⟩ := h
  cases hcapt : t.captureDependents (t.droppedColumn index columnName) index columnName cascade with
  | error e => exact absurd hcapt (hdeps e)
  | ok dependents =>
    refine ⟨dependents, rfl, ?_⟩
    rw [droppedColumn] at hcapt
    simp only [dropColumn, get_bind, hidx, ite_run, throw_bind, if_neg hlast, if_neg hparent, hcapt,
      ofExcept_ok_bind]
    cases cascade with
    | false => rfl
    | true =>
      rw [if_pos rfl, bind_of_ok (dropDependents_ok (captureDependents_userIndexes hcapt).2.1)]
      rfl

/-- The rows have keys in the indexes that are left. -/
theorem indexable_dropIndexes_iff {schema : List Column} {row : Row}
    (names : List String) : (dropIndexes m names).Indexable row schema ↔
      ∀ name ∈ m.indexColumns.keys, name ∉ names →
        (m.indexKeyForRow name row schema).isOk = true := by
  refine forall_congr' fun name => ?_
  obtain ⟨hcols, hexprs⟩ := getElem?_dropIndexes m names name
  rw [mem_keys, mem_keys, mem_iff_isSome_getElem?, mem_iff_isSome_getElem?, hcols, indexKeyForRow,
    indexKeyForRow, hcols, hexprs]
  split_ifs with hdropped <;> simp [hdropped]

/-- `dropColumn` leaves the table untouched when it throws exactly when its checks refuse the
column, or no stray index is on it and the other indexes can be rebuilt: in the second case it does
not throw. -/
theorem dropColumn_untouched_iff (ht : t.Shaped) (columnName : String) (database : Option Database)
    (cascade : Bool) :
    (∀ e t', dropColumn columnName database cascade t = .error e t' → t.Untouched t') ↔
      t.DropsCleanly columnName database cascade := by
  cases hidx : t.columnIndex columnName with
  | none =>
    refine iff_of_true (fun e t' hthrow => ?_) fun index h => ?_
    · simp only [dropColumn, get_bind, hidx, throw_apply] at hthrow
      cases hthrow
      exact .refl t
    · rw [hidx] at h
      cases h
  | some index =>
    have hclean : t.DropsCleanly columnName database cascade ↔
        t.DropRefused index columnName database cascade ∨
          ¬t.StrayIndexOn index columnName cascade ∧ t.KeysLeft index columnName cascade := by
      rw [DropsCleanly, hidx]
      simp
    rw [hclean]
    by_cases hrefused : t.DropRefused index columnName database cascade
    · obtain ⟨e, hrun⟩ := dropColumn_of_refused hidx hrefused
      refine iff_of_true (fun e' t' hthrow => ?_) (Or.inl hrefused)
      rw [hrun] at hthrow
      cases hthrow
      exact .refl t
    rw [or_iff_right hrefused]
    obtain ⟨dependents, hdeps, hrun⟩ := dropColumn_of_captured hidx hrefused
    have hlt : index < t.schema.length := lt_length_of_findColumn hidx
    have hkept := indexManager_kept hdeps
    -- the rows, the versions and the schema are still the ones of the table
    obtain ⟨t₁, ht₁⟩ : ∃ t₁, t₁ = if cascade then
        t.withoutDependents dependents columnName else t :=
      ⟨_, rfl⟩
    rw [← ht₁] at hrun hkept
    obtain ⟨hrowStore, hvers, hschema⟩ :
        t₁.rowStore = t.rowStore ∧ t₁.versions = t.versions ∧ t₁.schema = t.schema := by
      rw [ht₁]
      split_ifs <;> exact ⟨rfl, rfl, rfl⟩
    have hfits : t₁.indexManager.Fits t.schema := hkept ▸ fits_dropIndexes ht.fits _
    have hget : ∀ (name : String) positions, t₁.indexManager.indexColumns[name]? = some positions ↔
        t.indexManager.indexColumns[name]? = some positions ∧
          name ∉ t.droppedIndexes index columnName cascade := by
      intro name positions
      rw [hkept, (getElem?_dropIndexes _ _ _).1]
      split_ifs with hname <;> simp [hname]
    have hrows : WideRows t₁.rowStore t₁.schema := hrowStore ▸ hschema ▸ ht.rows
    have hwidth : t₁.versions.HasWidth t₁.schema.length := hvers ▸ hschema ▸ ht.versions
    have htouched : ∀ e t', eraseColumn index dependents t₁ = .error e t' →
        t'.schema = t₁.schema.eraseIdx index →
        ¬∀ e t', dropColumn columnName database cascade t = .error e t' → t.Untouched t' := by
      intro e t' hthrow ht' h
      have hlen := congrArg List.length (h e t' (hrun.trans hthrow)).schema
      rw [ht', hschema, List.length_eraseIdx_of_lt hlt] at hlen
      omega
    by_cases hstray : t.StrayIndexOn index columnName cascade
    · refine iff_of_false ?_ fun h => h.1 hstray
      obtain ⟨name, positions, hname, hmem, hreserved, hcon⟩ := hstray
      have hleft := (mem_droppedIndexes_iff ht.fits hidx hname).mpr ⟨fun _ => hreserved, hcon⟩
      obtain ⟨e, t', hthrow, ht'⟩ := eraseColumn_throws hrows hwidth (hschema ▸ hlt) dependents
        ((hget name positions).mpr ⟨hname, hleft⟩) hmem
      exact htouched e t' hthrow ht'
    have hfree : ∀ (name : String) positions, t.indexManager.indexColumns[name]? = some positions →
        name ∉ t.droppedIndexes index columnName cascade → index ∉ positions := by
      intro name positions hname hleft hmem
      obtain ⟨hreserved, hcon⟩ := (mem_droppedIndexes_iff ht.fits hidx hname).mp hleft
      exact hstray ⟨name, positions, hname, hmem, hreserved hmem, hcon⟩
    have hkeys : (∀ i row, t₁.rowStore.get i = some row →
        t₁.indexManager.Indexable row t₁.schema) ↔ t.KeysLeft index columnName cascade := by
      rw [hrowStore, hschema, hkept]
      simp only [indexable_dropIndexes_iff, mem_keys]
      constructor
      · intro h name positions hname hout hcon i row hrow
        exact h i row hrow name (mem_iff_isSome_getElem?.mpr (by rw [hname]; rfl))
          ((mem_droppedIndexes_iff ht.fits hidx hname).mpr ⟨fun hmem => absurd hmem hout, hcon⟩)
      · intro h i row hrow name hmem hleft
        obtain ⟨positions, hname⟩ := Option.isSome_iff_exists.mp (mem_iff_isSome_getElem?.mp hmem)
        exact h name positions hname (hfree name positions hname hleft)
          ((mem_droppedIndexes_iff ht.fits hidx hname).mp hleft).2 i row hrow
    obtain ⟨hok, herror⟩ := eraseColumn_of_free hrows hwidth (hschema ▸ hlt) (hschema ▸ hfits)
      dependents fun name positions h =>
        hfree name positions ((hget _ _).mp h).1 ((hget _ _).mp h).2
    rw [and_iff_right hstray, ← hkeys]
    by_cases hall : ∀ i row, t₁.rowStore.get i = some row → t₁.indexManager.Indexable row t₁.schema
    · obtain ⟨result, t', hreturn⟩ := hok hall
      refine iff_of_true (fun e t'' hthrow => ?_) hall
      rw [hrun, hreturn] at hthrow
      cases hthrow
    · obtain ⟨e, t', hthrow, ht'⟩ := herror hall
      exact iff_of_false (htouched e t' hthrow ht') hall

end Drop

variable {oldName newName : String}

/-! ### RENAME COLUMN -/

section Rename

/-- A renamed index of a constraint meets a name in use: `names` are the names of the catalog, and
the indexes are renamed one after another, those that are there and whose names change. -/
def indexNameClash : List String → List (String × String) → Bool
  | _, [] => false
  | names, (oldIndex, newIndex) :: renames =>
    if oldIndex = newIndex ∨ oldIndex ∉ names then indexNameClash names renames
    else
      names.contains newIndex ||
        indexNameClash (newIndex :: names.filter fun name => name ≠ oldIndex) renames

/-- The names of the constraint indexes before and after the column is renamed. -/
def indexRenames (renames : List (String × UniqueConstraint)) : List (String × String) :=
  renames.map fun rename => (rename.1, constraintIndexName rename.2)

/-- The checks of `renameColumn` refuse the names, or there is nothing to do. -/
def RenameRefused (t : Table) (oldName newName : String) : Prop :=
  oldName = "" ∨ newName = "" ∨ oldName = newName ∨ t.columnIndex oldName = none ∨
    (t.columnIndex newName).isSome = true

/-- When some constraint index gets another name, every live row has a key in every index but the
first of them. -/
def RenameKeys (t : Table) (renames : List (String × UniqueConstraint)) : Prop :=
  ∀ rename ∈ renames.find? fun rename => decide (rename.1 ≠ constraintIndexName rename.2 ∧
      rename.1 ∈ t.indexManager.indexColumns.keys),
    ∀ name ∈ t.indexManager.indexColumns.keys, name ≠ rename.1 → ∀ i row,
      t.rowStore.get i = some row →
      (t.indexManager.indexKeyForRow name row t.schema).isOk = true

/-- The checks of `renameColumn` refuse the names, or the new names of the constraint indexes are
free and the indexes can be rebuilt. -/
def RenamesCleanly (t : Table) (oldName newName : String) : Prop :=
  t.RenameRefused oldName newName ∨
    indexNameClash t.indexManager.indexColumns.keys
      (indexRenames (t.constraintRenames oldName newName)) = false ∧
    t.RenameKeys (t.constraintRenames oldName newName)

theorem indexNameClash_congr {names names' : List String} (h : ∀ name, name ∈ names ↔ name ∈ names')
    (renames : List (String × String)) :
    indexNameClash names renames = indexNameClash names' renames := by
  induction renames generalizing names names' with
  | nil => rfl
  | cons rename renames ih =>
    obtain ⟨oldIndex, newIndex⟩ := rename
    have hcontains : names.contains newIndex = names'.contains newIndex := by
      rw [Bool.eq_iff_iff, List.contains_iff_mem, List.contains_iff_mem, h]
    have hrest : ∀ name, name ∈ newIndex :: names.filter (fun name => name ≠ oldIndex) ↔
        name ∈ newIndex :: names'.filter (fun name => name ≠ oldIndex) := by
      intro name
      rw [List.mem_cons, List.mem_cons, List.mem_filter, List.mem_filter, h]
    simp only [indexNameClash, h oldIndex, hcontains, ih h, ih hrest]

variable {rename : String × UniqueConstraint} {constraint : UniqueConstraint}

theorem Named.congr (h : t.Named constraint)
    (hschema : t'.schema = t.schema) : t'.Named constraint := by
  simpa only [Named, columnIndex, hschema] using h

theorem renameConstraintIndex_skip (hfits : t.indexManager.Fits t.schema)
    (h : rename.1 = constraintIndexName rename.2 ∨ rename.1 ∉ t.indexManager.indexColumns) :
    renameConstraintIndex rename t = .ok ⟨⟩ t := by
  simp only [renameConstraintIndex, ite_run]
  by_cases hsame : rename.1 = constraintIndexName rename.2
  · rw [if_pos hsame]
    rfl
  · rw [if_neg hsame, bind_of_ok (dropIndex_run _ t),
      dropIndex_of_not_mem hfits (h.resolve_left hsame)]
    rfl

/-- The index is there and gets another name: it is dropped first. -/
theorem renameConstraintIndex_run (hne : rename.1 ≠ constraintIndexName rename.2)
    (hmem : rename.1 ∈ t.indexManager.indexColumns) {indexes : List ℕ}
    (hidxs : rename.2.columns.mapM t.columnIndex = some indexes) :
    renameConstraintIndex rename t =
      (registerIndex (constraintIndexName rename.2) indexes none true >>= fun done =>
        if !done then throw (.runtimeError ("failed to recreate constraint index " ++
          constraintIndexName rename.2)) else pure ())
        { t with indexManager := (t.indexManager.dropIndex rename.1).2 } := by
  simp only [renameConstraintIndex, if_neg hne]
  rw [bind_of_ok (dropIndex_run _ t), dropIndex_fst hmem]
  simp only [Bool.not_true, Bool.false_eq_true, if_false, get_bind]
  rw [show rename.2.columns.mapM
    ({ t with indexManager := (t.indexManager.dropIndex rename.1).2 } : Table).columnIndex =
      some indexes from hidxs]

theorem mem_dropIndex {k : String} :
    k ∈ (m.dropIndex name).2.indexColumns ↔ k ∈ m.indexColumns ∧ k ≠ name := by
  rw [mem_iff_isSome_getElem?, (m.getElem?_dropIndex name k).1, mem_iff_isSome_getElem?]
  split_ifs with hk
  · simp [hk]
  · simp [Ne.symm hk]

theorem indexable_of_withIndex {schema : List Column} {row : Row}
    (hname : name ∉ m.indexColumns) {indexes : List ℕ}
    (h : (m.withIndex name indexes none).Indexable row schema) : m.Indexable row schema := by
  intro k hk
  have hne : name ≠ k := fun heq => hname (heq ▸ mem_keys.mp hk)
  have hkey := h k (by simpa [withIndex] using Or.inr hk)
  rwa [indexKeyForRow, withIndex, getElem?_insert, if_neg (by simpa using hne)] at hkey

/-- The index is dropped, and its new name is in use. -/
theorem renameConstraintIndex_clash (hnamed : t.Named rename.2)
    (hne : rename.1 ≠ constraintIndexName rename.2)
    (hmem : rename.1 ∈ t.indexManager.indexColumns)
    (hused : constraintIndexName rename.2 ∈ t.indexManager.indexColumns) :
    ∃ e t', renameConstraintIndex rename t = .error e t' ∧ t'.schema = t.schema := by
  obtain ⟨indexes, hidxs, -⟩ := hnamed.exists_indexes
  have hrefuse : registerIndex (constraintIndexName rename.2) indexes none true
      { t with indexManager := (t.indexManager.dropIndex rename.1).2 } = .ok false
      { t with indexManager := (t.indexManager.dropIndex rename.1).2 } :=
    onIndexes_eq_ok.mpr ⟨_, registerIndex_of_mem (mem_dropIndex.mpr ⟨hused, Ne.symm hne⟩)
      indexes none true, rfl⟩
  rw [renameConstraintIndex_run hne hmem hidxs, bind_of_ok hrefuse]
  exact ⟨_, _, rfl, rfl⟩

section Free

variable (hfits : t.indexManager.Fits t.schema) (hnamed : t.Named rename.2)
  (hne : rename.1 ≠ constraintIndexName rename.2) (hmem : rename.1 ∈ t.indexManager.indexColumns)
  (hfree : constraintIndexName rename.2 ∉ t.indexManager.indexColumns)

include hfits hnamed hne hmem hfree

/-- The index is dropped and registered under its new name. -/
theorem renameConstraintIndex_ok (hall : ∀ i row, t.rowStore.get i = some row →
      (t.indexManager.dropIndex rename.1).2.Indexable row t.schema) :
    ∃ m : IndexManager, renameConstraintIndex rename t = .ok ⟨⟩ { t with indexManager := m } ∧
      m.Fits t.schema ∧ (∀ i row, t.rowStore.get i = some row → m.Indexable row t.schema) ∧
      ∀ name, name ∈ m.indexColumns ↔ name = constraintIndexName rename.2 ∨
        name ∈ t.indexManager.indexColumns ∧ name ≠ rename.1 := by
  obtain ⟨indexes, hidxs, hnil, -, hrange⟩ := hnamed.exists_indexes
  have hdrop := hfits.dropIndex rename.1
  have hfree' : constraintIndexName rename.2 ∉ (t.indexManager.dropIndex rename.1).2.indexColumns :=
    fun h => hfree (mem_dropIndex.mp h).1
  obtain ⟨m, hreg, hm, hcols, hexprs⟩ := registerIndex_ok
    (t := { t with indexManager := (t.indexManager.dropIndex rename.1).2 })
    ⟨hdrop.toRegistered, fun _ => hall, fun _ => hdrop.mem_indexColumns⟩ hfree' hnil hrange
  rw [renameConstraintIndex_run hne hmem hidxs, bind_of_ok hreg]
  have hfits' :
    ((t.indexManager.dropIndex rename.1).2.withIndex (constraintIndexName rename.2) indexes
      none).Fits t.schema := hdrop.withIndex hfree' (exists_findColumn_of_mapM hidxs) (by simp)
  refine ⟨m, rfl, hfits'.congr hm hcols hexprs, fun i row hrow => ?_, fun name => ?_⟩
  · exact (hall i row hrow).insert hcols hexprs (fun h => hfree' (hdrop.mem_indexColumns h)) hnil
  · rw [hcols, mem_insert, Std.LawfulEqCmp.compare_eq_iff_eq, mem_dropIndex, eq_comm (a := name)]

/-- The index is dropped, and a row has no key in another one. -/
theorem renameConstraintIndex_missing (hs : t.rowStore.Valid)
    (hmissing : ¬∀ i row, t.rowStore.get i = some row →
      (t.indexManager.dropIndex rename.1).2.Indexable row t.schema) :
    ∃ e t', renameConstraintIndex rename t = .error e t' ∧ t'.schema = t.schema := by
  obtain ⟨indexes, hidxs, hnil, -, hrange⟩ := hnamed.exists_indexes
  have hdrop := (hfits.dropIndex rename.1).toRegistered
  have hfree' : constraintIndexName rename.2 ∉ (t.indexManager.dropIndex rename.1).2.indexColumns :=
    fun h => hfree (mem_dropIndex.mp h).1
  obtain ⟨e, m, herror⟩ := (rebuildIndexes_eq_error_iff
    (hdrop.withIndex (constraintIndexName rename.2) indexes none) hs).mpr
    fun h => hmissing fun i row hrow => indexable_of_withIndex hfree' (h i row hrow)
  have hthrow : registerIndex (constraintIndexName rename.2) indexes none true
      { t with indexManager := (t.indexManager.dropIndex rename.1).2 } =
      .error e { t with indexManager := m } := by
    refine onIndexes_eq_error.mpr ⟨m, ?_, rfl⟩
    exact (registerIndex_of_not_mem hdrop hfree' hnil (by simp) hrange true).trans
      (bind_of_error herror)
  rw [renameConstraintIndex_run hne hmem hidxs]
  exact ⟨e, _, bind_of_error hthrow, rfl⟩

end Free

/-- The loop over the constraint indexes throws exactly when a new name is in use or a row has no
key in an index that stays. -/
theorem forM_renameConstraintIndex {renames : List (String × UniqueConstraint)}
    (hfits : t.indexManager.Fits t.schema) (hs : t.rowStore.Valid)
    (hnamed : ∀ rename ∈ renames, t.Named rename.2) :
    (indexNameClash t.indexManager.indexColumns.keys (indexRenames renames) = false ∧
        t.RenameKeys renames → ∃ t', forM renames renameConstraintIndex t = .ok ⟨⟩ t') ∧
    (¬(indexNameClash t.indexManager.indexColumns.keys (indexRenames renames) = false ∧
        t.RenameKeys renames) →
      ∃ e t', forM renames renameConstraintIndex t = .error e t' ∧ t'.schema = t.schema) := by
  induction renames generalizing t with
  | nil => exact ⟨fun _ => ⟨t, rfl⟩, fun h => absurd ⟨rfl, fun rename h => by cases h⟩ h⟩
  | cons rename renames ih =>
    obtain ⟨hhead, htail⟩ := List.forall_mem_cons.mp hnamed
    rw [forM_cons_run, indexRenames, List.map_cons, ← indexRenames, indexNameClash, RenameKeys,
      List.find?_cons]
    by_cases hskip : rename.1 = constraintIndexName rename.2 ∨
        rename.1 ∉ t.indexManager.indexColumns.keys
    · rw [if_pos hskip, bind_of_ok (renameConstraintIndex_skip hfits (by simpa using hskip)),
        decide_eq_false (by simpa [imp_iff_not_or] using hskip)]
      exact ih hfits hs htail
    rw [if_neg hskip, decide_eq_true (not_or.mp hskip |>.imp_right not_not.mp)]
    obtain ⟨hne, hmem⟩ := not_or.mp hskip
    rw [not_not, mem_keys] at hmem
    by_cases hused : constraintIndexName rename.2 ∈ t.indexManager.indexColumns
    · refine ⟨fun h => absurd h.1 (by simp [hused]), fun _ => ?_⟩
      obtain ⟨e, t', hthrow, hschema⟩ := renameConstraintIndex_clash hhead hne hmem hused
      exact ⟨e, t', bind_of_error hthrow, hschema⟩
    have hkeys : (∀ other ∈ some rename, ∀ name ∈ t.indexManager.indexColumns.keys, name ≠ other.1 →
        ∀ i row, t.rowStore.get i = some row →
          (t.indexManager.indexKeyForRow name row t.schema).isOk = true) ↔
        ∀ i row, t.rowStore.get i = some row →
          (t.indexManager.dropIndex rename.1).2.Indexable row t.schema := by
      have hdrop : ∀ row, (t.indexManager.dropIndex rename.1).2.Indexable row t.schema ↔ _ :=
        fun row =>
        indexable_dropIndexes_iff [rename.1]
      simp only [hdrop, List.mem_singleton, Option.mem_def, Option.some.injEq, forall_eq']
      exact ⟨fun h i row hrow name hname hne => h name hname hne i row hrow,
        fun h name hname hne i row hrow => h i row hrow name hname hne⟩
    simp only [hkeys]
    by_cases hall : ∀ i row, t.rowStore.get i = some row →
        (t.indexManager.dropIndex rename.1).2.Indexable row t.schema
    · obtain ⟨m, hrun, hm, hidxable, hnames⟩ :=
        renameConstraintIndex_ok hfits hhead hne hmem hused hall
      -- from now on the rows have keys in all indexes
      have hrest := ih (t := { t with indexManager := m }) hm hs htail
      have hthere : Table.RenameKeys { t with indexManager := m } renames :=
        fun _ _ name hname _ i row hrow => hidxable i row hrow name hname
      have hcat : ∀ name, name ∈ m.indexColumns.keys ↔ name ∈ constraintIndexName rename.2 ::
          t.indexManager.indexColumns.keys.filter fun name => name ≠ rename.1 := by
        intro name
        simp [hnames]
      rw [indexNameClash_congr hcat, and_iff_left hthere] at hrest
      rw [bind_of_ok hrun, and_iff_left hall]
      simpa [hused] using hrest
    · refine ⟨fun h => absurd h.2 hall, fun _ => ?_⟩
      obtain ⟨e, t', hthrow, hschema⟩ :=
        renameConstraintIndex_missing hfits hhead hne hmem hused hs hall
      exact ⟨e, t', bind_of_error hthrow, hschema⟩

theorem named_renamed (h : t.Named constraint) {index : ℕ}
    (hold : t.columnIndex oldName = some index) (hnew : t.columnIndex newName = none) :
    (t.withRenamedColumn index oldName newName).Named
      { constraint with columns := renameNameList oldName newName constraint.columns } := by
  refine ⟨by simpa [renameNameList] using h.1, fun name hname => ?_⟩
  obtain ⟨old, hmem, rfl⟩ := List.mem_map.mp hname
  obtain ⟨i, hi⟩ := Option.isSome_iff_exists.mp (h.2 old hmem)
  exact Option.isSome_iff_exists.mpr ⟨i, findColumn_modify hold hnew hi⟩

/-- The constraints that `renameColumn` captures name the columns of the renamed table. -/
theorem named_constraintRenames (ht : t.Shaped) {index : ℕ}
    (hold : t.columnIndex oldName = some index) (hnew : t.columnIndex newName = none) :
    ∀ rename ∈ t.constraintRenames oldName newName,
      (t.withRenamedColumn index oldName newName).Named rename.2 := by
  intro rename hrename
  obtain ⟨constraint, hmem, rfl⟩ := List.mem_map.mp hrename
  refine named_renamed ?_ hold hnew
  rcases mem_allUniqueConstraints (List.mem_filter.mp hmem).1 with h | ⟨column, hcol, -, hname⟩
  · exact ht.named constraint h
  · refine ⟨by simp [hname], fun name hmem => ?_⟩
    rw [hname, List.mem_singleton] at hmem
    rw [hmem]
    exact columnIndex_isSome.mpr (List.mem_map_of_mem hcol)

theorem renameColumn_of_refused (h : t.RenameRefused oldName newName) :
    state (renameColumn oldName newName t) = t := by
  simp only [renameColumn]
  by_cases hempty : oldName = "" ∨ newName = ""
  · simp only [if_pos hempty, throw_bind]
    rfl
  by_cases hsame : oldName = newName
  · simp only [if_neg hempty, if_pos hsame, pure_apply]
    rfl
  simp only [if_neg hempty, if_neg hsame, get_bind]
  cases hold : t.columnIndex oldName with
  | none => rfl
  | some index =>
    have hnew : (t.columnIndex newName).isSome = true := by
      rcases h with h | h | h | h | h
      · exact absurd (Or.inl h) hempty
      · exact absurd (Or.inr h) hempty
      · exact absurd h hsame
      · rw [hold] at h
        cases h
      · exact h
    simp only [hnew, if_true, throw_bind]
    rfl

/-- After its checks `renameColumn` renames the column and then the indexes of its constraints. -/
theorem renameColumn_of_accepted (h : ¬t.RenameRefused oldName newName) :
    ∃ index, t.columnIndex oldName = some index ∧ t.columnIndex newName = none ∧
      renameColumn oldName newName t = forM (t.constraintRenames oldName newName)
        renameConstraintIndex
        (t.withRenamedColumn index oldName newName) := by
  simp only [RenameRefused, not_or] at h
  obtain ⟨hold, hnew, hne, hfound, hfree⟩ := h
  obtain ⟨index, hidx⟩ := Option.ne_none_iff_exists'.mp hfound
  refine ⟨index, hidx, by simpa using hfree, ?_⟩
  simp only [renameColumn, if_neg (not_or.mpr ⟨hold, hnew⟩), if_neg hne, get_bind, hidx,
    if_neg hfree, set_bind]

/-- `renameColumn` leaves the table untouched when it throws exactly when it throws in its checks,
or the new names of the constraint indexes are free and the indexes can be rebuilt: in the second
case it does not throw. -/
theorem renameColumn_untouched_iff (ht : t.Shaped) (oldName newName : String) :
    (∀ e t', renameColumn oldName newName t = .error e t' → t.Untouched t') ↔
      t.RenamesCleanly oldName newName := by
  by_cases hrefused : t.RenameRefused oldName newName
  · refine iff_of_true (fun e t' hthrow => ?_) (Or.inl hrefused)
    obtain rfl : t' = t := by
      have hstate := renameColumn_of_refused hrefused
      rwa [hthrow] at hstate
    exact .refl t'
  obtain ⟨index, hold, hnew, hrun⟩ := renameColumn_of_accepted hrefused
  obtain ⟨hok, herror⟩ := forM_renameConstraintIndex (fits_withRenamedColumn ht.fits hold hnew)
    ht.rows.valid (named_constraintRenames ht hold hnew)
  have hkeys : (t.withRenamedColumn index oldName newName).RenameKeys
      (t.constraintRenames oldName newName) ↔
        t.RenameKeys (t.constraintRenames oldName newName) := by
    simp only [RenameKeys, indexKeyForRow_withRenamedColumn ht.fits hold hnew]
    exact Iff.rfl
  have hnames : (t.withRenamedColumn index oldName newName).indexManager.indexColumns =
      t.indexManager.indexColumns := rfl
  rw [hkeys, hnames] at hok herror
  rw [RenamesCleanly, or_iff_right hrefused, hrun]
  by_cases hclean : indexNameClash t.indexManager.indexColumns.keys
      (indexRenames (t.constraintRenames oldName newName)) = false ∧
      t.RenameKeys (t.constraintRenames oldName newName)
  · obtain ⟨t', hreturn⟩ := hok hclean
    refine iff_of_true (fun e t'' hthrow => ?_) hclean
    rw [hreturn] at hthrow
    cases hthrow
  · obtain ⟨e, t', hthrow, hschema⟩ := herror hclean
    refine iff_of_false (fun h => ?_) hclean
    -- the failed call leaves the column renamed in the schema
    have hcol : (t.schema.modify index fun column => { column with name := newName }) = t.schema :=
      hschema.symm.trans (h e t' hthrow).schema
    have hne : oldName ≠ newName := fun heq => hrefused (Or.inr (Or.inr (Or.inl heq)))
    refine findColumn_modify_ne hne hold ?_
    rw [hcol]
    exact hold

end Rename

/-! ### Runs of statements -/

section Runs

/-- Computations that keep the shape of a table. -/
def shapeKept : Guarantee Table where
  inv := Shaped
  le _ _ := True
  refl _ := trivial
  trans _ _ := trivial

/-- The computation ends in a shaped table, whether it returns or throws. -/
abbrev KeepsShape {α : Type} (t : Table) (x : EStateM Error Table α) : Prop :=
  shapeKept.Run t x fun _ _ => True

section Computations

variable {α β : Type} {x : EStateM Error Table α} {f : α → EStateM Error Table β}

theorem KeepsShape.of_state (h : (state (x t)).Shaped) : t.KeepsShape x :=
  ⟨h, trivial, fun _ _ _ => trivial⟩

theorem Shaped.returns (ht : t.Shaped) (a : α) : t.KeepsShape (pure a) := .of_state ht

theorem Shaped.throws (ht : t.Shaped) (e : Error) :
    t.KeepsShape (throw e : EStateM Error Table α) :=
  .of_state ht

theorem KeepsShape.bind (hx : t.KeepsShape x)
    (hf : ∀ a (t' : Table), t'.Shaped → t'.KeepsShape (f a)) :
    t.KeepsShape (x >>= f) :=
  Guarantee.Run.bind hx fun a t' ht' _ _ => hf a t' ht'

theorem Shaped.loop (ht : t.Shaped) {g : α → EStateM Error Table PUnit} {l : List α}
    (hg : ∀ a (t' : Table), t'.Shaped → t'.KeepsShape (g a)) : t.KeepsShape (forM l g) :=
  Guarantee.Run.forM (R := fun _ => True) (fun a _ t' ht' _ _ => hg a t' ht') ht trivial

end Computations

theorem Shaped.withIndexes (ht : t.Shaped) (hm : m.Fits t.schema) :
    Shaped { t with indexManager := m } :=
  ⟨ht.rows, hm, ht.versions, fun constraint hcon => (ht.named constraint hcon).congr rfl⟩

theorem Shaped.slotChange (ht : t.Shaped) {i : ℕ} {row : Option Row} {s : PageRowStore}
    (hs : s.Valid)
    (hget : s.get = Function.update t.rowStore.get i row)
    (hrow : ∀ stored, row = some stored → stored.length = t.schema.length) {versions : MvccRowStore}
    (hvers : versions.HasWidth t.schema.length) :
    Shaped { t with rowStore := s, versions := versions } := by
  refine ⟨⟨hs, fun j stored hj => ?_⟩, ht.fits, hvers, fun constraint hcon =>
    (ht.named constraint hcon).congr rfl⟩
  rw [hget, Function.update_apply] at hj
  split_ifs at hj
  · exact hrow stored hj
  · exact ht.rows.width j stored hj

theorem fits_of_run {α : Type} {schema : List Column} (hm : m.Fits schema)
    {x : EStateM Error IndexManager α} {Q : α → IndexManager → Prop}
    (hx : definitionsKept.Run m x Q) :
    (state (x m)).Fits schema :=
  hm.congr hx.inv hx.le.1 hx.le.2

section Shaped

variable (ht : t.Shaped)
include ht

theorem Shaped.onIndexes {α : Type} {x : Table → EStateM Error IndexManager α}
    (hx : (state (x t t.indexManager)).Fits t.schema) : t.KeepsShape (onIndexes x) := by
  have hstate : state (Table.onIndexes x t) =
      { t with indexManager := state (x t t.indexManager) } := by
    rw [Table.onIndexes, get_bind, zoom]
    cases x t t.indexManager <;> rfl
  exact .of_state (hstate ▸ ht.withIndexes hx)

theorem Shaped.registerIndex {columnIndexes : List ℕ} {expression : Option IndexExpression}
    (hcols : ∀ i ∈ columnIndexes, ∃ c, findColumn t.schema c = some i)
    (hexpression : ∀ e, expression = some e → ∃ i, columnIndexes = [i] ∧
    findColumn t.schema e.column = some i) :
    t.KeepsShape (registerIndex name columnIndexes expression true) := by
  refine ht.onIndexes ?_
  simp only [IndexManager.registerIndex, get_bind, ite_run, pure_apply]
  split_ifs with hnil hlen hname hrange
  iterate 4 exact ht.fits
  have hm := ht.fits.withIndex (by simpa using (not_or.mp hname).2) hcols hexpression
  have hrebuild :
    definitionsKept.Run _ (IndexManager.rebuildIndexes t.rowStore t.schema >>= fun _ =>
      pure true) fun _ _ => True :=
    (definitionsKept_rebuildIndexes hm.toRegistered).bind fun _ _ hinv _ _ => .pure hinv trivial
  exact fits_of_run hm hrebuild

/-- The end of the calls that create an index under a name that may be in use. -/
theorem Shaped.recreate {columns : List String} {columnIndexes : List ℕ}
    (hcols : columns.mapM t.columnIndex = some columnIndexes) (failed : Error) :
    t.KeepsShape (Table.registerIndex name columnIndexes none true >>= fun done =>
      if !done then throw failed else pure ()) :=
  (ht.registerIndex (exists_findColumn_of_mapM hcols) (by simp)).bind fun _ _ ht' =>
    .ite (fun _ => ht'.throws failed) fun _ => ht'.returns ()

theorem Shaped.ensureConstraintIndex (context : String) (constraint : UniqueConstraint) :
    t.KeepsShape (ensureConstraintIndex context true constraint) := by
  refine .get_bind (.ite (fun _ => ht.returns ()) fun _ => ?_)
  split
  · exact ht.throws _
  · exact ht.recreate ‹_› _

theorem Shaped.renameConstraintIndex (rename : String × UniqueConstraint) :
    t.KeepsShape (renameConstraintIndex rename) := by
  refine .ite (fun _ => ht.returns ()) fun _ => ?_
  have hdrop : t.KeepsShape (dropIndex rename.1) := .of_state (ht.withIndexes (ht.fits.dropIndex _))
  refine hdrop.bind fun _ _ ht' => .ite (fun _ => ht'.returns ()) fun _ => .get_bind ?_
  split
  · exact ht'.throws _
  · exact ht'.recreate ‹_› _

theorem Shaped.insert (row : Row) (writerId : ℕ) : t.KeepsShape (insert row writerId) := by
  have hs := ht.rows.valid
  cases hcheck : t.assertUniqueRow row none with
  | error e => exact .of_state (by rwa [insert_error hcheck writerId])
  | ok u =>
    have hlen := length_of_validateRow (assertUniqueRow_eq_ok.mp hcheck).1
    have hstored : (t.stored row writerId).Shaped :=
      ht.slotChange (hs.appended row) (hs.get_appended row)
        (fun _ hrow => Option.some.inj hrow ▸ hlen) (ht.versions.write _ hlen writerId)
    have hadd : (t.stored row writerId).KeepsShape (addRowToIndexes t.rowStore.nextRowId) :=
      hstored.onIndexes (fits_of_run hstored.fits
        (definitionsKept_addRowToIndexes hstored.fits.toRegistered _))
    refine .of_state ?_
    rw [insert_of_accepted hs hcheck writerId]
    exact (hadd.bind fun _ _ ht' => ht'.returns _).inv

theorem Shaped.reindex {i : ℕ} {row : Option Row} {s : PageRowStore} (hs : s.Valid)
    (hget : s.get = Function.update t.rowStore.get i row)
    (hrow : ∀ stored, row = some stored → stored.length = t.schema.length) {versions : MvccRowStore}
    (hvers : versions.HasWidth t.schema.length) : (state (t.reindex s versions)).Shaped := by
  have ht' := ht.slotChange hs hget hrow hvers
  have hrebuild : KeepsShape _ rebuildIndexes := ht'.onIndexes
    (fits_of_run ht'.fits (definitionsKept_rebuildIndexes ht'.fits.toRegistered))
  exact (hrebuild.bind fun _ _ ht'' => ht''.returns true).inv

theorem Shaped.update (rowId index : ℕ) (value : Value) (writerId : ℕ) :
    t.KeepsShape (update rowId index value writerId) := by
  have hs := ht.rows.valid
  refine .of_state ?_
  rcases hrow : t.rowStore.get rowId with _ | row
  · rwa [update_eq_false (Or.inl hrow)]
  rcases hcol : t.schema[index]? with _ | column
  · rwa [update_eq_false (Or.inr hcol)]
  cases hupd : t.updatedRow row rowId index column value with
  | error e => rwa [update_error hrow hcol hupd]
  | ok updated =>
    obtain ⟨-, -, -, rfl⟩ := updatedRow_eq_ok hupd
    have hlen : (row.set index value).length = t.schema.length := by
      rw [List.length_set, ht.rows.width rowId row hrow]
    rw [update_of_updated hs hrow hcol hupd writerId]
    exact ht.reindex (hs.setRow _ hrow) (get_setRow hs _ hrow)
      (fun _ hstored => Option.some.inj hstored ▸ hlen) (ht.versions.write rowId hlen writerId)

theorem Shaped.erase (rowId writerId : ℕ) : t.KeepsShape (erase rowId writerId) := by
  have hs := ht.rows.valid
  refine .of_state ?_
  rcases hrow : t.rowStore.get rowId with _ | row
  · rwa [erase_eq_false hrow]
  · rw [erase_of_live hs hrow]
    exact ht.reindex (hs.erase hrow _) (get_erasedStore hs hrow) (by simp)
      (ht.versions.erase rowId writerId)

theorem Shaped.addColumn {column : Column} {fill : Option Value} {u : Unit}
    (h : addColumn column fill t = .ok u t') : t'.Shaped := by
  obtain ⟨hrows, hfits⟩ := fits_addColumn ht.rows ht.fits h
  obtain ⟨-, -, -, s, -, rfl⟩ := addColumn_eq_ok ht.rows.valid h
  refine ⟨hrows, hfits, ?_, fun constraint hcon => ?_⟩
  · rw [List.length_append]
    exact ht.versions.transformRows fun row hrow => by simp [hrow]
  · obtain ⟨hnil, hfound⟩ := ht.named constraint hcon
    refine ⟨hnil, fun name hname => ?_⟩
    obtain ⟨i, hi⟩ := Option.isSome_iff_exists.mp (hfound name hname)
    exact Option.isSome_iff_exists.mpr ⟨i, findColumn_append hi column⟩

theorem Shaped.dropColumn {columnName : String} {database : Option Database} {cascade : Bool}
    {capture : DroppedColumnCapture}
    (h : dropColumn columnName database cascade t = .ok capture t') : t'.Shaped := by
  have hs := ht.rows.valid
  have hcur := current_of_dropColumn ht.rows ht.fits h
  obtain ⟨-, hkeys⟩ := dropColumn_constraints hs h
  obtain ⟨index, column, dependents, t₁, hidx, -, -, -, s, values, versions, m, m', -,
      hextract, -, -,
    -, ht'⟩ := dropColumn_eq_ok hs h
  have hschema : t'.schema = t.schema.eraseIdx index := by rw [ht']
  have hlt : index < t.schema.length := lt_length_of_findColumn hidx
  refine ⟨hcur.rows, hcur.fits, ?_, fun constraint hcon => ?_⟩
  · rw [hschema, List.length_eraseIdx_of_lt hlt, ht']
    exact ht.versions.extractColumn hlt hextract
  · obtain ⟨hmem, hother⟩ := hkeys constraint hcon
    obtain ⟨hnil, hfound⟩ := ht.named constraint hmem
    refine ⟨hnil, fun name hname => ?_⟩
    obtain ⟨i, hi⟩ := Option.isSome_iff_exists.mp (hfound name hname)
    have hne : i ≠ index := by
      rintro rfl
      rw [← columnName_of_findColumn hi, columnName_of_findColumn hidx] at hname
      exact hother hname
    rw [columnIndex, hschema, findColumn_eraseIdx hi hne]
    rfl

theorem Shaped.renameColumn (oldName newName : String) :
    t.KeepsShape (renameColumn oldName newName) := by
  refine .of_state ?_
  by_cases hrefused : t.RenameRefused oldName newName
  · rwa [renameColumn_of_refused hrefused]
  obtain ⟨index, hold, hnew, hrun⟩ := renameColumn_of_accepted hrefused
  have hrenamed : (t.withRenamedColumn index oldName newName).Shaped := by
    refine ⟨wideRows_withRenamedColumn ht.rows _ _ _, fits_withRenamedColumn ht.fits hold hnew, ?_,
      fun constraint hcon => ?_⟩
    · rw [Table.withRenamedColumn, List.length_modify]
      exact ht.versions
    · obtain ⟨old, hmem, rfl⟩ := List.mem_map.mp hcon
      exact named_renamed (ht.named old hmem) hold hnew
  rw [hrun]
  exact (hrenamed.loop fun rename _ ht' => ht'.renameConstraintIndex rename).inv

/-- A statement that returns or throws keeps the shape, one that adds or drops a column if it has no
effect when it throws. -/
theorem Shaped.perform {op : TableOp} (hop : op.ofStatement = true)
    (hthrow : ∀ e, op.perform t = .error e t' → op.resizes = true → t' = t)
    (h : state (op.perform t) = t') : t'.Shaped := by
  subst h
  have hresize : op.resizes = true → (∀ u t', op.perform t = .ok u t' → t'.Shaped) →
      (state (op.perform t)).Shaped := by
    intro hresizes hok
    cases hrun : op.perform t with
    | ok u t' => exact hok u t' hrun
    | error e t' =>
      rw [hrun] at hthrow
      exact hthrow e rfl hresizes ▸ ht
  cases op with
  | insert row writerId => exact (ht.insert row writerId).discard.inv
  | update rowId index value writerId => exact (ht.update rowId index value writerId).discard.inv
  | erase rowId writerId => exact (ht.erase rowId writerId).discard.inv
  | addColumn column fill => exact hresize rfl fun _ _ hadd => ht.addColumn hadd
  | dropColumn columnName database cascade =>
    refine hresize rfl fun _ _ hdrop => ?_
    obtain ⟨capture, hdrop⟩ := discard_eq_ok.mp hdrop
    exact ht.dropColumn hdrop
  | renameColumn oldName newName => exact (ht.renameColumn oldName newName).inv
  | createIndex name columns =>
    have hcreate : t.KeepsShape (createIndex name columns) := by
      refine .ite (fun _ => ht.returns false) fun _ => .get_bind ?_
      split
      · exact ht.returns false
      · exact ht.registerIndex (exists_findColumn_of_mapM ‹_›) (by simp)
    exact hcreate.discard.inv
  | createExpressionIndex name expression =>
    have hcreate : t.KeepsShape (createExpressionIndex name expression) := by
      refine .get_bind ?_
      split
      · exact ht.returns false
      · exact ht.registerIndex (by simpa using ⟨_, ‹_›⟩) (by simpa using ‹_›)
    exact hcreate.discard.inv
  | dropIndex name => exact ht.withIndexes (ht.fits.dropIndex name)
  | ensureConstraintIndexes =>
    have hensure : t.KeepsShape ensureConstraintIndexes :=
      .get_bind (ht.loop fun constraint _ ht' => ht'.ensureConstraintIndex _ constraint)
    exact hensure.inv
  | eraseDiscardingVersion | replaceRow | revive | restoreDroppedColumn | applyPhysicalUpsert
  | applyPhysicalErase => cases hop

end Shaped

/-- The tables that statements reach, whether they return or throw. -/
inductive Reached (t₀ : Table) : Table → Prop
  | new : Reached t₀ t₀
  | statement {t t' : Table} {op : TableOp} (h : Reached t₀ t) (hop : op.ofStatement = true)
    (hthrow : ∀ e, op.perform t = .error e t' → op.resizes = true → t' = t)
    (hstep : state (op.perform t) = t') : Reached t₀ t'

variable {schema : List Column} {checks : List CheckPredicate}
  {foreignKeys : List ForeignKeyConstraint} {uniques : List UniqueConstraint} {t₀ : Table}

theorem Reached.shaped (h : Reached t₀ t)
    (hnew : construct name schema checks foreignKeys uniques = .ok t₀) : t.Shaped := by
  induction h with
  | new =>
    have hcur := current_of_construct hnew
    refine ⟨hcur.rows, hcur.fits, fun i version hver => ?_, fun constraint hcon =>
      named_of_construct hnew constraint (List.mem_append_left _ hcon)⟩
    obtain ⟨_, schema', -, -, -, rfl⟩ := construct_eq_ok hnew
    simp [MvccRowStore.chain] at hver
  | statement _ hop hthrow hstep ih => exact ih.perform hop hthrow hstep

theorem reached_of_run {ops : List TableOp} (hops : ∀ op ∈ ops, op.ofStatement = true) {u : PUnit}
    (hrun : forM ops TableOp.perform t₀ = .ok u t) : Reached t₀ t :=
  forM_ok_induction (fun op hop _ _ _ h hstep => .statement h (hops op hop)
    (fun e he => by rw [hstep] at he; cases he) (by rw [hstep]; rfl)) .new hrun

end Runs

/-- A schema change of a shaped table leaves it untouched when it throws exactly when it throws in
its checks, or when nothing stands in its way after them. -/
theorem untouched_of_throw_iff (t : Table) (ht : t.Shaped) :
    (∀ columnName database cascade,
      (∀ e t', dropColumn columnName database cascade t = .error e t' → t.Untouched t') ↔
        t.DropsCleanly columnName database cascade) ∧
    ∀ oldName newName,
      (∀ e t', renameColumn oldName newName t = .error e t' → t.Untouched t') ↔
        t.RenamesCleanly oldName newName :=
  ⟨dropColumn_untouched_iff ht, renameColumn_untouched_iff ht⟩

/-- A table with two columns, the second one UNIQUE. -/
def keyedTable : Table where
  name := "t"
  schema := [{ name := "a", type := .int }, { name := "b", type := .int, unique := true }]

/-- The table gets its constraint index, a user index on `a` and a row. -/
def indexAs (name : String) : List TableOp :=
  [.ensureConstraintIndexes, .createIndex name ["a"], .insert [.int 1, .int 2] 0]

theorem untouched_of_throw_free : ∃ t, forM (indexAs "mine") TableOp.perform keyedTable = .ok ⟨⟩ t ∧
    t.Shaped ∧ t.RenamesCleanly "b" "c" ∧
    ∀ e t', renameColumn "b" "c" t = .error e t' → t.Untouched t' := by
  have hrun : Returns (forM (indexAs "mine") TableOp.perform) keyedTable fun _ t =>
      indexNameClash t.indexManager.indexColumns.keys
        (indexRenames (t.constraintRenames "b" "c")) = false := by
    decide +kernel
  obtain ⟨_, t, hrun, hfree⟩ := hrun
  have hnew : construct "t" keyedTable.schema [] [] [] = .ok keyedTable := rfl
  have ht := (reached_of_run (by decide) hrun).shaped hnew
  have hclean : t.RenamesCleanly "b" "c" := Or.inr ⟨hfree, fun _ _ name hname _ i row hrow =>
    (current_of_run hnew hrun).built.indexable i row hrow name hname⟩
  exact ⟨t, hrun, ht, hclean, ((untouched_of_throw_iff t ht).2 "b" "c").mpr hclean⟩

/-- A user index named `__uq_mine` on `a` lets the drop of `a` fail when the column has left the
schema and the rows. One named `__uq_c` lets the rename of `b` to `c` fail when the column is
renamed and its constraint index is gone. -/
theorem touched_of_throw :
    construct "t" keyedTable.schema [] [] [] = .ok keyedTable ∧
    Returns (forM (indexAs "__uq_mine") TableOp.perform) keyedTable (fun _ t =>
      t.rowStore.get 0 = some [.int 1, .int 2] ∧ t.schema.map Column.name = ["a", "b"] ∧
      Throws (dropColumn "a" none false) t fun _ t' =>
        t'.rowStore.get 0 = some [.int 2] ∧ t'.schema.map Column.name = ["b"]) ∧
    Returns (forM (indexAs "__uq_c") TableOp.perform) keyedTable fun _ t =>
      t.schema.map Column.name = ["a", "b"] ∧
      t.indexManager.indexColumns.keys = ["__uq_b", "__uq_c"] ∧
      Throws (renameColumn "b" "c") t fun _ t' =>
        t'.schema.map Column.name = ["a", "c"] ∧
          t'.indexManager.indexColumns.keys = ["__uq_c"] := by
  refine ⟨rfl, ?_⟩
  decide +kernel

end Table

end VertexDB
