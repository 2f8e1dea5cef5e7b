import VertexDB.Storage.TableInvariant

/-!
# What the row operations of a table do

Each operation on a sound table either refuses, and then leaves the table as it was, or ends in a
table that this file names, which is sound again. The one exception is a row that some index has no
key for: the operations store it before the indexes throw, so the row is assumed to be indexable.
-/

namespace VertexDB

open PageRowStore IndexManager Function

namespace Table

open Exec

variable {t : Table} {column : Column} {value : Value} {index : ℕ} {updated : Row}

/-- Every index of the table has a key for the row. -/
def Indexable (t : Table) (row : Row) : Prop := t.indexManager.Indexable row t.schema

instance (t : Table) (row : Row) : Decidable (t.Indexable row) :=
  inferInstanceAs (Decidable (IndexManager.Indexable _ _ _))

/-- The table with another heap and other versions, and its indexes rebuilt. -/
def changed (t : Table) (rowStore : PageRowStore) (versions : MvccRowStore) : Table :=
  { t with
    rowStore := rowStore
    versions := versions
    indexManager := t.indexManager.clearIndexes.addRows rowStore.liveEntries t.schema }

theorem rebuildIndexes_ok (hm : t.indexManager.Registered) (rowStore : PageRowStore)
    (versions : MvccRowStore) (hrows : ∀ i row, rowStore.get i = some row → t.Indexable row) :
    rebuildIndexes { t with rowStore := rowStore, versions := versions } =
      .ok ⟨⟩ (t.changed rowStore versions) := by
  have h := IndexManager.rebuildIndexes_ok hm hrows
  simp only [rebuildIndexes, onIndexes, get_bind, zoom, h]
  rfl

/-- The end of a row operation: the indexes are rebuilt on the new heap. -/
def reindex (t : Table) (rowStore : PageRowStore) (versions : MvccRowStore) :
    EStateM.Result Error Table Bool :=
  (rebuildIndexes >>= fun _ => pure true) { t with rowStore := rowStore, versions := versions }

theorem reindex_ok (hm : t.indexManager.Registered) {rowStore : PageRowStore}
    (versions : MvccRowStore) (hrows : ∀ i row, rowStore.get i = some row → t.Indexable row) :
    t.reindex rowStore versions = .ok true (t.changed rowStore versions) := by
  rw [reindex, bind_of_ok (rebuildIndexes_ok hm rowStore versions hrows), pure_apply]

theorem sameRules_changed (t : Table) (rowStore : PageRowStore) (versions : MvccRowStore) :
    t.SameRules (t.changed rowStore versions) := by
  obtain ⟨hcol, hexpr⟩ := indexColumns_addRows t.indexManager.clearIndexes
    rowStore.liveEntries t.schema
  exact ⟨rfl, rfl, rfl, hcol, hexpr⟩

theorem Sound.changed (ht : t.Sound) {rowStore : PageRowStore} {versions : MvccRowStore}
    (hstore : rowStore.Valid) (haccepted : t.AllAccepted rowStore.get)
    (hrows : ∀ i row, rowStore.get i = some row → t.Indexable row) :
    (t.changed rowStore versions).Sound := by
  have hrules := t.sameRules_changed rowStore versions
  exact ⟨hstore, agrees_rebuilt ht.indexes.toRegistered hstore hrows,
    hrules.canonical ht.canonical, hrules.allAccepted haccepted⟩

variable {row : Row}

theorem Sound.indexable_update (ht : t.Sound) {i : ℕ} (hrow : t.Indexable row) (r : ℕ)
    (stored : Row) (h : Function.update t.rowStore.get i (some row) r = some stored) :
    t.Indexable stored := by
  by_cases hri : r = i
  · subst hri
    rw [update_self, Option.some.injEq] at h
    exact h ▸ hrow
  · rw [update_of_ne hri] at h
    exact ht.indexes.indexable r stored h

theorem Searchable.indexable_erase (ht : t.Searchable) (i r : ℕ) (stored : Row)
    (h : Function.update t.rowStore.get i none r = some stored) : t.Indexable stored := by
  by_cases hri : r = i
  · simp [hri] at h
  · rw [update_of_ne hri] at h
    exact ht.indexes.indexable r stored h

theorem onRowStore_ok {α : Type} {x : EStateM Error PageRowStore α} {a : α} {s : PageRowStore}
    (h : x t.rowStore = .ok a s) : onRowStore x t = .ok a { t with rowStore := s } := by
  rw [onRowStore, zoom_of_ok h]

section Insert

/-- The table after an insert. -/
def inserted (t : Table) (row : Row) (writerId : ℕ) : Table :=
  { t with
    rowStore := t.rowStore.appended row
    versions := t.versions.write t.rowStore.nextRowId row writerId
    indexManager := t.indexManager.addRow t.rowStore.nextRowId row t.schema }

theorem sameRules_inserted (t : Table) (row : Row) (writerId : ℕ) :
    t.SameRules (t.inserted row writerId) := ⟨rfl, rfl, rfl, rfl, rfl⟩

theorem insert_error {e : Error} (h : t.assertUniqueRow row none = .error e) (writerId : ℕ) :
    insert row writerId t = .error e t := by
  rw [assertUniqueRow] at h
  simp only [insert, get_bind]
  cases hvalid : t.validateRow row with
  | error e' =>
    rw [hvalid] at h
    cases h
    rfl
  | ok _ =>
    rw [hvalid] at h
    have hunique : t.enforceUniqueConstraintsUnlocked row none = .error e := h
    rw [ofExcept_ok_bind, hunique]
    rfl

theorem assertUniqueRow_eq_ok {exclude : Option ℕ} :
    t.assertUniqueRow row exclude = .ok () ↔ t.validateRow row = .ok () ∧
      t.enforceUniqueConstraintsUnlocked row exclude = .ok () :=
  bind_unit_eq_ok

/-- The table once the heap and the version chains hold an inserted row, before any index does. -/
def stored (t : Table) (row : Row) (writerId : ℕ) : Table :=
  { t with
    rowStore := t.rowStore.appended row
    versions := t.versions.write t.rowStore.nextRowId row writerId }

theorem insert_of_accepted (hstore : t.rowStore.Valid) (h : t.assertUniqueRow row none = .ok ())
    (writerId : ℕ) :
    insert row writerId t = (addRowToIndexes t.rowStore.nextRowId >>= fun _ =>
      pure t.rowStore.nextRowId) (t.stored row writerId) := by
  obtain ⟨hvalid, hunique⟩ := assertUniqueRow_eq_ok.mp h
  have hget : (t.rowStore.appended row).get t.rowStore.nextRowId = some row := by
    rw [hstore.get_appended, update_self]
  simp only [insert, get_bind, hvalid, hunique, ofExcept_ok_bind]
  rw [bind_of_ok (onRowStore_ok (append_ok hstore row))]
  simp only [writeVersion, onVersions, bind_assoc, get_bind, modify_bind, hget, Option.getD_some]
  rfl

theorem insert_ok_of_indexable (hstore : t.rowStore.Valid) (hm : t.indexManager.Registered)
    (h : t.assertUniqueRow row none = .ok ()) (hrow : t.Indexable row) (writerId : ℕ) :
    insert row writerId t = .ok t.rowStore.nextRowId (t.inserted row writerId) := by
  have hget : (t.rowStore.appended row).get t.rowStore.nextRowId = some row := by
    rw [hstore.get_appended, update_self]
  have hadd := addRowToIndexes_ok hm hget hrow
  have hlast : addRowToIndexes t.rowStore.nextRowId (t.stored row writerId) =
      .ok ⟨⟩ (t.inserted row writerId) := by
    simp only [addRowToIndexes, onIndexes, get_bind, zoom, stored, hadd]
    rfl
  rw [insert_of_accepted hstore h, bind_of_ok hlast, pure_apply]

theorem insert_ok (ht : t.Sound) (h : t.assertUniqueRow row none = .ok ()) (hrow : t.Indexable row)
    (writerId : ℕ) :
    insert row writerId t = .ok t.rowStore.nextRowId (t.inserted row writerId) :=
  insert_ok_of_indexable ht.store ht.indexes.toRegistered h hrow writerId

theorem Sound.inserted (ht : t.Sound) (h : t.Accepts t.rowStore.get row none)
    (hrow : t.Indexable row) (writerId : ℕ) : (t.inserted row writerId).Sound := by
  have hget := ht.store.get_appended row
  refine ⟨ht.store.appended row, ht.indexes.addRow ht.store.get_nextRowId hget hrow,
    ht.canonical, ?_⟩
  have hall := ht.accepted.store (h.exclude_dead (i := t.rowStore.nextRowId))
  rw [← hget] at hall
  exact (t.sameRules_inserted row writerId).allAccepted hall

@[simp] theorem get_inserted (ht : t.Sound) (row : Row) (writerId : ℕ) :
    (t.inserted row writerId).rowStore.get =
      Function.update t.rowStore.get t.rowStore.nextRowId (some row) :=
  ht.store.get_appended row

end Insert

variable {rowId : ℕ}

section Update

theorem update_eq_false (h : t.rowStore.get rowId = none ∨ t.schema[index]? = none)
    (value : Value) (writerId : ℕ) :
    update rowId index value writerId t = .ok false t := by
  simp only [update, get_bind]
  rcases h with h | h
  · rw [h]
    rfl
  · rw [h]
    cases t.rowStore.get rowId <;> rfl

theorem update_error {e : Error}
    (hget : t.rowStore.get rowId = some row) (hcolumn : t.schema[index]? = some column)
    (h : t.updatedRow row rowId index column value = .error e) (writerId : ℕ) :
    update rowId index value writerId t = .error e t := by
  simp only [update, get_bind, hget, hcolumn, h]
  rfl

/-- What `update` stores is acceptable in the place of the row. -/
theorem Sound.updatedRow_iff (ht : t.Sound)
    (hget : t.rowStore.get rowId = some row) (hcolumn : t.schema[index]? = some column) :
    t.updatedRow row rowId index column value = .ok updated ↔
      updated = row.set index value ∧ CellOk value column ∧
        t.Accepts t.rowStore.get updated (some rowId) := by
  have hrow := (ht.accepted rowId row hget).valid
  unfold updatedRow
  simp only [bind_unit_eq_ok, validateCell_eq_ok, pure, Except.pure, Except.ok.injEq]
  constructor
  · rintro ⟨hcell, hcheck, hunique, rfl⟩
    exact ⟨rfl, hcell, (ht.assertUniqueRow_iff _ _).mp (assertUniqueRow_eq_ok.mpr
      ⟨validateRow_set hrow hcolumn hcell hcheck, hunique⟩)⟩
  · rintro ⟨rfl, hcell, haccepts⟩
    obtain ⟨hvalid, hunique⟩ := assertUniqueRow_eq_ok.mp ((ht.assertUniqueRow_iff _ _).mpr haccepts)
    exact ⟨hcell, (validateRow_eq_ok.mp hvalid).2.2, hunique, rfl⟩

theorem update_of_updated (hs : t.rowStore.Valid)
    (hget : t.rowStore.get rowId = some row) (hcolumn : t.schema[index]? = some column)
    (h : t.updatedRow row rowId index column value = .ok updated) (writerId : ℕ) :
    update rowId index value writerId t =
      t.reindex (t.rowStore.setRow rowId updated) (t.versions.write rowId updated writerId) := by
  have hstored : (t.rowStore.setRow rowId updated).get rowId = some updated := by
    rw [get_setRow hs updated hget, update_self]
  simp only [update, get_bind, hget, hcolumn, h, ofExcept_ok_bind]
  rw [bind_of_ok (onRowStore_ok (update_ok hs updated hget))]
  simp only [Bool.not_true, Bool.false_eq_true, if_false, writeVersion, onVersions, bind_assoc,
    get_bind, modify_bind, hstored, Option.getD_some]
  rfl

theorem update_ok (ht : t.Sound)
    (hget : t.rowStore.get rowId = some row) (hcolumn : t.schema[index]? = some column)
    (h : t.updatedRow row rowId index column value = .ok updated) (hrow : t.Indexable updated)
    (writerId : ℕ) :
    update rowId index value writerId t =
      .ok true (t.changed (t.rowStore.setRow rowId updated)
        (t.versions.write rowId updated writerId)) := by
  rw [update_of_updated ht.store hget hcolumn h]
  refine reindex_ok ht.indexes.toRegistered _ ?_
  rw [get_setRow ht.store updated hget]
  exact ht.indexable_update hrow

end Update

section Erase

theorem erase_eq_false (h : t.rowStore.get rowId = none) (writerId : ℕ) :
    erase rowId writerId t = .ok false t := by
  simp [erase, h]

/-- The heap after a row is erased. -/
def erasedStore (t : Table) (rowId : ℕ) : PageRowStore :=
  t.rowStore.touched rowId false [] (t.rowStore.freeList ++ [rowId]) (t.rowStore.liveCount - 1)

theorem get_erasedStore (hs : t.rowStore.Valid) (h : t.rowStore.get rowId = some row) :
    (t.erasedStore rowId).get = Function.update t.rowStore.get rowId none := by
  obtain ⟨hi, -⟩ := (hs.get_isSome_iff rowId).mp (by simp [h])
  simpa [erasedStore] using get_touched hs.toLayout hi false [] _ _

theorem erase_of_live (hs : t.rowStore.Valid) (h : t.rowStore.get rowId = some row) (writerId : ℕ) :
    erase rowId writerId t = t.reindex (t.erasedStore rowId) (t.versions.erase rowId writerId) := by
  have herase := onRowStore_ok (t := { t with versions := t.versions.erase rowId writerId })
    (erase_ok hs h)
  simp only [erase, get_bind, h, Option.isNone_some, Bool.false_eq_true, if_false, onVersions,
    modify_bind]
  rw [bind_of_ok herase]
  rfl

theorem erase_ok (ht : t.Searchable) (h : t.rowStore.get rowId = some row) (writerId : ℕ) :
    erase rowId writerId t =
      .ok true (t.changed (t.erasedStore rowId) (t.versions.erase rowId writerId)) := by
  rw [erase_of_live ht.store h]
  refine reindex_ok ht.indexes.toRegistered _ ?_
  rw [get_erasedStore ht.store h]
  exact ht.indexable_erase rowId

theorem Searchable.erased (ht : t.Searchable) (h : t.rowStore.get rowId = some row)
    (versions : MvccRowStore) :
    (t.changed (t.erasedStore rowId) versions).Searchable := by
  have hstore : (t.erasedStore rowId).Valid := ht.store.erase h _
  refine ⟨hstore, agrees_rebuilt ht.indexes.toRegistered hstore fun i other hother =>
    ?_, (t.sameRules_changed _ _).canonical ht.canonical⟩
  rw [get_erasedStore ht.store h] at hother
  exact ht.indexable_erase rowId i other hother

end Erase

section Undo

theorem eraseDiscardingVersion_of_live (hs : t.rowStore.Valid)
    (h : t.rowStore.get rowId = some row) :
    eraseDiscardingVersion rowId t =
      t.reindex (t.erasedStore rowId) (t.versions.popLatestVersion rowId).2 := by
  simp only [eraseDiscardingVersion, get_bind, h, Option.isNone_some, Bool.false_eq_true, if_false]
  rw [bind_of_ok (onRowStore_ok (PageRowStore.erase_ok hs h))]
  rfl

theorem eraseDiscardingVersion_ok (ht : t.Sound) (h : t.rowStore.get rowId = some row) :
    eraseDiscardingVersion rowId t =
      .ok true (t.changed (t.erasedStore rowId) (t.versions.popLatestVersion rowId).2) := by
  rw [eraseDiscardingVersion_of_live ht.store h]
  refine reindex_ok ht.indexes.toRegistered _ ?_
  rw [get_erasedStore ht.store h]
  exact ht.searchable.indexable_erase rowId

theorem replaceRow_ok (ht : t.Sound) {old : Row} (hget : t.rowStore.get rowId = some old)
    (h : t.Accepts t.rowStore.get row (some rowId)) (hrow : t.Indexable row) :
    replaceRow rowId row t =
      .ok true (t.changed (t.rowStore.setRow rowId row) (t.versions.popLatestVersion rowId).2) := by
  obtain ⟨hvalid, hunique⟩ := assertUniqueRow_eq_ok.mp ((ht.assertUniqueRow_iff _ _).mpr h)
  simp only [replaceRow, get_bind, hget, hvalid, hunique, ofExcept_ok_bind, Option.isNone_some,
    Bool.false_eq_true, if_false]
  rw [bind_of_ok (onRowStore_ok (PageRowStore.update_ok ht.store row hget))]
  refine reindex_ok ht.indexes.toRegistered (t.versions.popLatestVersion rowId).2 ?_
  rw [PageRowStore.get_setRow ht.store row hget]
  exact ht.indexable_update hrow

/-- The heap after a row is revived. -/
def revivedStore (t : Table) (rowId : ℕ) (row : Row) : PageRowStore :=
  t.rowStore.touched rowId true row (t.rowStore.freeList.erase rowId) (t.rowStore.liveCount + 1)

theorem get_revivedStore (ht : t.Sound) (row : Row) (hi : rowId < t.rowStore.capacity) :
    (t.revivedStore rowId row).get = Function.update t.rowStore.get rowId (some row) := by
  simpa [revivedStore] using get_touched ht.store.toLayout hi true row _ _

theorem revive_ok (ht : t.Sound) (hi : rowId < t.rowStore.capacity)
    (hget : t.rowStore.get rowId = none) (h : t.Accepts t.rowStore.get row (some rowId))
    (hrow : t.Indexable row) :
    revive rowId row t =
      .ok true
        (t.changed (t.revivedStore rowId row) (t.versions.clearLatestDeletedBy rowId).2) := by
  obtain ⟨hvalid, hunique⟩ := assertUniqueRow_eq_ok.mp ((ht.assertUniqueRow_iff _ _).mpr h)
  simp only [revive, get_bind, hvalid, hunique, ofExcept_ok_bind]
  rw [bind_of_ok (onRowStore_ok (PageRowStore.revive_ok ht.store row hi hget))]
  refine reindex_ok ht.indexes.toRegistered (t.versions.clearLatestDeletedBy rowId).2 ?_
  rw [← revivedStore, get_revivedStore ht row hi]
  exact ht.indexable_update hrow

end Undo

end Table

end VertexDB
