import VertexDB.Execution.DmlEngine

/-!
# The outcomes of logged changes

The changes of rows that statements make, evaluated on an engine whose tables are sound: one row
change of one table, with an undo record and a redo record.
-/

namespace VertexDB

open Exec

/-- The tables have the same name, schema, constraints and indexes. -/
structure Table.SameDefinition (t t' : Table) : Prop where
  rules : t.SameRules t'
  name : t'.name = t.name
  foreignKeys : t'.foreignKeys = t.foreignKeys

theorem Table.SameDefinition.refl (t : Table) : t.SameDefinition t := ⟨.refl t, rfl, rfl⟩

theorem Table.SameDefinition.trans {t t' t'' : Table} (h : t.SameDefinition t')
    (h' : t'.SameDefinition t'') : t.SameDefinition t'' :=
  ⟨h.rules.trans h'.rules, h'.name.trans h.name, h'.foreignKeys.trans h.foreignKeys⟩

namespace Table

variable {t t' : Table}

/-- Every row that passes the checks of the table has a key in every index of it. -/
def IndexesTotal (t : Table) : Prop := ∀ row, t.validateRow row = .ok () → t.Indexable row

theorem SameRules.indexesTotal (h : t.SameRules t') (ht : t.IndexesTotal) : t'.IndexesTotal :=
  fun row hrow => h.indexable.mpr (ht row (h.validateRow ▸ hrow))

section DirtyMarks

theorem sameRules_clearDirtyTracking (t : Table) : t.SameRules t.clearDirtyTracking :=
  ⟨rfl, rfl, rfl, rfl, rfl⟩

theorem valid_clearDirtyTracking (h : t.rowStore.Valid) : t.clearDirtyTracking.rowStore.Valid :=
  ⟨⟨h.rowsPerPage_pos, h.slot_place, h.page_length⟩, h.free_row, h.freeList_nodup, h.mem_freeList⟩

theorem Searchable.clearDirtyTracking (h : t.Searchable) : t.clearDirtyTracking.Searchable where
  store := valid_clearDirtyTracking h.store
  indexes := ⟨h.indexes.toRegistered, h.indexes.indexable, h.indexes.mem_find⟩
  canonical := h.canonical

theorem Sound.clearDirtyTracking (h : t.Sound) : t.clearDirtyTracking.Sound where
  store := h.searchable.clearDirtyTracking.store
  indexes := h.searchable.clearDirtyTracking.indexes
  canonical := h.canonical
  accepted := t.sameRules_clearDirtyTracking.allAccepted h.accepted

theorem sameDefinition_clearDirtyTracking (t : Table) : t.SameDefinition t.clearDirtyTracking :=
  ⟨t.sameRules_clearDirtyTracking, rfl, rfl⟩

end DirtyMarks

end Table

namespace Engine

variable {s : Engine} {id : ℕ} {t : Table}

/-- The transaction and the snapshot of the session are the same. -/
def SameSession (s s' : Engine) : Prop :=
  s'.session.activeTransaction = s.session.activeTransaction ∧
    s'.session.activeSnapshot = s.session.activeSnapshot

/-- The state after a change of a row of an object, with its undo and redo records. -/
def logged (s : Engine) (id : ℕ) (access : TableAccess) (undo : UndoRecord) (redoName : String) :
    Engine :=
  withRedo id redoName (withUndo undo (s.putBack id access))

section Evaluation

theorem cleared_eq (h : s.database.objects[id]? = some t) :
    s.cleared id = s.setObject id t.clearDirtyTracking := by
  rw [cleared, h]

theorem getElem?_cleared (h : s.database.objects[id]? = some t) (id' : ℕ) :
    (s.cleared id).database.objects[id']? =
      if id = id' then some t.clearDirtyTracking else s.database.objects[id']? := by
  rw [cleared_eq h]
  exact Database.getElem?_setObject h _ _

theorem onTable_cleared {α : Type} (x : EStateM Error TableAccess α)
    (h : s.database.objects[id]? = some t) :
    (∀ a access, x ⟨t.clearDirtyTracking, s.transactions⟩ = .ok a access →
        onTable id x (s.cleared id) = .ok a (s.putBack id access)) ∧
      ∀ e access, x ⟨t.clearDirtyTracking, s.transactions⟩ = .error e access →
        onTable id x (s.cleared id) = .error e (s.putBack id access) := by
  have hobject : (s.cleared id).database.objects[id]? = some t.clearDirtyTracking := by
    rw [getElem?_cleared h, if_pos rfl]
  have hput : ∀ access, (s.cleared id).putBack id access = s.putBack id access := fun access => by
    rw [cleared_eq h]
    simp [putBack, setObject, Database.setObject]
  have htxns : (s.cleared id).transactions = s.transactions := by
    rw [cleared_eq h]
    rfl
  constructor
  · intro a access hx
    simp only [onTable, hobject, htxns, hx, hput]
  · intro e access hx
    simp only [onTable, hobject, htxns, hx, hput]

theorem onTable_cleared_ok {α : Type} {x : EStateM Error TableAccess α} {a : α}
    {access : TableAccess} (h : s.database.objects[id]? = some t)
    (hx : x ⟨t.clearDirtyTracking, s.transactions⟩ = .ok a access) :
    onTable id x (s.cleared id) = .ok a (s.putBack id access) :=
  (onTable_cleared x h).1 a access hx

theorem requireTable_ok {name : String} (h : s.database.table name = some (id, t)) :
    requireTable name s = .ok (id, t) s := by
  rw [requireTable, get_bind, h]
  rfl

theorem object_ok (h : s.database.objects[id]? = some t) : object id s = .ok t s := by
  rw [object, get_bind, h]
  rfl

theorem withUndo_eq (undo : UndoRecord) (s : Engine) :
    withUndo undo s = { s with session := { s.session with
      undoLog :=
        if s.transactionActive then undo :: s.session.undoLog else s.session.undoLog } } := by
  unfold withUndo
  split_ifs <;> rfl

theorem appendWal_eq (record : PendingWalRecord) (s : Engine) :
    appendWal record s = { s with
      session := { s.session with
        pendingWal :=
          if s.transactionActive then s.session.pendingWal ++ [record] else s.session.pendingWal }
      wal := if s.transactionActive then s.wal else s.wal ++ [record] } := by
  unfold appendWal
  split_ifs <;> rfl

section Logged

variable (hobject : s.database.objects[id]? = some t) (access : TableAccess) (undo : UndoRecord)
  (redoName : String)
include hobject

/-- A logged change of an object: the object has its marks cleared, and the redo record is pending
in a transaction and written to the log outside of one. -/
theorem logged_eq :
    s.logged id access undo redoName =
      appendWal (.pageImageRedo [⟨redoName, access.table.takePageImageCapture.1⟩])
        (withUndo undo { s with
          database := s.database.setObject id access.table.clearDirtyTracking
          transactions := access.transactions }) := by
  have hput : (withUndo undo (s.putBack id access)).database = s.database.setObject id
      access.table := by
    rw [withUndo_eq]
    rfl
  have hfound : (withUndo undo (s.putBack id access)).database.objects[id]? =
      some access.table := by
    rw [hput, Database.getElem?_setObject hobject, if_pos rfl]
  rw [logged, withRedo, hfound]
  simp [withUndo_eq, putBack, setObject, transactionActive, Database.setObject,
    Table.takePageImageCapture, Table.clearDirtyTracking, PageRowStore.takePageImageCapture]
  rfl

theorem database_logged :
    (s.logged id access undo redoName).database =
      s.database.setObject id access.table.clearDirtyTracking := by
  rw [logged_eq hobject, appendWal_eq, withUndo_eq]

theorem transactions_logged :
    (s.logged id access undo redoName).transactions = access.transactions := by
  rw [logged_eq hobject, appendWal_eq, withUndo_eq]

theorem sameSession_logged : s.SameSession (s.logged id access undo redoName) := by
  rw [logged_eq hobject, appendWal_eq, withUndo_eq]
  exact ⟨rfl, rfl⟩

end Logged

/-- The insertion of a row that the checks accept and the indexes have keys for. -/
theorem insertRow_ok (tableName : String) (writerId : ℕ)
    (hobject : s.database.objects[id]? = some t) (hstore : t.clearDirtyTracking.rowStore.Valid)
    (hm : t.indexManager.Registered) {row : Row}
    (hrow : t.clearDirtyTracking.assertUniqueRow row none = .ok ()) (hidxable : t.Indexable row) :
    insertRow id tableName writerId row s = .ok ⟨⟩
      (s.logged id (TableAccess.afterInsert ⟨t.clearDirtyTracking, s.transactions⟩ row writerId)
        (.row tableName (.insert t.rowStore.nextRowId)) tableName) := by
  have hinsert : TableAccess.insert row writerId ⟨t.clearDirtyTracking, s.transactions⟩ =
      .ok t.rowStore.nextRowId
        (TableAccess.afterInsert ⟨t.clearDirtyTracking, s.transactions⟩ row writerId) := by
    rw [TableAccess.insert, bind_of_ok (TableAccess.onTable_ok
      (Table.insert_ok_of_indexable hstore hm hrow hidxable writerId)), modify_bind]
    rfl
  rw [insertRow, clearDirtyTracking, modify_bind, bind_of_ok (onTable_cleared_ok hobject hinsert)]
  rfl

end Evaluation

/-- `eraseTarget` on a row that is live and was not erased before. -/
theorem eraseTarget_ok (hobject : s.database.objects[id]? = some t) (ht : t.Searchable)
    (tableName : String) {rowId : ℕ} {row : Row} (hget : t.rowStore.get rowId = some row)
    (image : Row) (writerId : ℕ) {marks : DeleteMarks}
    (hmarks : (tableName, rowId) ∉ marks.deleted) :
    eraseTarget id tableName rowId image writerId marks s =
      .ok { marks with deleted := (tableName, rowId) :: marks.deleted }
        (s.logged id (TableAccess.afterErase ⟨t.clearDirtyTracking, s.transactions⟩ rowId writerId)
          (.row tableName (.delete rowId image)) t.name) := by
  have hs : (⟨t.clearDirtyTracking, s.transactions⟩ : TableAccess).table.Searchable :=
    ht.clearDirtyTracking
  rcases TableAccess.erase_cases hs rowId writerId with ⟨-, hnone⟩ | ⟨_, -, hrun⟩
  · rw [show t.rowStore.get rowId = none from hnone] at hget
    cases hget
  · rw [eraseTarget, ite_run, if_neg hmarks, bind_of_ok (object_ok hobject), clearDirtyTracking,
      modify_bind, bind_of_ok (onTable_cleared_ok hobject hrun)]
    rfl

end Engine

end VertexDB
