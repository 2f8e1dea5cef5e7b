import VertexDB.Execution.Engine
import VertexDB.Execution.ForeignKeys

/-!
# INSERT and DELETE

The statements of `src/execution/dml_engine.cpp` with their referential actions. How DELETE
finds its target rows is a parameter: a scan that returns visible rows of the table, which the scan
of `SelectScan` is.
-/

namespace VertexDB

open Exec

/-- The scan of a statement with a filter of type `W`: `planSelect` and `collectVisibleEntries`. -/
structure TargetScan (W : Type) where
  targets : W → Table → ReadSnapshot → TransactionManager → Except Error (List (ℕ × Row))
  visible : ∀ filter t snapshot transactions entries,
    targets filter t snapshot transactions = .ok entries →
      ∀ r row, (r, row) ∈ entries → t.versions.read r snapshot transactions = some row

/-- `Insert`. -/
structure Insert where
  table : String
  rows : List Row

/-- `Delete`. -/
structure Delete (W : Type) where
  table : String
  filter : W

/-- The sets `visiting` and `deleted` of a DELETE. The source joins the table name and the row id
to one string. -/
structure DeleteMarks where
  visiting : List (String × ℕ) := []
  deleted : List (String × ℕ) := []

namespace Engine

/-- The table object that a pointer of the source refers to. -/
def object (id : ℕ) : EStateM Error Engine Table := do
  let s ← EStateM.get
  match s.database.objects[id]? with
  | none => throw (.runtimeError "unknown table")
  | some t => return t

/-- The position of a column of a foreign key in the child table. -/
def childIndex (child : Table) (column : String) : Except Error ℕ :=
  match child.columnIndex column with
  | none => throw (.invalidArgument ("FOREIGN KEY child column not found: " ++ column))
  | some index => pure index

theorem childIndex_eq_ok {child : Table} {column : String} {index : ℕ} :
    childIndex child column = .ok index ↔ child.columnIndex column = some index := by
  unfold childIndex
  cases child.columnIndex column with
  | none => simp
  | some i => simp [pure, Except.pure]

section ReferentialActions

/-- The loop of a referential action over the columns it changes: whether a row was changed. -/
def updateCells (id rowId : ℕ) (value : Value) (writerId : ℕ) : List ℕ → EStateM Error Engine Bool
  | [] => return false
  | index :: indexes => do
    clearDirtyTracking id
    let changed ← onTable id (TableAccess.update rowId index value writerId)
    let others ← updateCells id rowId value writerId indexes
    return changed || others

/-- The changes of a referential action on one child row, with one undo record that has the row as
it was read and one redo record. -/
def changeChildRow (hit : ForeignKeyChildHit) (indexes : List ℕ) (value : Value) (writerId : ℕ) :
    EStateM Error Engine Unit := do
  if ← updateCells hit.table hit.rowId value writerId indexes then
    pushUndoIfActive (.row hit.tableName (.update hit.rowId hit.row))
    appendPageImageRedo hit.table hit.tableName

/-- A referential action on one child row: the checks of the changed row and the changes. -/
def updateChildRow (hit : ForeignKeyChildHit) (indexes : List ℕ) (value : Value)
    (snapshot : ReadSnapshot) (writerId : ℕ) : EStateM Error Engine Unit := do
  let child ← object hit.table
  let s ← EStateM.get
  let updated := indexes.foldl (fun row index => row.set index value) hit.row
  Exec.ofExcept (child.validateRow updated)
  Exec.ofExcept (child.assertUniqueRow updated (some hit.rowId))
  Exec.ofExcept (assertForeignKeysOnChildRow snapshot s.transactions s.database child updated)
  changeChildRow hit indexes value writerId

/-- The SET NULL action on a child row. -/
def setNullChild (hit : ForeignKeyChildHit) (snapshot : ReadSnapshot) (writerId : ℕ) :
    EStateM Error Engine Unit := do
  let child ← object hit.table
  let indexes ← Exec.ofExcept (hit.fk.childColumns.mapM (childIndex child))
  updateChildRow hit indexes .null snapshot writerId

/-- The end of `eraseRowWithReferentialActions`: the row itself is erased. -/
def eraseTarget (table : ℕ) (tableName : String) (rowId : ℕ) (row : Row) (writerId : ℕ)
    (marks : DeleteMarks) : EStateM Error Engine DeleteMarks := do
  if (tableName, rowId) ∈ marks.deleted then return marks
  let t ← object table
  clearDirtyTracking table
  if ← onTable table (TableAccess.erase rowId writerId) then
    pushUndoIfActive (.row tableName (.delete rowId row))
    appendPageImageRedo table t.name
    return { marks with deleted := (tableName, rowId) :: marks.deleted }
  else return marks

/-- `DmlEngine::eraseRowWithReferentialActions`; `depthLeft` is how much deeper the recursion may
go. -/
def eraseRowWithReferentialActions : (depthLeft : ℕ) → (table : ℕ) → (tableName : String) →
    (rowId : ℕ) → (row : Row) → DeleteMarks → EStateM Error Engine DeleteMarks
  | 0, _, _, _, _, _ => throw (.invalidArgument "FOREIGN KEY CASCADE depth exceeded")
  | depthLeft + 1, table, tableName, rowId, row, marks => do
    if (tableName, rowId) ∈ marks.deleted then return marks
    if (tableName, rowId) ∈ marks.visiting then return marks
    let s ← EStateM.get
    let snapshot := s.readSnapshot
    let writerId ← writeTransactionId
    let t ← object table
    let s ← EStateM.get
    let refs := collectReferencingChildren snapshot s.transactions s.database t row none
    Exec.ofExcept (assertNoActionParentKeyNotReferenced refs false)
    let marks ← refs.foldlM (fun marks hit =>
      if hit.fk.onDelete ≠ .cascade then pure marks
      else eraseRowWithReferentialActions depthLeft hit.table hit.tableName hit.rowId hit.row marks)
      { marks with visiting := (tableName, rowId) :: marks.visiting }
    refs.forM fun hit =>
      if hit.fk.onDelete ≠ .setNull ∨ (hit.tableName, hit.rowId) ∈ marks.deleted then pure ()
      else setNullChild hit snapshot writerId
    let marks ← eraseTarget table tableName rowId row writerId marks
    return { marks with visiting := marks.visiting.erase (tableName, rowId) }

end ReferentialActions

/-- The checks of `executeInsert` on the rows still to come, after the rows `earlier`. -/
def checkRows (snapshot : ReadSnapshot) (s : Engine) (t : Table) :
    (earlier rows : List Row) → Except Error Unit
  | _, [] => pure ()
  | earlier, row :: rows => do
    t.validateRow row
    t.assertUniqueRow row none
    assertForeignKeysOnChildRow snapshot s.transactions s.database t row
    if earlier.any fun other => t.rowsConflictOnUnique row other then
      throw (.invalidArgument "unique constraint violation on batch insert")
    checkRows snapshot s t (earlier ++ [row]) rows

/-- The insertion of one row in `executeInsert`. -/
def insertRow (table : ℕ) (tableName : String) (writerId : ℕ) (row : Row) :
    EStateM Error Engine Unit := do
  clearDirtyTracking table
  let rowId ← onTable table (TableAccess.insert row writerId)
  pushUndoIfActive (.row tableName (.insert rowId))
  appendPageImageRedo table tableName

/-- `DmlEngine::executeInsert`. -/
def executeInsert (command : Insert) : EStateM Error Engine QueryResult := do
  let (id, t) ← requireTable command.table
  let s ← EStateM.get
  Exec.ofExcept (checkRows s.readSnapshot s t [] command.rows)
  let writerId ← writeTransactionId
  command.rows.forM (insertRow id command.table writerId)
  return ⟨true, "inserted " ++ toString command.rows.length ++ " row(s)"⟩

section Scans

variable {W : Type} (scan : TargetScan W)

/-- The deletion of one target row in `executeDelete`; `kMaxReferentialActionDepth` is 64. -/
def deleteTarget (id : ℕ) (command : Delete W) (state : ℕ × DeleteMarks) (entry : ℕ × Row) :
    EStateM Error Engine (ℕ × DeleteMarks) := do
  let (count, marks) := state
  if (command.table, entry.1) ∈ marks.deleted then return state
  let marks ← eraseRowWithReferentialActions 64 id command.table entry.1 entry.2 marks
  return (if (command.table, entry.1) ∈ marks.deleted then count + 1 else count, marks)

/-- `DmlEngine::executeDelete`. -/
def executeDelete (command : Delete W) : EStateM Error Engine QueryResult := do
  let (id, t) ← requireTable command.table
  let s ← EStateM.get
  let targets ← Exec.ofExcept (scan.targets command.filter t s.readSnapshot s.transactions)
  let (count, _) ← targets.foldlM (deleteTarget id command) (0, {})
  return ⟨true, "deleted " ++ toString count ++ " row(s)"⟩

end Scans

end Engine

end VertexDB
