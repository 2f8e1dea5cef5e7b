import VertexDB.Indexing.IndexManager
import VertexDB.Storage.CheckEval
import VertexDB.Transaction.MvccRowStore

/-!
# Tables

A table with its constraints, its heap, its indexes and its version chains: the row operations of
`src/storage/table.cpp`, the constraint checks of `src/storage/table_constraints.cpp` and the undo
operations of `src/storage/table_recovery.cpp`. The statistics of ANALYZE and the locks are not part
of the model; the conflict sets the row operations report to the transaction manager are recorded
by their callers.
-/

namespace VertexDB

open Exec

/-- `ForeignKeyAction`. -/
inductive ForeignKeyAction where
  | noAction
  | cascade
  | setNull
  deriving DecidableEq, Repr

/-- `ForeignKeyConstraint`. -/
structure ForeignKeyConstraint where
  childColumns : List String
  parentTable : String
  parentColumns : List String
  onDelete : ForeignKeyAction := .noAction
  onUpdate : ForeignKeyAction := .noAction
  deriving DecidableEq, Repr

/-- `UniqueConstraint`. -/
structure UniqueConstraint where
  columns : List String
  primaryKey : Bool := false
  deriving DecidableEq, Repr

/-- `Table`. -/
structure Table where
  name : String
  schema : List Column
  checkConstraints : List CheckPredicate := []
  foreignKeys : List ForeignKeyConstraint := []
  uniqueConstraints : List UniqueConstraint := []
  rowStore : PageRowStore := {}
  indexManager : IndexManager := {}
  versions : MvccRowStore := {}

namespace Table

/-- `Table::columnIndex`. -/
def columnIndex (t : Table) (column : String) : Option ℕ := findColumn t.schema column

/-- The check of one cell against its column in `validateRow` and `update`. -/
def validateCell (value : Value) (column : Column) (mismatch : String) : Except Error Unit :=
  if value.isNull then
    if column.nullable then pure ()
    else throw (.invalidArgument ("NOT NULL constraint violation on column " ++ column.name))
  else do
    if (← value.type) ≠ column.type then throw (.invalidArgument mismatch)

/-- The loop of `enforceCheckConstraints`. -/
def enforceChecks (row : Row) (lookup : String → Option ℕ) :
    List CheckPredicate → Except Error Unit
  | [] => pure ()
  | check :: checks => do
    if !(← evalCheckPredicate check row lookup) then
      throw (.invalidArgument ("CHECK constraint violation: " ++ checkConstraintLiteral check))
    enforceChecks row lookup checks

/-- `Table::enforceCheckConstraints`. -/
def enforceCheckConstraints (t : Table) (row : Row) : Except Error Unit :=
  enforceChecks row t.columnIndex t.checkConstraints

/-- The loop of `validateRow` over the cells. -/
def validateCells : Row → List Column → Except Error Unit
  | value :: row, column :: schema => do
    validateCell value column "row value does not match column type"
    validateCells row schema
  | _, _ => pure ()

/-- `Table::validateRow`. -/
def validateRow (t : Table) (row : Row) : Except Error Unit := do
  if row.length ≠ t.schema.length then
    throw (.invalidArgument "row width does not match table schema")
  validateCells row t.schema
  t.enforceCheckConstraints row

/-- `Table::allUniqueConstraints`. -/
def allUniqueConstraints (t : Table) : List UniqueConstraint :=
  t.uniqueConstraints ++
    (t.schema.filter fun column =>
      (column.unique || column.primaryKey) &&
        !t.uniqueConstraints.any fun c => c.columns = [column.name]).map fun column =>
      { columns := [column.name], primaryKey := column.primaryKey }

/-- The loop of `uniqueKeyForRow`. -/
def uniqueKeyParts (t : Table) (row : Row) : List String → Except Error (List Value)
  | [] => pure []
  | column :: columns =>
    match t.columnIndex column with
    | none => throw (.runtimeError "unknown unique constraint column")
    | some index => do return row.at index :: (← t.uniqueKeyParts row columns)

/-- `Table::uniqueKeyForRow`. -/
def uniqueKeyForRow (t : Table) (constraint : UniqueConstraint) (row : Row) :
    Except Error Value := do
  Value.makeComposite (← t.uniqueKeyParts row constraint.columns)

/-- `Table::uniqueRowsEqual`. -/
def uniqueRowsEqual (t : Table) (constraint : UniqueConstraint) (left right : Row) : Bool :=
  constraint.columns.all fun column =>
    match t.columnIndex column with
    | some index =>
      !(left.at index).isNull && !(right.at index).isNull && (left.at index).beq (right.at index)
    | none => false

/-- `Table::rowsConflictOnUnique`. -/
def rowsConflictOnUnique (t : Table) (left right : Row) : Bool :=
  t.allUniqueConstraints.any fun constraint => t.uniqueRowsEqual constraint left right

/-- `Table::formatUniqueColumns`. -/
def formatUniqueColumns (constraint : UniqueConstraint) : String :=
  match constraint.columns with
  | [column] => column
  | columns => "(" ++ ", ".intercalate columns ++ ")"

/-- `Table::indexedLookup` on columns. -/
def indexedLookup (t : Table) (columns : List String) (key : Value) : Option (List ℕ) :=
  t.indexManager.indexedLookup columns key t.schema

/-- `Table::indexedLookup` on an expression. -/
def expressionLookup (t : Table) (expression : IndexExpression) (value : Value) :
    Option (List ℕ) :=
  t.indexManager.expressionLookup expression value

/-- `Table::orderedLookup` on a column. -/
def orderedLookup (t : Table) (column : String) (op : ComparisonOperator) (value : Value) :
    Option (List ℕ) :=
  t.indexManager.orderedLookup column op value t.schema

/-- `Table::orderedLookup` on an expression. -/
def orderedExpressionLookup (t : Table) (expression : IndexExpression) (op : ComparisonOperator)
    (value : Value) : Option (List ℕ) :=
  t.indexManager.orderedExpressionLookup expression op value

/-- Another row than the excluded one has the key of the constraint: an index on the columns
answers when there is one, a scan of the live rows otherwise. -/
def uniqueConflict (t : Table) (constraint : UniqueConstraint) (row : Row) (key : Value)
    (excludeRowId : Option ℕ) : Bool :=
  match t.indexedLookup constraint.columns key with
  | some hits => hits.any fun hit => excludeRowId ≠ some hit
  | none => t.rowStore.liveEntries.any fun entry =>
    excludeRowId ≠ some entry.1 && t.uniqueRowsEqual constraint row entry.2

/-- The loop of `enforceUniqueConstraintsUnlocked`. -/
def enforceUniques (t : Table) (row : Row) (excludeRowId : Option ℕ) :
    List UniqueConstraint → Except Error Unit
  | [] => pure ()
  | constraint :: constraints => do
    let key ← t.uniqueKeyForRow constraint row
    if !key.hasNullCompositePart && t.uniqueConflict constraint row key excludeRowId then
      throw (.invalidArgument
        ("unique constraint violation on column " ++ formatUniqueColumns constraint))
    t.enforceUniques row excludeRowId constraints

/-- `Table::enforceUniqueConstraintsUnlocked`. -/
def enforceUniqueConstraintsUnlocked (t : Table) (row : Row) (excludeRowId : Option ℕ) :
    Except Error Unit :=
  t.enforceUniques row excludeRowId t.allUniqueConstraints

/-- `Table::assertUniqueRow`. -/
def assertUniqueRow (t : Table) (row : Row) (excludeRowId : Option ℕ) : Except Error Unit := do
  t.validateRow row
  t.enforceUniqueConstraintsUnlocked row excludeRowId

/-- A call on the row store of a table. -/
def onRowStore {α : Type} (x : EStateM Error PageRowStore α) : EStateM Error Table α :=
  zoom Table.rowStore (fun rowStore t => { t with rowStore := rowStore }) x

/-- A call on the version store of a table. -/
def onVersions (f : MvccRowStore → MvccRowStore) : EStateM Error Table Unit :=
  modify fun t => { t with versions := f t.versions }

/-- A call on the index manager of a table. -/
def onIndexes {α : Type} (x : Table → EStateM Error IndexManager α) : EStateM Error Table α := do
  let t ← EStateM.get
  zoom Table.indexManager (fun indexManager t => { t with indexManager := indexManager }) (x t)

/-- `Table::addRowToIndexes`. -/
def addRowToIndexes (rowId : ℕ) : EStateM Error Table Unit :=
  onIndexes fun t => IndexManager.addRowToIndexes rowId t.rowStore t.schema

/-- `Table::rebuildIndexes`. -/
def rebuildIndexes : EStateM Error Table Unit :=
  onIndexes fun t => IndexManager.rebuildIndexes t.rowStore t.schema

/-- `versions_.write(rowId, *rowStore_->get(rowId), writerId)`. -/
def writeVersion (rowId writerId : ℕ) : EStateM Error Table Unit := do
  let t ← EStateM.get
  onVersions fun versions => versions.write rowId ((t.rowStore.get rowId).getD []) writerId

/-- `Table::insert`. -/
def insert (row : Row) (writerId : ℕ) : EStateM Error Table ℕ := do
  let t ← EStateM.get
  Exec.ofExcept (t.validateRow row)
  Exec.ofExcept (t.enforceUniqueConstraintsUnlocked row none)
  let rowId ← onRowStore (PageRowStore.append row)
  writeVersion rowId writerId
  addRowToIndexes rowId
  return rowId

/-- `Table::erase`. -/
def erase (rowId writerId : ℕ) : EStateM Error Table Bool := do
  let t ← EStateM.get
  if (t.rowStore.get rowId).isNone then return false
  onVersions fun versions => versions.erase rowId writerId
  if !(← onRowStore (PageRowStore.erase rowId)) then return false
  rebuildIndexes
  return true

/-- The row `Table::update` is about to store, after its checks. -/
def updatedRow (t : Table) (row : Row) (rowId index : ℕ) (column : Column) (value : Value) :
    Except Error Row := do
  validateCell value column "updated value does not match column type"
  let updated := row.set index value
  t.enforceCheckConstraints updated
  t.enforceUniqueConstraintsUnlocked updated (some rowId)
  return updated

/-- `Table::update`. -/
def update (rowId index : ℕ) (value : Value) (writerId : ℕ) : EStateM Error Table Bool := do
  let t ← EStateM.get
  match t.rowStore.get rowId, t.schema[index]? with
  | some row, some column =>
    let updated ← Exec.ofExcept (t.updatedRow row rowId index column value)
    if !(← onRowStore (PageRowStore.update rowId updated)) then return false
    writeVersion rowId writerId
    rebuildIndexes
    return true
  | _, _ => return false

/-- `Table::eraseDiscardingVersion`. -/
def eraseDiscardingVersion (rowId : ℕ) : EStateM Error Table Bool := do
  let t ← EStateM.get
  if (t.rowStore.get rowId).isNone then return false
  if !(← onRowStore (PageRowStore.erase rowId)) then return false
  onVersions fun versions => (versions.popLatestVersion rowId).2
  rebuildIndexes
  return true

/-- `Table::replaceRow`. -/
def replaceRow (rowId : ℕ) (row : Row) : EStateM Error Table Bool := do
  let t ← EStateM.get
  Exec.ofExcept (t.validateRow row)
  if (t.rowStore.get rowId).isNone then return false
  Exec.ofExcept (t.enforceUniqueConstraintsUnlocked row (some rowId))
  if !(← onRowStore (PageRowStore.update rowId row)) then return false
  onVersions fun versions => (versions.popLatestVersion rowId).2
  rebuildIndexes
  return true

/-- `Table::revive`. -/
def revive (rowId : ℕ) (row : Row) : EStateM Error Table Bool := do
  let t ← EStateM.get
  Exec.ofExcept (t.validateRow row)
  Exec.ofExcept (t.enforceUniqueConstraintsUnlocked row (some rowId))
  if !(← onRowStore (PageRowStore.revive rowId row)) then return false
  onVersions fun versions => (versions.clearLatestDeletedBy rowId).2
  rebuildIndexes
  return true

/-- `Table::liveEntries`. -/
def liveEntries (t : Table) : List (ℕ × Row) := t.rowStore.liveEntries

/-- `Table::visibleEntries`. -/
def visibleEntries (t : Table) (snapshot : ReadSnapshot) (transactions : TransactionManager) :
    List (ℕ × Row) :=
  t.versions.visibleEntries snapshot transactions

end Table

end VertexDB
