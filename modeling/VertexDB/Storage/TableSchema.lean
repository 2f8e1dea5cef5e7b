import VertexDB.Storage.Database
import VertexDB.Storage.SparseLayout

/-!
# Schema changes of a table

The constructor of a table, ALTER TABLE with its undo, the maintenance of index definitions and the
physical redo of rows, as in `src/storage/table.cpp`, `table_schema.cpp`, `table_indexes.cpp`,
`table_constraints.cpp` and `table_snapshot_io.cpp`. The histograms that the schema changes rewrite
are not part of the model. An exception in the middle of a loop over the version chains leaves them
as they were before the loop.
-/

namespace VertexDB

open Exec

/-- `collectCheckColumns`. -/
def collectCheckColumns : CheckPredicate → List String
  | .and left right | .or left right => collectCheckColumns left ++ collectCheckColumns right
  | .comparison node => node.column :: node.rhsColumn.toList
  | _ => []

/-- `checkReferencesColumn`. -/
def checkReferencesColumn (predicate : CheckPredicate) (columnName : String) : Bool :=
  (collectCheckColumns predicate).contains columnName

/-- A name after a column has been renamed. -/
def renameName (oldName newName name : String) : String := if name = oldName then newName else name

/-- `renameNameList`. -/
def renameNameList (oldName newName : String) (names : List String) : List String :=
  names.map (renameName oldName newName)

/-- `renameCheckColumn`. -/
def renameCheckColumn (oldName newName : String) : CheckPredicate → CheckPredicate
  | .and left right =>
    .and (renameCheckColumn oldName newName left) (renameCheckColumn oldName newName right)
  | .or left right =>
    .or (renameCheckColumn oldName newName left) (renameCheckColumn oldName newName right)
  | .comparison node =>
    .comparison { node with
      column := renameName oldName newName node.column
      rhsColumn := node.rhsColumn.map (renameName oldName newName) }
  | .inList node => .inList { node with column := renameName oldName newName node.column }
  | .like node => .like { node with column := renameName oldName newName node.column }
  | .regex node => .regex { node with column := renameName oldName newName node.column }
  | .inSubquery column subquery referencesOuter =>
    .inSubquery (renameName oldName newName column) subquery referencesOuter
  | .exists subquery referencesOuter => .exists subquery referencesOuter

/-- `indexReferencesColumn`. -/
def indexReferencesColumn (definition : IndexDefinition) (columnName : String) : Bool :=
  match definition.expression with
  | some expression => expression.column = columnName
  | none => definition.columns.contains columnName

/-- `uniqueReferencesColumn`. -/
def uniqueReferencesColumn (constraint : UniqueConstraint) (columnName : String) : Bool :=
  constraint.columns.contains columnName

/-- `foreignKeyReferencesColumn`. -/
def foreignKeyReferencesColumn (fk : ForeignKeyConstraint) (columnName : String) : Bool :=
  fk.childColumns.contains columnName

/-- `columnIsForeignKeyParent`. -/
def columnIsForeignKeyParent (database : Database) (tableName columnName : String) : Bool :=
  database.tables.any fun entry => entry.2.foreignKeys.any fun fk =>
    fk.parentTable = tableName && fk.parentColumns.contains columnName

/-- `columnIsForeignKeyChild`. -/
def columnIsForeignKeyChild (t : Table) (columnName : String) : Bool :=
  t.foreignKeys.any fun fk => foreignKeyReferencesColumn fk columnName

namespace MvccRowStore

/-- `MVCCRowStore::transformRows`. -/
def transformRows (s : MvccRowStore) (fn : Row → Row) : MvccRowStore :=
  { versions := s.versions.map fun _ chain =>
      chain.map fun version => { version with row := fn version.row } }

/-- `MVCCRowStore::extractColumn`. The values of a chain stand in the order of the chain. -/
def extractColumn (s : MvccRowStore) (columnIndex : ℕ) :
    Except Error (List (ℕ × List Value) × MvccRowStore) :=
  if s.versions.toList.any fun entry =>
      entry.2.any fun version => version.row.length ≤ columnIndex then
    throw (.runtimeError "MVCC row narrower than schema during ALTER")
  else
    return (s.versions.toList.map fun entry =>
        (entry.1, entry.2.map fun version => version.row.at columnIndex),
      s.transformRows fun row => row.eraseIdx columnIndex)

/-- One chain of `insertColumn`. -/
def insertIntoChain (columnIndex : ℕ) (chain : List RowVersion)
    (columnValues : Option (List Value)) :
    Except Error (List RowVersion) :=
  match columnValues with
  | none => throw (.runtimeError "ALTER undo version column values mismatch")
  | some columnValues =>
    if columnValues.length ≠ chain.length then
      throw (.runtimeError "ALTER undo version column values mismatch")
    else if chain.any fun version => version.row.length < columnIndex then
      throw (.runtimeError "ALTER undo column index out of range")
    else
      return List.zipWith (fun version value =>
        { version with row := version.row.insertIdx columnIndex value }) chain columnValues

/-- `MVCCRowStore::insertColumn`; the first values given for a row id count. -/
def insertColumn (s : MvccRowStore) (columnIndex : ℕ) (values : List (ℕ × List Value)) :
    Except Error MvccRowStore :=
  s.versions.toList.foldlM (fun (s : MvccRowStore) entry => do
    let columnValues := (values.find? fun value => value.1 = entry.1).map Prod.snd
    let chain ← insertIntoChain columnIndex entry.2 columnValues
    return { versions := s.versions.insert entry.1 chain }) s

end MvccRowStore

namespace IndexManager

/-- The positions after the column at `index` is gone: those after it move down. -/
def shiftErased (index position : ℕ) : ℕ := if index < position then position - 1 else position

/-- The positions after a column has been put at `index`: those from there on move up. -/
def shiftInserted (index position : ℕ) : ℕ := if index ≤ position then position + 1 else position

/-- The loop of `dropColumn` over the positions of one index: whether it throws, and the positions
it leaves. -/
def shiftPositions (index : ℕ) : List ℕ → Bool × List ℕ
  | [] => (false, [])
  | position :: positions =>
    if position = index then (true, position :: positions)
    else
      ((shiftPositions index positions).1,
        shiftErased index position :: (shiftPositions index positions).2)

/-- One index in the loop of `dropColumn` over the positions of the indexes. -/
def erasePosition (index : ℕ) (entry : String × List ℕ) : EStateM Error IndexManager Unit := do
  modify fun m => { m with
    indexColumns := m.indexColumns.insert entry.1 (shiftPositions index entry.2).2 }
  if (shiftPositions index entry.2).1 then
    throw (.runtimeError "index still references dropped column")

/-- The loop of `dropColumn` over the positions of the indexes. -/
def eraseColumn (index : ℕ) : EStateM Error IndexManager Unit := do
  let m ← EStateM.get
  forM m.indexColumns.toList (erasePosition index)

/-- The loop of `restoreDroppedColumn` over the positions of the indexes. -/
def insertColumn (m : IndexManager) (index : ℕ) : IndexManager :=
  { m with
    indexColumns := m.indexColumns.map fun _ positions => positions.map (shiftInserted index) }

/-- The loop of `renameColumn` over the expressions of the indexes. -/
def renameColumn (m : IndexManager) (oldName newName : String) : IndexManager :=
  { m with
    indexExpressions := m.indexExpressions.map fun _ expression =>
      { expression with column := renameName oldName newName expression.column } }

end IndexManager

namespace Table

section Constructor

/-- The loop of `validateUniqueConstraintColumns`, with the names seen so far. -/
def validateUniqueColumns (schema : List Column) (primaryKey : Bool) :
    List String → List String → Except Error Unit
  | _, [] => pure ()
  | seen, name :: names => do
    if name ∈ seen then
      throw (.invalidArgument ("duplicate column in UNIQUE / PRIMARY KEY: " ++ name))
    match schema.find? fun column => column.name = name with
    | none => throw (.invalidArgument ("unknown UNIQUE / PRIMARY KEY column: " ++ name))
    | some column =>
      if primaryKey && column.nullable then
        throw (.invalidArgument ("PRIMARY KEY column cannot be NULL: " ++ name))
      validateUniqueColumns schema primaryKey (name :: seen) names

/-- `validateUniqueConstraintColumns`. -/
def validateUniqueConstraintColumns (constraint : UniqueConstraint) (schema : List Column) :
    Except Error Unit := do
  if constraint.columns = [] then
    throw (.invalidArgument "UNIQUE / PRIMARY KEY requires at least one column")
  validateUniqueColumns schema constraint.primaryKey [] constraint.columns

/-- The loop of the constructor over the columns, with `sawPrimaryKey`. -/
def checkPrimaryKeyColumns : Bool → List Column → Except Error Bool
  | sawPrimaryKey, [] => pure sawPrimaryKey
  | sawPrimaryKey, column :: schema => do
    if column.primaryKey then
      if sawPrimaryKey then
        throw (.invalidArgument "multiple PRIMARY KEY columns are not supported")
      if column.nullable then throw (.invalidArgument "PRIMARY KEY column cannot be NULL")
      if !column.unique then throw (.invalidArgument "PRIMARY KEY column must be UNIQUE")
    checkPrimaryKeyColumns (sawPrimaryKey || column.primaryKey) schema

/-- The loop of the constructor over the constraints: the schema, in which the columns of a PRIMARY
KEY become NOT NULL. -/
def applyUniqueConstraints : Bool → List Column → List UniqueConstraint → Except Error (List Column)
  | _, schema, [] => pure schema
  | sawPrimaryKey, schema, constraint :: constraints => do
    validateUniqueConstraintColumns constraint schema
    if constraint.primaryKey then
      if sawPrimaryKey then
        throw (.invalidArgument "multiple PRIMARY KEY constraints are not supported")
      applyUniqueConstraints true (schema.map fun column =>
        if constraint.columns.contains column.name then { column with nullable := false }
        else column) constraints
    else applyUniqueConstraints sawPrimaryKey schema constraints

/-- `Table::Table`. -/
def construct (name : String) (schema : List Column) (checkConstraints : List CheckPredicate)
    (foreignKeys : List ForeignKeyConstraint) (uniqueConstraints : List UniqueConstraint) :
    Except Error Table := do
  if name = "" then throw (.invalidArgument "table name cannot be empty")
  if schema = [] then throw (.invalidArgument "table schema cannot be empty")
  let sawPrimaryKey ← checkPrimaryKeyColumns false schema
  let schema ← applyUniqueConstraints sawPrimaryKey schema uniqueConstraints
  checkConstraints.forM assertSimpleCheckConstraint
  return {
    name := name
    schema := schema
    checkConstraints := checkConstraints
    foreignKeys := foreignKeys
    uniqueConstraints := uniqueConstraints }

end Constructor

section Indexes

/-- `Table::registerIndex`. -/
def registerIndex (name : String) (columnIndexes : List ℕ) (expression : Option IndexExpression)
    (rebuild : Bool) : EStateM Error Table Bool :=
  onIndexes fun t => IndexManager.registerIndex name columnIndexes expression rebuild t.rowStore
    t.schema

/-- `Table::createIndex` on columns. -/
def createIndex (name : String) (columns : List String) : EStateM Error Table Bool := do
  if columns = [] then return false
  let t ← EStateM.get
  match columns.mapM t.columnIndex with
  | none => return false
  | some indexes => registerIndex name indexes none true

/-- `Table::createIndex` on an expression. -/
def createExpressionIndex (name : String) (expression : IndexExpression) :
    EStateM Error Table Bool := do
  let t ← EStateM.get
  match t.columnIndex expression.column with
  | none => return false
  | some index => registerIndex name [index] (some expression) true

/-- `Table::dropIndex`. -/
def dropIndex (name : String) : EStateM Error Table Bool := do
  let t ← EStateM.get
  EStateM.set { t with indexManager := (t.indexManager.dropIndex name).2 }
  return (t.indexManager.dropIndex name).1

/-- `Table::constraintIndexName`. -/
def constraintIndexName (constraint : UniqueConstraint) : String :=
  (if constraint.primaryKey then "__pk_" else "__uq_") ++ "_".intercalate constraint.columns

/-- The index of a constraint in `ensureConstraintIndexes` and `restoreDroppedColumn`. -/
def ensureConstraintIndex (context : String) (rebuild : Bool) (constraint : UniqueConstraint) :
    EStateM Error Table Unit := do
  let t ← EStateM.get
  if t.indexManager.hasIndex constraint.columns t.schema then return ()
  let indexName := constraintIndexName constraint
  match constraint.columns.mapM t.columnIndex with
  | none => throw (.runtimeError (context ++ indexName))
  | some indexes =>
    if !(← registerIndex indexName indexes none rebuild) then
      throw (.runtimeError (context ++ indexName))

/-- `Table::ensureConstraintIndexes`. -/
def ensureConstraintIndexes : EStateM Error Table Unit := do
  let t ← EStateM.get
  forM t.allUniqueConstraints (ensureConstraintIndex "failed to create constraint index " true)

end Indexes

section Physical

/-- `TableSnapshotIO::applyPhysicalUpsert`, after the check of `Table::applyPhysicalUpsert`. -/
def applyPhysicalUpsert (rowId : ℕ) (row : Row) : EStateM Error Table Bool := do
  let t ← EStateM.get
  Exec.ofExcept (t.validateRow row)
  let existed := (t.rowStore.get rowId).isSome
  if !(← onRowStore (PageRowStore.upsertAt rowId row)) then return false
  writeVersion rowId systemTransactionId
  if existed then rebuildIndexes else addRowToIndexes rowId
  return true

/-- `TableSnapshotIO::applyPhysicalErase`. -/
def applyPhysicalErase (rowId : ℕ) : EStateM Error Table Bool := do
  let t ← EStateM.get
  if (t.rowStore.get rowId).isNone then return false
  if !(← onRowStore (PageRowStore.erase rowId)) then return false
  onVersions fun versions => (versions.popLatestVersion rowId).2
  rebuildIndexes
  return true

end Physical

section Columns

/-- One live row in a loop of a schema change: it is replaced by what it becomes. -/
def rewriteRow (rewrite : ℕ × Row → Except Error Row) (failed : String) (entry : ℕ × Row) :
    EStateM Error Table Unit := do
  let row ← Exec.ofExcept (rewrite entry)
  if !(← onRowStore (PageRowStore.update entry.1 row)) then throw (.runtimeError failed)

/-- The loops of the schema changes over the live rows. -/
def rewriteRows (rewrite : ℕ × Row → Except Error Row) (failed : String) :
    EStateM Error Table Unit := do
  let t ← EStateM.get
  forM t.rowStore.liveEntries (rewriteRow rewrite failed)

/-- The end of `addColumn`: the rows and their versions get the value. -/
def padColumn (column : Column) (pad : Value) : EStateM Error Table Unit := do
  let t ← EStateM.get
  if (t.columnIndex column.name).isSome then
    throw (.invalidArgument ("column already exists: " ++ column.name))
  EStateM.set { t with schema := t.schema ++ [column] }
  rewriteRows (fun entry => .ok (entry.2 ++ [pad])) "failed to pad row during ADD COLUMN"
  onVersions fun versions => versions.transformRows fun row => row ++ [pad]

/-- The case of `addColumn` without a value for the rows of a NOT NULL column: there may be none. -/
def addRequiredColumn (column : Column) : EStateM Error Table Unit := do
  let t ← EStateM.get
  if (t.columnIndex column.name).isSome then
    throw (.invalidArgument ("column already exists: " ++ column.name))
  if t.rowStore.liveEntries ≠ [] then
    throw (.invalidArgument
      "ALTER TABLE ADD COLUMN NOT NULL requires DEFAULT when the table has rows")
  EStateM.set { t with
    schema := t.schema ++ [column]
    versions := t.versions.transformRows fun row => row ++ [.null] }

/-- The checks of `addColumn` on the new column. -/
def validateNewColumn (column : Column) (fill : Option Value) : Except Error Unit := do
  if column.unique || column.primaryKey then
    throw (.invalidArgument "ALTER TABLE ADD COLUMN does not support UNIQUE / PRIMARY KEY")
  if column.name = "" then throw (.invalidArgument "column name cannot be empty")
  match fill with
  | none => pure ()
  | some value =>
    if value.isNull then
      if !column.nullable then
        throw (.invalidArgument "DEFAULT NULL requires a nullable column")
    else
      if (← value.type) ≠ column.type then
        throw (.invalidArgument "DEFAULT literal type does not match column type")

/-- `Table::addColumn`. -/
def addColumn (column : Column) (fill : Option Value) : EStateM Error Table Unit := do
  Exec.ofExcept (validateNewColumn column fill)
  if fill.isNone && !column.nullable then addRequiredColumn column
  else padColumn column (fill.getD .null)

/-- `Table::DroppedColumnCapture`. -/
structure DroppedColumnCapture where
  column : Column
  columnIndex : ℕ
  heapValues : List (ℕ × Value) := []
  versionValues : List (ℕ × List Value) := []
  cascaded : Bool := false
  droppedUserIndexes : List IndexDefinition := []
  droppedChecks : List CheckPredicate := []
  droppedUniques : List UniqueConstraint := []
  droppedChildForeignKeys : List ForeignKeyConstraint := []

/-- The lambda `rejectOrCascade` of `dropColumn`. -/
def rejectOrCascade (cascade dependent : Bool) (message : String) : Except Error Unit :=
  if dependent && !cascade then throw (.invalidArgument message) else pure ()

/-- The user indexes on the column; those of the constraints have reserved names. -/
def userIndexesOn (t : Table) (columnName : String) : List IndexDefinition :=
  (t.indexManager.indexDefinitions t.schema).filter fun definition =>
    !("__pk_".toList.isPrefixOf definition.name.toList ||
        "__uq_".toList.isPrefixOf definition.name.toList) &&
      indexReferencesColumn definition columnName

/-- The constraints that go with the column: those of the table, and that of the flags of the
column unless one of the table says the same. -/
def uniquesOn (t : Table) (column : Column) (columnName : String) : List UniqueConstraint :=
  let dropped := t.uniqueConstraints.filter fun constraint =>
    uniqueReferencesColumn constraint columnName
  if (column.primaryKey || column.unique) && !dropped.any fun c => c.columns = [columnName] then
    dropped ++ [{ columns := [columnName], primaryKey := column.primaryKey }]
  else dropped

/-- The dependents that `dropColumn` refuses or captures. -/
def captureDependents (t : Table) (column : Column) (index : ℕ) (columnName : String)
    (cascade : Bool) : Except Error DroppedColumnCapture := do
  let userIndexes := t.userIndexesOn columnName
  rejectOrCascade cascade (!userIndexes.isEmpty) "cannot DROP COLUMN: column is indexed"
  let checks := t.checkConstraints.filter fun check => checkReferencesColumn check columnName
  rejectOrCascade cascade (!checks.isEmpty) "cannot DROP COLUMN: column referenced by CHECK"
  rejectOrCascade cascade (columnIsForeignKeyChild t columnName)
    "cannot DROP COLUMN: column is a FOREIGN KEY child"
  rejectOrCascade cascade (column.primaryKey || column.unique)
    "cannot DROP COLUMN: column is PRIMARY KEY or UNIQUE"
  rejectOrCascade cascade
    (t.uniqueConstraints.any fun constraint => uniqueReferencesColumn constraint columnName)
    "cannot DROP COLUMN: column is part of a UNIQUE / PRIMARY KEY constraint"
  return {
    column := column
    columnIndex := index
    cascaded := cascade
    droppedUserIndexes := userIndexes
    droppedChecks := checks
    droppedUniques := t.uniquesOn column columnName
    droppedChildForeignKeys := t.foreignKeys.filter fun fk =>
      foreignKeyReferencesColumn fk columnName }

/-- One user index that goes with the column. -/
def cascadeDropIndex (definition : IndexDefinition) : EStateM Error Table Unit := do
  if !(← dropIndex definition.name) then
    throw (.runtimeError ("failed to CASCADE-drop index " ++ definition.name))

/-- The block of `dropColumn` for CASCADE. -/
def dropDependents (capture : DroppedColumnCapture) (columnName : String) :
    EStateM Error Table Unit := do
  forM capture.droppedUserIndexes cascadeDropIndex
  modify fun t => { t with
    checkConstraints := t.checkConstraints.filter fun check =>
      !checkReferencesColumn check columnName
    foreignKeys := t.foreignKeys.filter fun fk => !foreignKeyReferencesColumn fk columnName }
  forM capture.droppedUniques fun constraint => discard (dropIndex (constraintIndexName constraint))
  modify fun t => { t with
    uniqueConstraints := t.uniqueConstraints.filter fun constraint =>
      !uniqueReferencesColumn constraint columnName }

/-- A row without the column, in `dropColumn`. -/
def narrowRow (index : ℕ) (entry : ℕ × Row) : Except Error Row :=
  if entry.2.length ≤ index then
    throw (.runtimeError "heap row narrower than schema during DROP COLUMN")
  else return entry.2.eraseIdx index

/-- The end of `dropColumn`: the column leaves the rows, the versions, the schema and the positions
of the indexes. -/
def eraseColumn (index : ℕ) (capture : DroppedColumnCapture) :
    EStateM Error Table DroppedColumnCapture := do
  let t ← EStateM.get
  let heapValues := t.rowStore.liveEntries.map fun entry => (entry.1, entry.2.at index)
  rewriteRows (narrowRow index) "failed to rewrite row during DROP COLUMN"
  let (versionValues, versions) ← Exec.ofExcept (t.versions.extractColumn index)
  modify fun t => { t with versions := versions, schema := t.schema.eraseIdx index }
  onIndexes fun _ => IndexManager.eraseColumn index
  rebuildIndexes
  return { capture with heapValues := heapValues, versionValues := versionValues }

/-- `Table::dropColumn`. -/
def dropColumn (columnName : String) (database : Option Database) (cascade : Bool) :
    EStateM Error Table DroppedColumnCapture := do
  let t ← EStateM.get
  match t.columnIndex columnName with
  | none => throw (.invalidArgument ("unknown column: " ++ columnName))
  | some index =>
    if t.schema.length ≤ 1 then
      throw (.invalidArgument "cannot DROP the last column of a table")
    if database.any fun database => columnIsForeignKeyParent database t.name columnName then
      throw (.invalidArgument "cannot DROP COLUMN: column is referenced by FOREIGN KEY")
    -- the position is within the schema
    let column := t.schema.getD index { name := columnName, type := .int }
    let capture ← Exec.ofExcept (t.captureDependents column index columnName cascade)
    if cascade then dropDependents capture columnName
    eraseColumn index capture

/-- A row with the captured value, in `restoreDroppedColumn`. -/
def widenRow (capture : DroppedColumnCapture) (entry : ℕ × Row) : Except Error Row :=
  match capture.heapValues.find? fun value => value.1 = entry.1 with
  | none => throw (.runtimeError "ALTER DROP COLUMN undo missing heap value")
  | some value =>
    if entry.2.length < capture.columnIndex then
      throw (.runtimeError "ALTER DROP COLUMN undo heap index out of range")
    else return entry.2.insertIdx capture.columnIndex value.2

/-- One user index that `restoreDroppedColumn` registers again. -/
def restoreUserIndex (definition : IndexDefinition) : EStateM Error Table Unit := do
  let t ← EStateM.get
  let columns :=
    match definition.expression with
    | some expression => [expression.column]
    | none => definition.columns
  match columns.mapM t.columnIndex with
  | none => throw (.runtimeError ("failed to restore cascaded index " ++ definition.name))
  | some indexes =>
    if !(← registerIndex definition.name indexes definition.expression false) then
      throw (.runtimeError ("failed to restore cascaded index " ++ definition.name))

/-- The block of `restoreDroppedColumn` for what CASCADE dropped. A constraint on the column alone
is left to the flags of the column. -/
def restoreDependents (capture : DroppedColumnCapture) : EStateM Error Table Unit := do
  modify fun t => { t with
    checkConstraints := t.checkConstraints ++ capture.droppedChecks
    foreignKeys := t.foreignKeys ++ capture.droppedChildForeignKeys
    uniqueConstraints := t.uniqueConstraints ++ capture.droppedUniques.filter fun constraint =>
      constraint.columns ≠ [capture.column.name] }
  forM capture.droppedUserIndexes restoreUserIndex
  let t ← EStateM.get
  forM t.allUniqueConstraints (ensureConstraintIndex "failed to restore constraint index " false)

/-- `Table::restoreDroppedColumn`. -/
def restoreDroppedColumn (capture : DroppedColumnCapture) : EStateM Error Table Unit := do
  let t ← EStateM.get
  if t.schema.length < capture.columnIndex then
    throw (.runtimeError "ALTER DROP COLUMN undo index out of range")
  if (t.columnIndex capture.column.name).isSome then
    throw (.runtimeError "ALTER DROP COLUMN undo column already exists")
  EStateM.set { t with
    schema := t.schema.insertIdx capture.columnIndex capture.column
    indexManager := t.indexManager.insertColumn capture.columnIndex }
  let versions ← Exec.ofExcept (t.versions.insertColumn capture.columnIndex capture.versionValues)
  modify fun t => { t with versions := versions }
  rewriteRows (widenRow capture) "failed to restore row during DROP COLUMN undo"
  if capture.cascaded then restoreDependents capture
  rebuildIndexes

/-- `Table::rewriteForeignKeyParentColumn`. -/
def rewriteForeignKeyParentColumn (t : Table) (parentTable oldName newName : String) : Table :=
  { t with
    foreignKeys := t.foreignKeys.map fun fk =>
      if fk.parentTable = parentTable then
        { fk with parentColumns := renameNameList oldName newName fk.parentColumns }
      else fk }

/-- The constraints on the column with the names of their indexes before the column is renamed. -/
def constraintRenames (t : Table) (oldName newName : String) : List (String × UniqueConstraint) :=
  (t.allUniqueConstraints.filter fun constraint => uniqueReferencesColumn constraint oldName).map
    fun constraint =>
      (constraintIndexName constraint,
        { constraint with columns := renameNameList oldName newName constraint.columns })

/-- The index of one constraint gets the name it has after the column is renamed. -/
def renameConstraintIndex (rename : String × UniqueConstraint) : EStateM Error Table Unit := do
  let newIndexName := constraintIndexName rename.2
  if rename.1 = newIndexName then return ()
  -- there may be no index of that name
  if !(← dropIndex rename.1) then return ()
  let t ← EStateM.get
  match rename.2.columns.mapM t.columnIndex with
  | none => throw (.runtimeError "failed to rename constraint index")
  | some indexes =>
    if !(← registerIndex newIndexName indexes none true) then
      throw (.runtimeError ("failed to recreate constraint index " ++ newIndexName))

/-- The table with a column renamed, before the indexes of the constraints are. -/
def withRenamedColumn (t : Table) (index : ℕ) (oldName newName : String) : Table :=
  { t with
    schema := t.schema.modify index fun column => { column with name := newName }
    indexManager := t.indexManager.renameColumn oldName newName
    checkConstraints := t.checkConstraints.map (renameCheckColumn oldName newName)
    uniqueConstraints := t.uniqueConstraints.map fun constraint =>
      { constraint with columns := renameNameList oldName newName constraint.columns }
    foreignKeys := t.foreignKeys.map fun fk =>
      { fk with childColumns := renameNameList oldName newName fk.childColumns } }

/-- `Table::renameColumn` on the table itself; in the other tables of a database it calls
`rewriteForeignKeyParentColumn`. -/
def renameColumn (oldName newName : String) : EStateM Error Table Unit := do
  if oldName = "" ∨ newName = "" then throw (.invalidArgument "column name cannot be empty")
  if oldName = newName then return ()
  let t ← EStateM.get
  match t.columnIndex oldName with
  | none => throw (.invalidArgument ("unknown column: " ++ oldName))
  | some index =>
    if (t.columnIndex newName).isSome then
      throw (.invalidArgument ("column already exists: " ++ newName))
    EStateM.set (t.withRenamedColumn index oldName newName)
    forM (t.constraintRenames oldName newName) renameConstraintIndex

end Columns

end Table

end VertexDB
