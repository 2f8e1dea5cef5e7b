import VertexDB.Storage.Database
import VertexDB.Storage.PageImages
import VertexDB.Transaction.TableAccess

/-!
# The engine state

What the statements of `src/execution/` work on: the database, the transaction manager, the session
of the open transaction (`src/execution/txn_session.cpp`) with its undo log and its records for the
write-ahead log, and the write-ahead log itself. The log is modelled by the contents of its records;
framing and payload bytes are the subject of the persistence modules. One database is active
throughout.
-/

namespace VertexDB

open Exec

/-- `UndoRecord`. -/
inductive UndoRecord where
  | row (tableName : String) (change : RowUndo)
  | createTable (tableName : String)
  | dropTable (tableName : String) (retainedTable : ℕ)
  | renameTable (tableName renameTo : String)
  deriving DecidableEq, Repr

/-- `CreateTable`. -/
structure CreateTable where
  name : String
  columns : List Column
  checkConstraints : List CheckPredicate := []
  foreignKeys : List ForeignKeyConstraint := []
  uniqueConstraints : List UniqueConstraint := []

/-- `PageImageRedoRecord`. -/
structure PageImageRedoRecord where
  tableName : String
  capture : PageImageCapture

/-- `PendingWalRecord`: the contents of a record of the write-ahead log. -/
inductive PendingWalRecord where
  | pageImageRedo (redos : List PageImageRedoRecord)
  | createTable (command : CreateTable)
  | dropTable (name : String)
  | renameTable (oldName newName : String)

/-- `TxnSession`; the latest undo record is the first of the log. -/
structure TxnSession where
  activeTransaction : Option ℕ := none
  activeSnapshot : Option ReadSnapshot := none
  undoLog : List UndoRecord := []
  pendingWal : List PendingWalRecord := []

/-- The state the engines of a `QueryExecutor` share. -/
structure Engine where
  database : Database := {}
  transactions : TransactionManager := {}
  session : TxnSession := {}
  wal : List PendingWalRecord := []

/-- `Table::clearDirtyTracking`. -/
def Table.clearDirtyTracking (t : Table) : Table :=
  { t with rowStore := t.rowStore.clearDirtyPages }

/-- `Table::takePageImageCapture`. -/
def Table.takePageImageCapture (t : Table) : PageImageCapture × Table :=
  (t.rowStore.takePageImageCapture.1, { t with rowStore := t.rowStore.takePageImageCapture.2 })

/-- `QueryResult` of a statement that returns no rows. -/
structure QueryResult where
  success : Bool
  message : String
  deriving DecidableEq, Repr

namespace Engine

/-- `TxnSession::transactionActive`. -/
def transactionActive (s : Engine) : Bool := s.session.activeTransaction.isSome

/-- `TxnSession::readSnapshot`. -/
def readSnapshot (s : Engine) : ReadSnapshot :=
  s.session.activeSnapshot.getD s.transactions.currentSnapshot

/-- A call on the transaction manager. -/
def onTransactions {α : Type} (x : EStateM Error TransactionManager α) : EStateM Error Engine α :=
  zoom Engine.transactions (fun transactions s => { s with transactions := transactions }) x

/-- `TxnSession::writeTransactionId`: outside a transaction each call gives a new transaction that
has already committed. -/
def writeTransactionId : EStateM Error Engine ℕ := do
  let s ← EStateM.get
  match s.session.activeTransaction with
  | some id => return id
  | none => onTransactions TransactionManager.beginCommitted

/-- The table object `id` replaced. -/
def setObject (s : Engine) (id : ℕ) (t : Table) : Engine :=
  { s with database := s.database.setObject id t }

/-- The table object `id` and the transaction manager after a call on them. -/
def putBack (s : Engine) (id : ℕ) (access : TableAccess) : Engine :=
  { s with
    database := s.database.setObject id access.table
    transactions := access.transactions }

/-- A call on a table object, which reports to the transaction manager. -/
def onTable {α : Type} (id : ℕ) (x : EStateM Error TableAccess α) : EStateM Error Engine α :=
  fun s => match s.database.objects[id]? with
  | none => .error (.runtimeError "unknown table") s
  | some t =>
    match x ⟨t, s.transactions⟩ with
    | .ok a access => .ok a (s.putBack id access)
    | .error e access => .error e (s.putBack id access)

/-- `RecoveryService::requireTable`, `SelectEngine::requireTable`. -/
def requireTable (name : String) : EStateM Error Engine (ℕ × Table) := do
  let s ← EStateM.get
  match s.database.table name with
  | none => throw (.runtimeError "unknown table")
  | some table => return table

/-- The state after `Table::clearDirtyTracking` on an object. -/
def cleared (id : ℕ) (s : Engine) : Engine :=
  match s.database.objects[id]? with
  | none => s
  | some t => s.setObject id t.clearDirtyTracking

/-- `Table::clearDirtyTracking`. -/
def clearDirtyTracking (id : ℕ) : EStateM Error Engine Unit := modify (cleared id)

/-- The state after `TxnSession::pushUndo` in a transaction. -/
def withUndo (record : UndoRecord) (s : Engine) : Engine :=
  if s.transactionActive then
    { s with session := { s.session with undoLog := record :: s.session.undoLog } }
  else s

/-- `if (session.transactionActive()) session.pushUndo(...)`. -/
def pushUndoIfActive (record : UndoRecord) : EStateM Error Engine Unit := modify (withUndo record)

/-- `RecoveryService::appendWal`, outside of recovery. -/
def appendWal (record : PendingWalRecord) (s : Engine) : Engine :=
  if s.transactionActive then
    { s with session := { s.session with pendingWal := s.session.pendingWal ++ [record] } }
  else { s with wal := s.wal ++ [record] }

/-- The state after `RecoveryService::appendPageImageRedo`. -/
def withRedo (id : ℕ) (tableName : String) (s : Engine) : Engine :=
  match s.database.objects[id]? with
  | none => s
  | some t =>
    (s.setObject id t.takePageImageCapture.2).appendWal
      (.pageImageRedo [⟨tableName, t.takePageImageCapture.1⟩])

/-- `RecoveryService::appendPageImageRedo`. -/
def appendPageImageRedo (id : ℕ) (tableName : String) : EStateM Error Engine Unit :=
  modify (withRedo id tableName)

/-- `QueryExecutor::executeBegin`. -/
def executeBegin : EStateM Error Engine QueryResult := do
  let s ← EStateM.get
  if s.transactionActive then return ⟨false, "transaction already active"⟩
  let (transaction, transactions) := s.transactions.begin
  EStateM.set
    { s with
      transactions := transactions
      session :=
        { activeTransaction := some transaction.id
          activeSnapshot := some (transactions.currentSnapshot transaction.id) } }
  return ⟨true, "began transaction"⟩

end Engine

end VertexDB
