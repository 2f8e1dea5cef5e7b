import VertexDB.Common.Value
import VertexDB.Lib.Exec
import VertexDB.Persistence.WriteAheadLog

/-!
# Checkpoints

SAVE DATABASE writes three things one after another: a marker in the log, the snapshot file and the
empty log. Recovery loads the first snapshot it finds and replays the log after the last marker, or
the whole log when no snapshot can be loaded. This file models the steps of `executeSaveDatabase` in
`src/execution/catalog_engine.cpp` with `StorageManager::saveDatabase`, and the recovery of
`src/execution/recovery_service.cpp`, for every meaning of the log records and every format of the
snapshots.
-/

namespace VertexDB

open FramedLog Exec List

/-- The databases of the engine, what the log records mean for them, and the format `F` of a
snapshot file. -/
structure RecoveryOps (D F : Type) where
  /-- `Database::name`. -/
  name : D → List UInt8
  /-- The constructor of `Database`. -/
  makeDatabase : List UInt8 → D
  /-- The redo of a page image or row record, or the execution of a logged statement. -/
  redo : WalRecord → Option D → Except Error (Option D)
  writeTcrdbSnapshot : D → F
  /-- Reading a snapshot can fail, and it can give another database than the one written. -/
  readTcrdbSnapshot : F → Except Error D

/-- A snapshot file: the name of its database, which is the stem of its path, and its contents. -/
structure SnapshotFile (F : Type) where
  stem : List UInt8
  contents : F

/-- The durable files: the snapshots in the order in which the directory lists them, and the log. -/
structure Disk (F : Type) where
  files : List (SnapshotFile F)
  wal : WriteAheadLog

/-- The state of recovery: the database and the snapshot files. -/
structure Recovery (D F : Type) where
  database : Option D
  files : List (SnapshotFile F)

variable {D F : Type}

section Recover

/-- `StorageManager::deleteDatabase`. -/
def deleteDatabase (name : List UInt8) (files : List (SnapshotFile F)) : List (SnapshotFile F) :=
  files.filter fun file => file.stem ≠ name

/-- `StorageManager::loadFirstDatabase`. -/
def loadFirstDatabase (ops : RecoveryOps D F) : List (SnapshotFile F) → Except Error D
  | [] => throw (.runtimeError "no saved database files found")
  | file :: _ => ops.readTcrdbSnapshot file.contents

/-- The byte of a space. A payload without one is the name of a database and no statement. -/
def space : UInt8 := 32

/-- One round of the loop of `recoverFromWal`. -/
def replayRecord (ops : RecoveryOps D F) (record : WalRecord) :
    EStateM Error (Recovery D F) Unit := do
  let s ← EStateM.get
  if record.operation = .saveDatabase then return ()
  if record.operation = .createDatabase ∧ space ∉ record.payload then
    EStateM.set { s with database := some (ops.makeDatabase record.payload) }
  else if record.operation = .dropDatabase ∧ space ∉ record.payload then
    let dropped := s.database.any fun database => ops.name database = record.payload
    EStateM.set
      { database := if dropped then none else s.database
        files := deleteDatabase record.payload s.files }
  else
    let database ← Exec.ofExcept (ops.redo record s.database)
    EStateM.set { s with database := database }

/-- Where `recoverFromWal` starts: after the last marker when a snapshot was loaded. -/
def replayStart (loadedSnapshot : Bool) (records : List WalRecord) : ℕ :=
  if loadedSnapshot then
    records.zipIdx.foldl (fun start entry =>
      if entry.1.operation = .saveDatabase then entry.2 + 1 else start) 0
  else 0

/-- `RecoveryService::recoverFromWal`. -/
def recoverFromWal (ops : RecoveryOps D F) (loadedSnapshot : Bool) (records : List WalRecord)
    (s : Recovery D F) : Recovery D F :=
  match forM (records.drop (replayStart loadedSnapshot records)) (replayRecord ops) s with
  | .ok _ s' => s'
  -- the handler of the source drops the database that failed to replay
  | .error _ s' => { s' with database := none }

/-- `RecoveryService::recoverFromStorage`, on the records that `readAll` returns. -/
def recoverFromStorage (ops : RecoveryOps D F) (disk : Disk F) : Recovery D F :=
  match loadFirstDatabase ops disk.files with
  | .ok database =>
    recoverFromWal ops true (readAll disk.wal.file) ⟨some database, disk.files⟩
  | .error _ => recoverFromWal ops false (readAll disk.wal.file) ⟨none, disk.files⟩

end Recover

section Save

/-- The file that `StorageManager::saveDatabase` writes. -/
def snapshotFile (ops : RecoveryOps D F) (database : D) : SnapshotFile F where
  stem := ops.name database
  contents := ops.writeTcrdbSnapshot database

/-- `StorageManager::saveDatabase` after the rename: the file of the database is replaced, or a new
one appears at some place of the directory listing. -/
def publish (ops : RecoveryOps D F) (place : ℕ) (database : D) (files : List (SnapshotFile F)) :
    List (SnapshotFile F) :=
  if files.any fun file => file.stem = ops.name database then
    files.map fun file => if file.stem = ops.name database then snapshotFile ops database else file
  else files.take place ++ snapshotFile ops database :: files.drop place

/-- The durable steps of `executeSaveDatabase` in a session without a transaction. -/
def saveSteps (ops : RecoveryOps D F) (place : ℕ) (database : D)
    (hname : (ops.name database).length < 2 ^ 64) : List (Disk F → Disk F) :=
  [fun disk => { disk with wal := (disk.wal.append .saveDatabase (ops.name database) hname).2 },
    fun disk => { disk with files := publish ops place database disk.files },
    fun disk => { disk with wal := disk.wal.reset }]

/-- The files after a crash that lets the first `cut` steps through. -/
def crashDuringSave (ops : RecoveryOps D F) (place : ℕ) (database : D)
    (hname : (ops.name database).length < 2 ^ 64) (cut : ℕ) (disk : Disk F) : Disk F :=
  ((saveSteps ops place database hname).take cut).foldl (fun disk step => step disk) disk

end Save

section Proofs

variable {ops : RecoveryOps D F}

variable {marker : WalRecord}

theorem replayStart_append_marker (records : List WalRecord)
    (hmarker : marker.operation = .saveDatabase) :
    replayStart true (records ++ [marker]) = (records ++ [marker]).length := by
  simp [replayStart, zipIdx_append, hmarker]

theorem replayRecord_marker (hmarker : marker.operation = .saveDatabase) (s : Recovery D F) :
    replayRecord ops marker s = .ok () s := by
  simp [replayRecord, hmarker]

/-- Without a snapshot a marker at the end of the log is skipped. -/
theorem recoverFromWal_append_marker (records : List WalRecord)
    (hmarker : marker.operation = .saveDatabase) (s : Recovery D F) :
    recoverFromWal ops false (records ++ [marker]) s = recoverFromWal ops false records s := by
  have hloop : forM (records ++ [marker]) (replayRecord ops) s =
      forM records (replayRecord ops) s := by
    rw [forM_append_run]
    cases hrun : forM records (replayRecord ops) s with
    | ok _ s' =>
      rw [bind_of_ok hrun, forM_cons_run, bind_of_ok (replayRecord_marker hmarker s')]
      rfl
    | error e s' => rw [bind_of_error hrun]
  simp only [recoverFromWal, replayStart, Bool.false_eq_true, if_false, drop_zero, hloop]

theorem recoverFromWal_snapshot_marker (records : List WalRecord)
    (hmarker : marker.operation = .saveDatabase) (s : Recovery D F) :
    recoverFromWal ops true (records ++ [marker]) s = s := by
  rw [recoverFromWal, replayStart_append_marker records hmarker, drop_length, forM_nil_run]

theorem readAll_append {wal : WriteAheadLog} {records : List WalRecord}
    (hwal : wal.file = encodeAll WalRecord.encode records) (operation : WalOperation)
    (payload : List UInt8) (hsize : payload.length < 2 ^ 64) :
    ∃ record, record.operation = operation ∧
      readAll (wal.append operation payload hsize).2.file = records ++ [record] := by
  refine ⟨(wal.append operation payload hsize).1, rfl, ?_⟩
  have hfile := WriteAheadLog.append_file wal ⟨operation, payload, hsize⟩
  simp only at hfile
  have hencode : encodeAll WalRecord.encode records ++
      (wal.append operation payload hsize).1.encode =
        encodeAll WalRecord.encode (records ++ [(wal.append operation payload hsize).1]) := by
    rw [encodeAll_append, encodeAll_cons, encodeAll_nil, append_nil]
  rw [hfile, hwal, hencode, readAll_encodeAll]

/-- The contents of the first snapshot file once the database is published. It is the published
snapshot when there was no file, when the first file was that of the database, and when the database
had no file and the directory lists the new one first. -/
def firstContents (ops : RecoveryOps D F) (place : ℕ) (database : D) : List (SnapshotFile F) → F
  | [] => ops.writeTcrdbSnapshot database
  | first :: files =>
    if first.stem = ops.name database ∨
        place = 0 ∧ ∀ file ∈ files, file.stem ≠ ops.name database then
      ops.writeTcrdbSnapshot database
    else first.contents

theorem loadFirstDatabase_publish (place : ℕ) (database : D) (files : List (SnapshotFile F)) :
    loadFirstDatabase ops (publish ops place database files) =
      ops.readTcrdbSnapshot (firstContents ops place database files) := by
  rcases files with _ | ⟨first, files⟩
  · simp [publish, loadFirstDatabase, firstContents, snapshotFile]
  by_cases hfirst : first.stem = ops.name database
  · simp [publish, loadFirstDatabase, firstContents, snapshotFile, hfirst]
  by_cases hother : ∀ file ∈ files, file.stem ≠ ops.name database
  · -- a new file
    rw [publish, if_neg (by simpa using ⟨hfirst, hother⟩)]
    cases place with
    | zero =>
      rw [firstContents, if_pos (Or.inr ⟨rfl, hother⟩)]
      rfl
    | succ place => simp [loadFirstDatabase, firstContents, hfirst]
  · rw [publish, if_pos (by simpa using Or.inr hother)]
    simp [loadFirstDatabase, firstContents, hfirst, hother]

/-- On a log that ends with a marker recovery shows the snapshot, or what the log before the marker
gives when no snapshot can be loaded. -/
theorem database_marker_iff {disk : Disk F} {database : D} {records : List WalRecord}
    (hmarker : marker.operation = .saveDatabase)
    (hread : readAll disk.wal.file = records ++ [marker]) :
    (recoverFromStorage ops disk).database = some database ↔
      loadFirstDatabase ops disk.files = .ok database ∨
        (∃ e, loadFirstDatabase ops disk.files = .error e) ∧
          (recoverFromWal ops false records ⟨none, disk.files⟩).database = some database := by
  rw [recoverFromStorage, hread]
  cases loadFirstDatabase ops disk.files with
  | ok first => simp [recoverFromWal_snapshot_marker records hmarker]
  | error e => simp [recoverFromWal_append_marker records hmarker]

theorem database_reset_iff {disk : Disk F} {database : D} (hwal : disk.wal.file = []) :
    (recoverFromStorage ops disk).database = some database ↔
      loadFirstDatabase ops disk.files = .ok database := by
  rw [recoverFromStorage, hwal, show readAll [] = [] from readAll_encodeAll []]
  cases loadFirstDatabase ops disk.files with
  | ok first => simp [recoverFromWal]
  | error e => simp [recoverFromWal]

/-- A crash during SAVE DATABASE keeps the saved state exactly when no step was done, or only the
marker was written and no snapshot can be loaded or the first one already holds the state, or the
snapshot was published and the first file then loads back as the state. A published snapshot that
cannot be loaded does no harm as long as the log is there and gives the state without a snapshot. -/
theorem recoverFromStorage_crashDuringSave_iff (ops : RecoveryOps D F) (disk : Disk F)
    (records : List WalRecord) (hwal : disk.wal.file = encodeAll WalRecord.encode records)
    (database : D) (hname : (ops.name database).length < 2 ^ 64)
    (hdurable : (recoverFromStorage ops disk).database = some database) (place cut : ℕ) :
    (recoverFromStorage ops (crashDuringSave ops place database hname cut disk)).database =
        some database ↔
      cut = 0 ∨
        cut = 1 ∧ (loadFirstDatabase ops disk.files = .ok database ∨
          ∃ e, loadFirstDatabase ops disk.files = .error e) ∨
        2 ≤ cut ∧
          ops.readTcrdbSnapshot (firstContents ops place database disk.files) = .ok database ∨
        cut = 2 ∧
          (∃ e, ops.readTcrdbSnapshot (firstContents ops place database disk.files) = .error e) ∧
          (recoverFromWal ops false records
            ⟨none, publish ops place database disk.files⟩).database = some database := by
  obtain ⟨marker, hmarker, hread⟩ := readAll_append hwal .saveDatabase (ops.name database) hname
  rcases cut with _ | _ | _ | cut
  · exact iff_of_true hdurable (Or.inl rfl)
  · -- only the marker is written: a snapshot that loads hides the log
    have hfiles : (crashDuringSave ops place database hname 1 disk).files = disk.files := rfl
    have hreplay : (∃ e, loadFirstDatabase ops disk.files = .error e) →
        (recoverFromWal ops false records ⟨none, disk.files⟩).database = some database := by
      rintro ⟨e, he⟩
      rwa [recoverFromStorage, he, hwal, readAll_encodeAll] at hdurable
    rw [database_marker_iff hmarker hread, hfiles, and_iff_left_of_imp hreplay]
    simp
  · have hfiles : (crashDuringSave ops place database hname 2 disk).files =
        publish ops place database disk.files := rfl
    rw [database_marker_iff hmarker hread, hfiles, loadFirstDatabase_publish]
    simp
  · have hsteps : crashDuringSave ops place database hname (cut + 3) disk =
        crashDuringSave ops place database hname 3 disk := by
      rw [crashDuringSave, crashDuringSave, take_of_length_le (by simp [saveSteps]),
        take_of_length_le (by simp [saveSteps])]
    rw [hsteps, database_reset_iff rfl, ← loadFirstDatabase_publish]
    simp [crashDuringSave, saveSteps]

end Proofs

section Journal

/-- Databases that only remember the payloads of their records. A snapshot is the list of the name
and the payloads. -/
def journalOps : RecoveryOps (List UInt8 × List (List UInt8)) (List (List UInt8)) where
  name := Prod.fst
  makeDatabase := fun name => (name, [])
  redo := fun record database =>
    match database with
    | some (name, rows) => .ok (some (name, rows ++ [record.payload]))
    | none => .error (.runtimeError "no active database")
  writeTcrdbSnapshot := fun database => database.1 :: database.2
  readTcrdbSnapshot := fun contents =>
    match contents with
    | name :: rows => .ok (name, rows)
    | [] => .error (.runtimeError "invalid database file magic")

/-- The snapshot of the empty database `d`, and a log with one insert since. -/
def savedThenInserted : Disk (List (List UInt8)) where
  files := [⟨[100], [[100]]⟩]
  wal := WriteAheadLog.restarted [⟨1, .insert, [7], by decide⟩] []

theorem recoverFromStorage_after_reset :
    (recoverFromStorage journalOps savedThenInserted).database = some ([100], [[7]]) ∧
      (recoverFromStorage journalOps (crashDuringSave journalOps 0 ([100], [[7]]) (by decide) 3
        savedThenInserted)).database = some ([100], [[7]]) := by
  have hdurable : (recoverFromStorage journalOps savedThenInserted).database =
      some ([100], [[7]]) := by
    decide +kernel
  exact ⟨hdurable, (recoverFromStorage_crashDuringSave_iff journalOps savedThenInserted
    [⟨1, .insert, [7], by decide⟩] (by decide +kernel) ([100], [[7]]) (by decide) hdurable 0 3).mpr
      (Or.inr (Or.inr (Or.inl ⟨by decide, rfl⟩)))⟩

/-- After a crash between the marker and the rename, recovery loads the old snapshot and skips the
insert before the marker. -/
theorem recoverFromStorage_between_marker_and_rename :
    (recoverFromStorage journalOps savedThenInserted).database = some ([100], [[7]]) ∧
      (recoverFromStorage journalOps (crashDuringSave journalOps 0 ([100], [[7]]) (by decide) 1
        savedThenInserted)).database = some ([100], []) := by
  decide +kernel

end Journal

end VertexDB
