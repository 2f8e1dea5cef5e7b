import VertexDB.Lib.Exec
import VertexDB.Persistence.RedoCodec
import VertexDB.Persistence.WriteAheadLog

/-!
# Flushing the log records of a transaction

The records that the statements of a transaction leave pending reach the log at COMMIT, in
`RecoveryService::flushPendingWal` of `src/execution/recovery_service.cpp`. The page images of all
statements are collected in one record, so that a transaction that only changes rows is in the log
as a whole or not at all, wherever a crash cuts the file.
-/

namespace VertexDB

open FramedLog WriteAheadLog PageImageRedo List
open Exec hiding ofExcept
open PhysicalRedo (PhysicalRedoRecord encodePhysicalRedos decodePhysicalRedos)

/-- `WriteAheadLog::append`, for a payload that is still to be encoded. A longer payload does not
fit in a string. -/
def appendPayload (operation : WalOperation) (encoded : ByteCodec.Writer Error) :
    EStateM Error WriteAheadLog Unit := do
  let payload ← Exec.ofExcept encoded
  if size_lt : payload.length < 2 ^ 64 then modify fun wal =>
    (wal.append operation payload size_lt).2
  else throw (.invalidArgument "basic_string::append")

/-- The loop of `RecoveryService::flushPendingWal` with the redo records collected so far, and the
appends after it. -/
def flushPending (pageBatch : List PageImageRedoRecord) (physicalBatch : List PhysicalRedoRecord) :
    List Entry → EStateM Error WriteAheadLog Unit
  | [] => do
    if pageBatch ≠ [] then appendPayload .pageImageRedo (encodePageImageRedos pageBatch)
    if physicalBatch ≠ [] then appendPayload .physicalRedo (encodePhysicalRedos physicalBatch)
  | record :: pending => do
    if record.operation = .pageImageRedo then
      let redos ← Exec.ofExcept (decodePageImageRedos record.payload)
      flushPending (pageBatch ++ redos) physicalBatch pending
    else if record.operation = .physicalRedo then
      let redos ← Exec.ofExcept (decodePhysicalRedos record.payload)
      flushPending pageBatch (physicalBatch ++ redos) pending
    else
      appendPayload record.operation (.ok record.payload)
      flushPending pageBatch physicalBatch pending

/-- `RecoveryService::flushPendingWal`. -/
def flushPendingWal (pending : List Entry) : EStateM Error WriteAheadLog Unit :=
  flushPending [] [] pending

/-- The page image of a table that `appendPageImageRedo` has left pending. -/
structure PendingImage where
  record : Entry
  image : PageImageRedoRecord
  operation : record.operation = .pageImageRedo
  payload : encodePageImageRedos [image] = .ok record.payload
  representable : image.Representable
  nodes : image.WellFormedNodes
  concrete : image.Concrete
  hasHeapMeta : image.hasHeapMeta = true

theorem exists_payload (pending : List PendingImage) (hne : pending ≠ [])
    (hlen : pending.length < 2 ^ 64) :
    ∃ payload, encodePageImageRedos (pending.map (·.image)) = .ok payload ∧
      decodePageImageRedos payload = .ok (pending.map (·.image)) := by
  have hmirrors : ∀ image ∈ pending.map (·.image),
      ByteCodec.Mirrors (appendRecord image) PageImageRedo.readRecord image.stored :=
    forall_mem_map.mpr fun p _ => mirrors_appendRecord p.representable
  refine (exists_decodeBatch_iff _ _ _ (by simpa using hne) hmirrors (by simpa using hlen)).mpr
    (forall_mem_map.mpr fun p _ => ?_)
  refine ⟨(succeeds_appendRecord p.image).mpr p.concrete, (stored_eq_iff p.nodes).mpr ?_⟩
  simp [p.hasHeapMeta]

theorem flushPending_images (pending : List PendingImage) (batch : List PageImageRedoRecord) :
    flushPending batch [] (pending.map (·.record)) =
      flushPending (batch ++ pending.map (·.image)) [] [] := by
  induction pending generalizing batch with
  | nil => rw [map_nil, map_nil, append_nil]
  | cons p pending ih =>
    obtain ⟨payload, hencode, hdecode⟩ := exists_payload [p] (by simp) (by simp)
    obtain rfl := Except.ok.inj (p.payload.symm.trans hencode)
    funext wal
    rw [map_cons]
    conv_lhs => rw [flushPending, if_pos p.operation, hdecode, ofExcept_ok_bind, ih,
      append_assoc, ← map_append, singleton_append]

/-- A transaction that only changes rows is committed as a whole: on a log of complete records its
flush writes one record that decodes to the page images of all its statements, and after a crash at
any byte of the append the log is read with that record or without it. -/
theorem flushPendingWal_atomic (wal : WriteAheadLog) (records : List WalRecord)
    (hwal : wal.file = encodeAll WalRecord.encode records) (pending : List PendingImage)
    (hne : pending ≠ []) (hlen : pending.length < 2 ^ 64) (payload : List UInt8)
    (hencode : encodePageImageRedos (pending.map (·.image)) = .ok payload)
    (hsize : payload.length < 2 ^ 64) :
    ∃ wal' record, flushPendingWal (pending.map (·.record)) wal = .ok () wal' ∧
      record.operation = .pageImageRedo ∧
      decodePageImageRedos record.payload = .ok (pending.map (·.image)) ∧
      ∀ n, readAll (wal'.file.take (wal.file.length + n)) =
        if wal'.file.length ≤ wal.file.length + n then records ++ [record] else records := by
  obtain ⟨payload', hencode', hdecode⟩ := exists_payload pending hne hlen
  obtain rfl := Except.ok.inj (hencode.symm.trans hencode')
  have hbytes := append_file wal ⟨.pageImageRedo, payload, hsize⟩
  refine ⟨(wal.append .pageImageRedo payload hsize).2, (wal.append .pageImageRedo payload hsize).1,
    ?_, rfl, hdecode, fun n => ?_⟩
  · have happend : appendPayload .pageImageRedo (encodePageImageRedos (pending.map (·.image))) wal =
        .ok () (wal.append .pageImageRedo payload hsize).2 := by
      rw [appendPayload, hencode, ofExcept_ok_bind, dif_pos hsize, modify_apply]
    rw [flushPendingWal, flushPending_images, flushPending, nil_append, if_pos (by simpa using hne)]
    exact bind_of_ok happend
  · rw [hbytes, take_length_add_append, readAll, hwal, walFormat.scan_encodeAll_append]
    split_ifs with hn <;> rw [length_append, Nat.add_le_add_iff_left] at hn
    · rw [take_of_length_le hn]
      exact congrArg _ ((congrArg _ (append_nil _).symm).trans (readAll_encodeAll [_]))
    · -- the cut falls inside the record, whose rest is missing
      have hcut := walFormat.decode_eq_none_of_prefix (List.take_prefix n _) fun h =>
        hn ((take_eq_self_iff _).mp h)
      exact (congrArg _ ((walFormat.scan_eq_iff _ []).mpr ⟨_, rfl, hcut⟩)).trans (append_nil _)

/-- A page of the table `t` is changed. -/
def changedPage : PendingImage :=
  let image : PageImageRedoRecord :=
    { tableName := [116], hasHeapMeta := true, capacity := 1, heapPages := [⟨0, [7]⟩] }
  { record := ⟨.pageImageRedo, (encodePageImageRedos [image]).toOption.getD [], by decide⟩
    image := image
    operation := rfl
    payload := rfl
    representable :=
      ⟨by decide, by decide, by decide, by decide, by decide, by decide, nofun, by decide, nofun⟩
    nodes := nofun
    concrete := ⟨nofun, nofun⟩
    hasHeapMeta := rfl }

/-- Two statements of a transaction on a new log: nothing of it is read unless all of it is. -/
theorem flushPendingWal_two_statements :
    ∃ wal', flushPendingWal [changedPage.record, changedPage.record] ⟨[], none⟩ = .ok () wal' ∧
      ∀ n < wal'.file.length, readAll (wal'.file.take n) = [] := by
  obtain ⟨wal', record, hflush, -, -, hread⟩ := flushPendingWal_atomic ⟨[], none⟩ [] rfl
    [changedPage, changedPage] (by simp) (by simp) _ rfl (by decide +kernel)
  refine ⟨wal', hflush, fun n hn => ?_⟩
  have := hread n
  rwa [if_neg (by simpa using hn), length_nil, Nat.zero_add] at this

end VertexDB
