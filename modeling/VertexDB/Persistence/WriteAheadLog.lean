import VertexDB.Lib.FramedLog
import VertexDB.Lib.LittleEndian
import Mathlib.Data.List.Basic
import Mathlib.Tactic.IntervalCases
import Mathlib.Tactic.NormNum

/-!
# The write-ahead log file

The bytes of the log file, as `src/persistence/write_ahead_log.cpp` writes and reads them. A record
is a 25-byte header (magic, version, LSN, operation, payload size) followed by the payload, all
integers in the little-endian order of the machine. `readAll` reads records until it meets the end
of the file or bytes that are not a complete record; `append` writes at the end of the file whatever
stands there.
-/

namespace VertexDB

open FramedLog List

/-- `WalOperation`. The enumeration has a fixed underlying byte and the reader casts any byte to
it, so the bytes without an enumerator are values of the type as well. -/
inductive WalOperation where
  | createDatabase
  | createTable
  | dropTable
  | renameTable
  | insert
  | update
  | delete
  | createIndex
  | saveDatabase
  | physicalRedo
  | pageImageRedo
  | dropIndex
  | dropDatabase
  | alterTable
  | unnamed (code : UInt8) (h : 14 ≤ code)
  deriving DecidableEq

namespace WalOperation

/-- `static_cast<std::uint8_t>(operation)`. -/
def toByte : WalOperation → UInt8
  | createDatabase => 0
  | createTable => 1
  | dropTable => 2
  | renameTable => 3
  | insert => 4
  | update => 5
  | delete => 6
  | createIndex => 7
  | saveDatabase => 8
  | physicalRedo => 9
  | pageImageRedo => 10
  | dropIndex => 11
  | dropDatabase => 12
  | alterTable => 13
  | unnamed code _ => code

/-- `static_cast<WalOperation>(byte)`. -/
def ofByte (b : UInt8) : WalOperation :=
  if h : 14 ≤ b then unnamed b h
  else match b with
    | 0 => createDatabase
    | 1 => createTable
    | 2 => dropTable
    | 3 => renameTable
    | 4 => insert
    | 5 => update
    | 6 => delete
    | 7 => createIndex
    | 8 => saveDatabase
    | 9 => physicalRedo
    | 10 => pageImageRedo
    | 11 => dropIndex
    | 12 => dropDatabase
    | _ => alterTable

theorem ofByte_toByte (op : WalOperation) : ofByte op.toByte = op := by
  cases op with
  | unnamed code h => simp [toByte, ofByte, h]
  | _ => rfl

theorem toByte_ofByte (b : UInt8) : (ofByte b).toByte = b := by
  by_cases h : 14 ≤ b
  · simp [ofByte, h, toByte]
  · have hb : b.toNat < 14 := by simpa [UInt8.le_iff_toNat_le] using h
    obtain ⟨n, hn, rfl⟩ : ∃ n < 14, UInt8.ofNat n = b := ⟨b.toNat, hb, by simp⟩
    interval_cases n <;> rfl

end WalOperation

/-- `WalRecord`. The payload is a `std::string`, so its size fits in 64 bits. -/
@[ext] structure WalRecord where
  lsn : UInt64
  operation : WalOperation
  payload : List UInt8
  size_lt : payload.length < 2 ^ 64
  deriving DecidableEq

/-- `kWalMagic`. -/
def walMagic : ℕ := 0x54435741

/-- `kWalVersion`. -/
def walVersion : ℕ := 1

/-- `writePod`, for an unsigned integer of `w` bytes. -/
def writePod (w n : ℕ) : List UInt8 := LittleEndian.toBytes w n

/-- `readPod`, for an unsigned integer of `w` bytes: the value and the bytes after it, or nothing
when the stream ends first. -/
def readPod (w : ℕ) (bs : List UInt8) : Option (ℕ × List UInt8) :=
  if bs.length < w then none else some (LittleEndian.ofBytes (bs.take w), bs.drop w)

theorem readPod_writePod (w n : ℕ) (hn : n < 256 ^ w) (rest : List UInt8) :
    readPod w (writePod w n ++ rest) = some (n, rest) := by
  have hlen : (writePod w n).length = w := LittleEndian.length_toBytes w n
  have hnot : ¬ (writePod w n ++ rest).length < w := by
    rw [length_append, hlen]
    omega
  rw [readPod, if_neg hnot, take_append_of_le_length hlen.ge, drop_append_of_le_length
    hlen.ge, take_of_length_le hlen.le, drop_of_length_le hlen.le, nil_append,
    writePod, LittleEndian.ofBytes_toBytes w n hn]

theorem eq_writePod_append {w n : ℕ} {bs rest : List UInt8} (h : readPod w bs = some (n, rest)) :
    bs = writePod w n ++ rest ∧ n < 256 ^ w := by
  unfold readPod at h
  split_ifs at h with hlt
  obtain ⟨rfl, rfl⟩ := Prod.mk.inj (Option.some.inj h)
  have hlen : (bs.take w).length = w := by
    rw [length_take]
    omega
  constructor
  · have hw := LittleEndian.toBytes_ofBytes (bs.take w)
    rw [hlen] at hw
    rw [writePod, hw, take_append_drop]
  · simpa [hlen] using LittleEndian.ofBytes_lt (bs.take w)

/-- The bytes `WriteAheadLog::append` writes for a record. -/
def WalRecord.encode (r : WalRecord) : List UInt8 :=
  writePod 4 walMagic ++ writePod 4 walVersion ++ writePod 8 r.lsn.toNat ++
    writePod 1 r.operation.toByte.toNat ++ writePod 8 r.payload.length ++ r.payload

/-- One round of the loop of `WriteAheadLog::readAll`: a complete record and the bytes after it, or
nothing where the loop ends. A payload size beyond the bytes left ends the loop, whether the resize
throws or the read comes up short. -/
def readRecord (bs : List UInt8) : Option (WalRecord × List UInt8) := do
  let (magic, bs) ← readPod 4 bs
  let (version, bs) ← readPod 4 bs
  if magic ≠ walMagic ∨ version ≠ walVersion then none
  else
    let (lsn, bs) ← readPod 8 bs
    let (operation, bs) ← readPod 1 bs
    let (payloadSize, bs) ← readPod 8 bs
    if h : payloadSize ≤ bs.length ∧ payloadSize < 2 ^ 64 then
      some (⟨UInt64.ofNat lsn, WalOperation.ofByte (UInt8.ofNat operation), bs.take payloadSize,
        by rw [List.length_take]; omega⟩, bs.drop payloadSize)
    else none

/-- `WriteAheadLog::readAll`, on the bytes of the file. -/
def readAll (file : List UInt8) : List WalRecord := scan readRecord file

theorem readRecord_encode (r : WalRecord) (rest : List UInt8) :
    readRecord (r.encode ++ rest) = some (r, rest) := by
  have hmagic := readPod_writePod 4 walMagic (by decide)
  have hver := readPod_writePod 4 walVersion (by decide)
  have hlsn := readPod_writePod 8 r.lsn.toNat (by simpa using r.lsn.toNat_lt)
  have hop := readPod_writePod 1 r.operation.toByte.toNat (by
    simpa using r.operation.toByte.toNat_lt)
  have hsize := readPod_writePod 8 r.payload.length (by simpa using r.size_lt)
  have hpayload : r.payload.length ≤ (r.payload ++ rest).length ∧ r.payload.length < 2 ^ 64 :=
    ⟨by simp, r.size_lt⟩
  simp only [readRecord, WalRecord.encode, append_assoc, hmagic, hver, hlsn, hop, hsize,
    Option.bind_eq_bind, Option.bind_some, ne_eq, not_true_eq_false, or_self, ite_false,
    dif_pos hpayload, take_left', drop_left', UInt64.ofNat_toNat, UInt8.ofNat_toNat,
    WalOperation.ofByte_toByte]

theorem eq_encode_of_readRecord (bs : List UInt8) (r : WalRecord) (rest : List UInt8)
    (h : readRecord bs = some (r, rest)) : bs = r.encode ++ rest := by
  simp only [readRecord, Option.bind_eq_bind, Option.bind_eq_some_iff, Prod.exists] at h
  obtain ⟨magic, b₁, h₁, version, b₂, h₂, h⟩ := h
  split_ifs at h with hmv
  obtain ⟨hm, hv⟩ := not_or.mp hmv
  simp only [Option.bind_eq_some_iff, Prod.exists] at h
  obtain ⟨lsn, b₃, h₃, operation, b₄, h₄, size, b₅, h₅, h⟩ := h
  split_ifs at h with hsize
  obtain ⟨rfl, rfl⟩ := Prod.mk.inj (Option.some.inj h)
  obtain ⟨rfl, -⟩ := eq_writePod_append h₁
  obtain ⟨rfl, -⟩ := eq_writePod_append h₂
  obtain ⟨rfl, hlsn⟩ := eq_writePod_append h₃
  obtain ⟨rfl, hop⟩ := eq_writePod_append h₄
  obtain ⟨rfl, -⟩ := eq_writePod_append h₅
  have hl : (UInt64.ofNat lsn).toNat = lsn := by
    rw [UInt64.toNat_ofNat']
    exact Nat.mod_eq_of_lt (by simpa using hlsn)
  have ho : (UInt8.ofNat operation).toNat = operation := by
    rw [UInt8.toNat_ofNat']
    exact Nat.mod_eq_of_lt (by simpa using hop)
  simp only [WalRecord.encode, WalOperation.toByte_ofByte, hl, ho, length_take,
    Nat.min_eq_left hsize.1, not_not.mp hm, not_not.mp hv, append_assoc,
    take_append_drop]

theorem encode_ne_nil (r : WalRecord) : r.encode ≠ [] := by
  simp [WalRecord.encode, writePod, LittleEndian.toBytes]

/-- Writing and reading a record of the log are inverse to each other. -/
theorem walFormat : Format WalRecord.encode readRecord where
  decode_encode := readRecord_encode
  eq_encode_append := eq_encode_of_readRecord
  encode_ne_nil := encode_ne_nil

theorem readAll_encodeAll (records : List WalRecord) :
    readAll (encodeAll WalRecord.encode records) = records :=
  (walFormat.scan_eq_iff _ _).mpr ⟨[], (append_nil _).symm, walFormat.decode_nil⟩

/-- `WriteAheadLog`: the bytes of the file, a missing file counting as an empty one, and the cached
`nextLsn_` of the process. -/
structure WriteAheadLog where
  file : List UInt8
  nextLsn_ : Option UInt64

namespace WriteAheadLog

/-- `WriteAheadLog::nextLsn`: the LSN to use and the log with the counter moved on. -/
def nextLsn (wal : WriteAheadLog) : UInt64 × WriteAheadLog :=
  match wal.nextLsn_ with
  | some lsn => (lsn, { wal with nextLsn_ := some (lsn + 1) })
  | none =>
    let next := (readAll wal.file).foldl (fun next r => max next (r.lsn + 1)) 1
    (next, { wal with nextLsn_ := some (next + 1) })

/-- `WriteAheadLog::append`: the record written and the log after it. -/
def append (wal : WriteAheadLog) (operation : WalOperation) (payload : List UInt8)
    (size_lt : payload.length < 2 ^ 64) : WalRecord × WriteAheadLog :=
  let (lsn, wal) := wal.nextLsn
  let record : WalRecord := ⟨lsn, operation, payload, size_lt⟩
  (record, { wal with file := wal.file ++ record.encode })

/-- `WriteAheadLog::reset`. -/
def reset (_wal : WriteAheadLog) : WriteAheadLog := { file := [], nextLsn_ := some 1 }

/-- The operation and the payload a caller passes to `append`. -/
structure Entry where
  operation : WalOperation
  payload : List UInt8
  size_lt : payload.length < 2 ^ 64

/-- A sequence of `append` calls: the records written, in order, and the log after them. -/
def appendAll (wal : WriteAheadLog) : List Entry → List WalRecord × WriteAheadLog
  | [] => ([], wal)
  | e :: es =>
    let (record, wal) := wal.append e.operation e.payload e.size_lt
    let (records, wal) := wal.appendAll es
    (record :: records, wal)

@[simp] theorem nextLsn_file (wal : WriteAheadLog) : wal.nextLsn.2.file = wal.file := by
  unfold nextLsn
  split <;> rfl

theorem append_file (wal : WriteAheadLog) (e : Entry) :
    (wal.append e.operation e.payload e.size_lt).2.file =
      wal.file ++ (wal.append e.operation e.payload e.size_lt).1.encode := by
  simp [append]

theorem appendAll_file (wal : WriteAheadLog) (es : List Entry) :
    (wal.appendAll es).2.file = wal.file ++ encodeAll WalRecord.encode (wal.appendAll es).1 := by
  induction es generalizing wal with
  | nil => simp [appendAll]
  | cons e es ih => simp only [appendAll, ih, append_file, encodeAll_cons, append_assoc]

/-- The log of a process that starts on a file left by a crash: complete records, then the part of
a further record that reached the file. -/
def restarted (complete : List WalRecord) (torn : List UInt8) : WriteAheadLog where
  file := encodeAll WalRecord.encode complete ++ torn
  nextLsn_ := none

/-- The LSN a process that starts on the given records gives to its first one. -/
def firstLsn (records : List WalRecord) : UInt64 :=
  records.foldl (fun next r => max next (r.lsn + 1)) 1

/-- The entries as records with consecutive LSNs. -/
def numbered (lsn : UInt64) : List Entry → List WalRecord
  | [] => []
  | e :: es => ⟨lsn, e.operation, e.payload, e.size_lt⟩ :: numbered (lsn + 1) es

theorem appendAll_records (file : List UInt8) (lsn : UInt64) (es : List Entry) :
    (appendAll ⟨file, some lsn⟩ es).1 = numbered lsn es := by
  induction es generalizing file lsn with
  | nil => rfl
  | cons e es ih => simp only [appendAll, append, nextLsn, numbered, ih]

/-- The first LSN of an empty log is 1, whether the counter is still to be read off the file or was
reset. -/
theorem appendAll_empty (wal : WriteAheadLog) (hfile : wal.file = [])
    (hlsn : ∀ lsn ∈ wal.nextLsn_, lsn = 1) (es : List Entry) :
    (wal.appendAll es).1 = numbered 1 es := by
  obtain ⟨file, nextLsn_⟩ := wal
  obtain rfl : file = [] := hfile
  cases nextLsn_ with
  | some lsn => rw [appendAll_records, hlsn lsn rfl]
  | none =>
    have hread : readAll [] = [] := readAll_encodeAll []
    cases es with
    | nil => rfl
    | cons e es => simp only [appendAll, append, nextLsn, hread, foldl_nil, appendAll_records,
        numbered]

theorem map_numbered (lsn : UInt64) (es : List Entry) :
    (numbered lsn es).map (fun r => (r.operation, r.payload)) =
      es.map fun e => (e.operation, e.payload) := by
  induction es generalizing lsn with
  | nil => rfl
  | cons e es ih => simp only [numbered, map_cons, ih]

@[simp] theorem length_numbered (lsn : UInt64) (es : List Entry) :
    (numbered lsn es).length = es.length := by
  simpa using congrArg length (map_numbered lsn es)

theorem le_of_mem_numbered {lsn : UInt64} {es : List Entry} {r : WalRecord}
    (hroom : lsn.toNat + es.length ≤ 2 ^ 64) (hr : r ∈ numbered lsn es) : lsn ≤ r.lsn := by
  induction es generalizing lsn with
  | nil => cases hr
  | cons e es ih =>
    rcases mem_cons.mp hr with rfl | hr
    · exact UInt64.le_refl _
    · -- a further record leaves room for the next number
      have hes : 0 < es.length := by simpa using length_pos_of_mem hr
      rw [length_cons] at hroom
      have hnext : (lsn + 1).toNat = lsn.toNat + 1 := by
        rw [UInt64.toNat_add, UInt64.toNat_one, Nat.mod_eq_of_lt (by omega)]
      have hle := ih (by omega) hr
      rw [UInt64.le_iff_toNat_le] at hle ⊢
      omega

/-- The LSNs increase as long as they do not run out. -/
theorem pairwise_numbered {lsn : UInt64} {es : List Entry}
    (hroom : lsn.toNat + es.length ≤ 2 ^ 64) :
    (numbered lsn es).Pairwise fun r r' => r.lsn < r'.lsn := by
  induction es generalizing lsn with
  | nil => exact List.Pairwise.nil
  | cons e es ih =>
    rw [length_cons] at hroom
    cases es with
    | nil => exact pairwise_singleton _ _
    | cons e' es =>
      have hnext : (lsn + 1).toNat = lsn.toNat + 1 := by
        rw [length_cons] at hroom
        rw [UInt64.toNat_add, UInt64.toNat_one, Nat.mod_eq_of_lt (by omega)]
      have hrest : (lsn + 1).toNat + (e' :: es).length ≤ 2 ^ 64 := by omega
      refine List.Pairwise.cons (fun r hr => ?_) (ih hrest)
      have hle := le_of_mem_numbered hrest hr
      rw [UInt64.le_iff_toNat_le, hnext] at hle
      exact UInt64.lt_iff_toNat_lt.mpr hle

/-- A torn tail does not decode, so a restarted process numbers its records after the complete
ones. -/
theorem appendAll_restarted (complete : List WalRecord) {torn : List UInt8}
    (htorn : readRecord torn = none) (es : List Entry) :
    ((restarted complete torn).appendAll es).1 = numbered (firstLsn complete) es := by
  have hread : readAll (encodeAll WalRecord.encode complete ++ torn) = complete := by
    rw [readAll, walFormat.scan_encodeAll_append, (walFormat.scan_eq_iff torn []).mpr ⟨torn, rfl,
      htorn⟩, append_nil]
  cases es with
  | nil => rfl
  | cons e es =>
    simp only [appendAll, append, restarted, nextLsn, hread, appendAll_records, numbered, firstLsn]

end WriteAheadLog

open WriteAheadLog

/-- Records appended by a restarted process are read back after the complete ones when there is no
torn byte before them. -/
theorem readAll_appendAll_torn (complete : List WalRecord) (further : WalRecord)
    (torn : List UInt8) (htorn : torn <+: further.encode) (hne : torn ≠ further.encode)
    (es : List Entry) (h : torn = [] ∨ es = []) :
    readAll ((restarted complete torn).appendAll es).2.file =
      complete ++ ((restarted complete torn).appendAll es).1 := by
  have hnone : readRecord torn = none := walFormat.decode_eq_none_of_prefix htorn hne
  have hfile : ((restarted complete torn).appendAll es).2.file =
      encodeAll WalRecord.encode complete ++
        (torn ++ encodeAll WalRecord.encode (numbered (firstLsn complete) es)) := by
    rw [appendAll_file, appendAll_restarted complete hnone, restarted, append_assoc]
  rw [hfile, appendAll_restarted complete hnone, readAll, walFormat.scan_encodeAll_append,
    append_cancel_left_eq, walFormat.scan_eq_iff]
  rcases h with rfl | rfl
  · exact ⟨[], by simp, walFormat.decode_nil⟩
  · exact ⟨torn, by simp [numbered], hnone⟩

/-- A log with one complete record and no torn byte reads back what is appended. -/
theorem readAll_appendAll_whole :
    let further : WalRecord := ⟨2, .insert, [7], by decide⟩
    ([] <+: further.encode ∧ [] ≠ further.encode) ∧
      readAll ((restarted [⟨1, .createTable, [], by decide⟩] []).appendAll
        [⟨.insert, [9], by decide⟩]).2.file =
        [⟨1, .createTable, [], by decide⟩] ++ ((restarted [⟨1, .createTable, [], by decide⟩]
          []).appendAll [⟨.insert, [9], by decide⟩]).1 := by
  intro further
  have hne : [] ≠ further.encode := (encode_ne_nil further).symm
  exact ⟨⟨List.nil_prefix, hne⟩,
    readAll_appendAll_torn [⟨1, .createTable, [], by decide⟩] further [] nil_prefix hne
      [⟨.insert, [9], by decide⟩] (Or.inl rfl)⟩

-- The condition is not necessary: a torn header takes its payload byte from the next header, and
-- here
-- the record read is the appended one.
example :
    let torn := (WalRecord.encode ⟨1, .insert, [7], by decide⟩).dropLast
    let wal := (restarted [] torn).appendAll [⟨.insert, [0x41], by decide⟩]
    readAll wal.2.file = [] ++ wal.1 := by
  decide

/-- One byte of a record reaches the file before the crash. The restarted process appends a record
after it, and the reader finds no record at all. -/
theorem readAll_append_after_torn_byte :
    let further : WalRecord := ⟨1, .createTable, [], by decide⟩
    let wal := (restarted [] [0x41]).appendAll [⟨.createTable, [], by decide⟩]
    [0x41] <+: further.encode ∧ [0x41] ≠ further.encode ∧
      wal.1.length = 1 ∧ readAll wal.2.file = [] ∧ readAll wal.2.file ≠ [] ++ wal.1 := by
  decide

/-- The first `n` bytes of a log that was written from empty are read as the first `k` records
appended, and the record at position `i` is among them exactly when its last byte is. The records
have the operations and the payloads of the calls, and, for a file whose size is a 64-bit number,
increasing LSNs. -/
theorem readAll_take_appendAll (wal : WriteAheadLog) (hfile : wal.file = [])
    (hlsn : ∀ lsn ∈ wal.nextLsn_, lsn = 1) (es : List Entry) (n : ℕ) :
    let records := (wal.appendAll es).1
    let file := (wal.appendAll es).2.file
    records.map (fun r => (r.operation, r.payload)) = es.map (fun e => (e.operation, e.payload)) ∧
      (∃ k, readAll (file.take n) = records.take k ∧
        ∀ i < es.length, i < k ↔ (encodeAll WalRecord.encode (records.take (i + 1))).length ≤ n) ∧
      (file.length < 2 ^ 64 → (readAll (file.take n)).Pairwise fun r r' => r.lsn < r'.lsn) := by
  intro records file
  have hrecords : records = numbered 1 es := appendAll_empty wal hfile hlsn es
  have hbytes : file = encodeAll WalRecord.encode records := by
    rw [← nil_append (encodeAll _ _), ← hfile]
    exact appendAll_file wal es
  obtain ⟨k, hread, hk⟩ := walFormat.scan_take_encodeAll records n
  rw [← hbytes] at hread
  refine ⟨hrecords ▸ map_numbered 1 es, ⟨k, hread, ?_⟩, fun hsize => ?_⟩
  · simpa [hrecords] using hk
  · have hcount := walFormat.length_le_length_encodeAll records
    rw [← hbytes, hrecords, length_numbered] at hcount
    have hroom : (1 : UInt64).toNat + es.length ≤ 2 ^ 64 := by
      rw [UInt64.toNat_one]
      omega
    rw [readAll, hread, hrecords]
    exact (pairwise_numbered hroom).sublist (take_sublist k _)

/-- Two records appended to a new log; the cut at 26 bytes falls inside the second one. -/
theorem readAll_take_appendAll_cut :
    let wal : WriteAheadLog := ⟨[], none⟩
    let es : List Entry := [⟨.createTable, [], by decide⟩, ⟨.insert, [9], by decide⟩]
    (wal.file = [] ∧ ∀ lsn ∈ wal.nextLsn_, lsn = 1) ∧
      ∃ k, readAll ((wal.appendAll es).2.file.take 26) = (wal.appendAll es).1.take k ∧
        ∀ i < es.length, i < k ↔
          (encodeAll WalRecord.encode ((wal.appendAll es).1.take (i + 1))).length ≤ 26 := by
  intro wal es
  have hlsn : ∀ lsn ∈ wal.nextLsn_, lsn = 1 := by
    intro lsn h
    cases h
  exact ⟨⟨rfl, hlsn⟩, (readAll_take_appendAll wal rfl hlsn es 26).2.1⟩

end VertexDB
