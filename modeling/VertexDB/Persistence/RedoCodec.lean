import VertexDB.Indexing.BTreePages
import VertexDB.Indexing.HashIndex
import VertexDB.Lib.ByteCodec
import VertexDB.Storage.PageCodec

/-!
# The payloads of redo records

The codecs of `src/persistence/page_image_redo.cpp` and `src/persistence/physical_redo.cpp`. A batch
is the number of its records and then the records; strings, lists and keys are nested with a count
before each of them. A reader throws where the payload ends too early, and a batch may leave no byte
unread.

A writer leaves out what its record does not use: the heap fields of a page-image record without
`hasHeapMeta`, the children of a leaf, the row ids and the next leaf of an inner node, the row of an
erase. `stored` is the record without them, and it is what is read back.

## Main results

* `exists_decodeBatch_iff`: when a batch is read back as it was.
* `PageImageRedo.mirrors_appendRecord`, `PhysicalRedo.mirrors_appendRecord`.
-/

namespace VertexDB

open LittleEndian ByteReader ByteCodec List

/-! ### Batches of records -/

section Batches

variable {α : Type}

/-- `encodePageImageRedos` and `encodePhysicalRedos`: the records after their number. -/
def encodeBatch (emptyBatch : Error) (appendRecord : α → Writer Error) (records : List α) :
    Writer Error :=
  if records.isEmpty then .error emptyBatch else writeCounted appendRecord records

/-- The loop of `decodePageImageRedos` and of `decodePhysicalRedos`. -/
def readBatch (truncated emptyBatch : Error) (readRecord : Reader Error α) :
    Reader Error (List α) := do
  let count ← fixed 8 truncated
  if count = 0 then throw emptyBatch else many readRecord count

/-- `decodePageImageRedos` and `decodePhysicalRedos`: the loop and the check after it. -/
def decodeBatch (truncated emptyBatch trailing : Error) (readRecord : Reader Error α)
    (payload : List UInt8) : Except Error (List α) := do
  let result ← readBatch truncated emptyBatch readRecord payload
  if result.2.isEmpty then pure result.1 else throw trailing

variable (truncated emptyBatch trailing : Error) {readRecord : Reader Error α}

variable {payload : List UInt8}

/-- What is decoded was read to the last byte. -/
theorem readBatch_of_decodeBatch {records : List α}
    (h : decodeBatch truncated emptyBatch trailing readRecord payload = .ok records) :
    readBatch truncated emptyBatch readRecord payload = .ok (records, []) := by
  unfold decodeBatch at h
  cases hread : readBatch truncated emptyBatch readRecord payload with
  | error error => rw [hread] at h; cases h
  | ok result =>
    rw [hread] at h
    change (if result.2.isEmpty = true then _ else _) = _ at h
    split_ifs at h with hrest
    rw [← Except.ok.inj h, ← isEmpty_iff.mp hrest]

theorem decodeBatch_of_whole {records : List α}
    (h : Whole (readBatch truncated emptyBatch readRecord) payload records) :
    decodeBatch truncated emptyBatch trailing readRecord payload = .ok records := by
  have hread := h.reads []
  rw [append_nil] at hread
  rw [decodeBatch, hread]
  rfl

theorem decodeBatch_of_prefix {cut : List UInt8} {records : List α}
    (h : Whole (readBatch truncated emptyBatch readRecord) payload records) (hcut : cut <+: payload)
    (hne : cut ≠ payload) :
    ∃ error, decodeBatch truncated emptyBatch trailing readRecord cut = .error error := by
  obtain ⟨error, herror⟩ := h.refuses cut hcut hne
  exact ⟨error, by rw [decodeBatch, herror]; rfl⟩

variable {emptyRecords : Error} {appendRecord : α → Writer Error} {stored : α → α}
  {records : List α}

private theorem map_eq_self_iff : records.map stored = records ↔ ∀ record ∈ records,
    stored record = record := by
  have h := map_inj_left (l := records) (f := stored) (g := id)
  rwa [map_id] at h

theorem encodeBatch_of_ne_nil (hne : records ≠ []) :
    encodeBatch emptyRecords appendRecord records = writeCounted appendRecord records :=
  if_neg (by simpa using hne)

/-- The loop takes what was written for the records as the records without the fields that were
left out. -/
theorem whole_readBatch (hne : records ≠ [])
    (h : ∀ record ∈ records, Mirrors (appendRecord record) readRecord (stored record))
    (hlen : records.length < 2 ^ 64)
    (hencode : encodeBatch emptyRecords appendRecord records = .ok payload) :
    Whole (readBatch truncated emptyBatch readRecord) payload (records.map stored) := by
  rw [encodeBatch_of_ne_nil hne] at hencode
  have hloop : Mirrors (writeAll appendRecord records)
      (if records.length = 0 then throw emptyBatch else many readRecord records.length)
      (records.map stored) := by
    rw [if_neg (length_pos_iff.mpr hne).ne']
    exact mirrors_all h
  exact (mirrors_fixed truncated hlen).bind hloop payload hencode

/-- A batch is read back as it was written exactly when every record is written and keeps all of
its fields. -/
theorem exists_decodeBatch_iff (hne : records ≠ [])
    (h : ∀ record ∈ records, Mirrors (appendRecord record) readRecord (stored record))
    (hlen : records.length < 2 ^ 64) :
    (∃ payload, encodeBatch emptyRecords appendRecord records = .ok payload ∧
        decodeBatch truncated emptyBatch trailing readRecord payload = .ok records) ↔
      ∀ record ∈ records, Succeeds (appendRecord record) ∧ stored record = record := by
  have hencode : encodeBatch emptyRecords appendRecord records =
      writeCounted appendRecord records :=
    encodeBatch_of_ne_nil hne
  constructor
  · rintro ⟨payload, hpayload, hdecode⟩ record hmem
    have hread := decodeBatch_of_whole truncated emptyBatch trailing
      (whole_readBatch truncated emptyBatch hne h hlen hpayload)
    have hmap := map_eq_self_iff.mp (Except.ok.inj (hread.symm.trans hdecode))
    have hsucceeds := succeeds_counted.mp ⟨payload, hencode ▸ hpayload⟩
    exact ⟨hsucceeds record hmem, hmap record hmem⟩
  · intro hall
    obtain ⟨payload, hpayload⟩ := succeeds_counted.mpr fun record hmem => (hall record hmem).1
    have hmap := map_eq_self_iff.mpr fun record hmem => (hall record hmem).2
    have hwhole := whole_readBatch truncated emptyBatch hne h hlen (hencode.trans hpayload)
    rw [hmap] at hwhole
    exact ⟨payload, hencode.trans hpayload,
      decodeBatch_of_whole truncated emptyBatch trailing hwhole⟩

end Batches

section Payloads

/-- The `switch` of the two `readValue`s: the payload after a type tag. -/
def readPayload (truncated unsupported : Error) (typeTag : ℕ) : Reader Error Value :=
  if typeTag = ColumnType.toTag .int then
    return .int (UInt64.ofNat (← fixed 8 truncated)).toInt64
  else if typeTag = ColumnType.toTag .double then
    return .double ⟨UInt64.ofNat (← fixed 8 truncated)⟩
  else if typeTag = ColumnType.toTag .string then
    return .string (← sized truncated)
  else
    throw unsupported

variable (truncated unsupported : Error)

theorem whole_readPayload_int (value : Int64) :
    Whole (readPayload truncated unsupported (ColumnType.toTag .int))
      (toBytes 8 value.toUInt64.toNat) (.int value) := by
  have hread := (whole_fixed truncated (w := 8) (n := value.toUInt64.toNat)
    value.toUInt64.toNat_lt).map fun n => Value.int (UInt64.ofNat n).toInt64
  simp only [UInt64.ofNat_toNat, Int64.toInt64_toUInt64] at hread
  exact hread

theorem whole_readPayload_double (value : Double) :
    Whole (readPayload truncated unsupported (ColumnType.toTag .double))
      (toBytes 8 value.bits.toNat) (.double value) := by
  have hread := (whole_fixed truncated (w := 8) (n := value.bits.toNat)
    value.bits.toNat_lt).map fun n => Value.double ⟨UInt64.ofNat n⟩
  simp only [UInt64.ofNat_toNat] at hread
  exact hread

theorem whole_readPayload_string {text : List UInt8} (hlen : text.length < 2 ^ 64) :
    Whole (readPayload truncated unsupported (ColumnType.toTag .string))
      (toBytes 8 text.length ++ text) (.string text) :=
  (whole_sized text truncated hlen).map Value.string

theorem shrinks_readPayload (typeTag : ℕ) :
    Shrinks (readPayload truncated unsupported typeTag) := by
  unfold readPayload
  split_ifs
  · exact (shrinks_fixed 8 truncated).bind fun _ => shrinks_pure _
  · exact (shrinks_fixed 8 truncated).bind fun _ => shrinks_pure _
  · exact (shrinks_sized truncated).bind fun _ => shrinks_pure _
  · exact shrinks_throw unsupported

end Payloads

/-! ### Page images -/

namespace PageImageRedo

/-- `kCompositeValueType`. -/
def compositeTag : ℕ := 254

/-- `kTruncated`. -/
def truncated : Error := .runtimeError "truncated page image redo payload"

/-- What `readValue` throws on a type tag it does not know. -/
def unsupported : Error := .runtimeError "unsupported value type in page image redo payload"

mutual

/-- `appendValue`. A parameter has no type and throws. -/
def appendValue : Value → Writer Error
  | .null => writeFixed 1 nullTag
  | .int value => writeFixed 1 (ColumnType.toTag .int) ++ writeFixed 8 value.toUInt64.toNat
  | .double value => writeFixed 1 (ColumnType.toTag .double) ++ writeFixed 8 value.bits.toNat
  | .string text => writeFixed 1 (ColumnType.toTag .string) ++ writeSized text
  | .parameter _ => .error (.runtimeError "parameter placeholder has no concrete column type")
  | .composite parts =>
    writeFixed 1 compositeTag ++ (writeFixed 8 parts.length ++ appendParts parts)

/-- The loop of `appendValue` over the parts of a composite. -/
def appendParts : List Value → Writer Error
  | [] => write []
  | part :: parts => appendValue part ++ appendParts parts

end

/-- The body of `readValue`, with the reader of the parts of a composite. -/
def readValueStep (readValue : Reader Error Value) : Reader Error Value := do
  let encodedType ← fixed 1 truncated
  if encodedType = nullTag then return .null
  else if encodedType = compositeTag then
    let parts ← counted truncated readValue
    attempt (Value.makeComposite parts)
  else
    readPayload truncated unsupported encodedType

/-- `readValue`. -/
def readValue : Reader Error Value := recursive readValueStep truncated

theorem guarded_readValueStep : Guarded readValueStep where
  shrinks r hr := (shrinks_fixed 1 truncated).bind fun encodedType => by
    split_ifs
    · exact shrinks_pure _
    · exact (hr.counted truncated).bind fun parts => shrinks_attempt _
    · exact shrinks_readPayload _ _ _
  agree r r' bs hr _ h := fixed_bind_congr Nat.one_pos truncated fun encodedType t ht => by
    split_ifs
    · rfl
    · rw [bind_apply, bind_apply, counted_congr truncated hr fun t' ht' => h t' (ht'.trans_lt ht)]
    · rfl

theorem readValue_eq : readValue = readValueStep readValue :=
  recursive_eq guarded_readValueStep truncated

mutual

/-- What a `Value` of the source can be: the size of a string or of a composite is a `std::size_t`,
and a composite has at least two parts. -/
def representable : Value → Bool
  | .string text => text.length < 2 ^ 64
  | .composite parts =>
    decide (2 ≤ parts.length ∧ parts.length < 2 ^ 64) && allRepresentable parts
  | _ => true

/-- The parts of a composite. -/
def allRepresentable : List Value → Bool
  | [] => true
  | part :: parts => representable part && allRepresentable parts

end

mutual

/-- No parameter slot occurs in the value. -/
def concrete : Value → Bool
  | .parameter _ => false
  | .composite parts => allConcrete parts
  | _ => true

/-- The parts of a composite. -/
def allConcrete : List Value → Bool
  | [] => true
  | part :: parts => concrete part && allConcrete parts

end

theorem makeComposite_of_le {parts : List Value} (h : 2 ≤ parts.length) :
    Value.makeComposite parts = .ok (.composite parts) := by
  rcases parts with _ | ⟨first, _ | ⟨second, rest⟩⟩
  · simp at h
  · simp at h
  · rfl

mutual

theorem mirrors_appendValue (value : Value) (h : representable value = true) :
    Mirrors (appendValue value) readValue value := by
  rw [readValue_eq]
  cases value with
  | null => exact (mirrors_fixed truncated (by decide)).bind_nil (whole_pure _)
  | int value =>
    have hpayload := whole_readPayload_int truncated unsupported value
    exact (mirrors_fixed truncated (by decide)).bind (mirrors_write hpayload)
  | double value =>
    have hpayload := whole_readPayload_double truncated unsupported value
    exact (mirrors_fixed truncated (by decide)).bind (mirrors_write hpayload)
  | string text =>
    have hlen : text.length < 2 ^ 64 := by simpa [representable] using h
    have hpayload := whole_readPayload_string truncated unsupported hlen
    exact (mirrors_fixed truncated (by decide)).bind (mirrors_write hpayload)
  | parameter index => rintro bs ⟨⟩
  | composite parts =>
    rw [representable, Bool.and_eq_true, decide_eq_true_eq] at h
    have hcount : Mirrors (writeFixed 8 parts.length) (fixed 8 truncated) parts.length :=
      mirrors_fixed truncated h.1.2
    have hparts : Mirrors (writeFixed 8 parts.length ++ appendParts parts)
        (counted truncated readValue) parts := hcount.bind (mirrors_appendParts parts h.2)
    have hcomposite := hparts.bind_nil (f := fun parts => attempt (Value.makeComposite parts))
      (whole_attempt (makeComposite_of_le h.1.1))
    exact (mirrors_fixed truncated (by decide)).bind hcomposite

theorem mirrors_appendParts (parts : List Value) (h : allRepresentable parts = true) :
    Mirrors (appendParts parts) (many readValue parts.length) parts := by
  cases parts with
  | nil => exact mirrors_pure []
  | cons part parts =>
    rw [allRepresentable, Bool.and_eq_true] at h
    exact (mirrors_appendValue part h.1).bind ((mirrors_appendParts parts h.2).map (part :: ·))

end

mutual

/-- A key is written exactly when no parameter slot occurs in it. -/
theorem succeeds_appendValue (value : Value) :
    Succeeds (appendValue value) ↔ concrete value = true := by
  cases value with
  | null | int | double | string => simp [appendValue, concrete]
  | parameter index =>
    simp only [concrete, Bool.false_eq_true, iff_false]
    rintro ⟨bs, ⟨⟩⟩
  | composite parts => simp [appendValue, concrete, succeeds_appendParts parts]

theorem succeeds_appendParts (parts : List Value) :
    Succeeds (appendParts parts) ↔ allConcrete parts = true := by
  cases parts with
  | nil => simp [appendParts, allConcrete]
  | cons part parts =>
    simp [appendParts, allConcrete, succeeds_appendValue part, succeeds_appendParts parts]

end

/-- A list of row ids or page ids: the size and the ids are `std::uint64_t`. -/
def Words (ids : List ℕ) : Prop := ids.length < 2 ^ 64 ∧ ∀ id ∈ ids, id < 2 ^ 64

instance : DecidablePred Words := fun _ => inferInstanceAs (Decidable (_ ∧ _))

/-- The loops that append row ids or page ids. -/
def appendIds (ids : List ℕ) : Writer Error := writeCounted (writeFixed 8) ids

/-- The loops that read row ids or page ids. -/
def readIds : Reader Error (List ℕ) := counted truncated (fixed 8 truncated)

theorem mirrors_appendIds {ids : List ℕ} (h : Words ids) : Mirrors (appendIds ids) readIds ids := by
  have hids := mirrors_counted (f := id) truncated h.1 fun id hid =>
    mirrors_fixed (w := 8) truncated (h.2 id hid)
  rwa [map_id] at hids

@[simp] theorem succeeds_appendIds (ids : List ℕ) : Succeeds (appendIds ids) := by
  simp [appendIds]

/-- `static_cast<std::uint8_t>(flag ? 1 : 0)`. -/
def appendFlag (flag : Bool) : Writer Error := writeFixed 1 (if flag then 1 else 0)

/-- A flag: any byte but zero is set. -/
def readFlag : Reader Error Bool := do return (← fixed 1 truncated) ≠ 0

theorem mirrors_appendFlag (flag : Bool) : Mirrors (appendFlag flag) readFlag flag := by
  cases flag with
  | false => exact (mirrors_fixed truncated (by decide)).map fun byte => decide (byte ≠ 0)
  | true => exact (mirrors_fixed truncated (by decide)).map fun byte => decide (byte ≠ 0)

@[simp] theorem succeeds_appendFlag (flag : Bool) : Succeeds (appendFlag flag) :=
  succeeds_fixed 1 _

section Nodes

/-- The end of `appendBTreeNode`: the page id of the next leaf, if there is one. -/
def appendNextLeaf : Option ℕ → Writer Error
  | none => appendFlag false
  | some pageId => appendFlag true ++ writeFixed 8 pageId

/-- The end of `readBTreeNode`. -/
def readNextLeaf : Reader Error (Option ℕ) := do
  let present ← readFlag
  if present then return some (← fixed 8 truncated) else return none

/-- `appendBTreeNode`. -/
def appendBTreeNode (node : BTreeNode Value) : Writer Error :=
  writeFixed 8 node.pageId ++ (appendFlag node.leaf ++ (writeCounted appendValue node.keys ++
    if node.leaf then writeCounted appendIds node.rowIds ++ appendNextLeaf node.nextLeaf
    else appendIds node.children))

/-- `readBTreeNode`. -/
def readBTreeNode : Reader Error (BTreeNode Value) := do
  let pageId ← fixed 8 truncated
  let leaf ← readFlag
  let keys ← counted truncated readValue
  if leaf then
    let rowIds ← counted truncated readIds
    let nextLeaf ← readNextLeaf
    return { pageId := pageId, leaf := true, keys := keys, rowIds := rowIds, nextLeaf := nextLeaf }
  else
    let children ← readIds
    return { pageId := pageId, leaf := false, keys := keys, children := children }

/-- The sizes and the ids of a node are 64-bit numbers, and its keys are values of the source. -/
structure RepresentableNode (node : BTreeNode Value) : Prop where
  pageId : node.pageId < 2 ^ 64
  keyCount : node.keys.length < 2 ^ 64
  keys : ∀ key ∈ node.keys, representable key = true
  rowIdCount : node.rowIds.length < 2 ^ 64
  rowIds : ∀ ids ∈ node.rowIds, Words ids
  children : Words node.children
  nextLeaf : ∀ pageId ∈ node.nextLeaf, pageId < 2 ^ 64

/-- The node without the fields its kind does not use. -/
def storedNode (node : BTreeNode Value) : BTreeNode Value :=
  if node.leaf then { node with children := [] } else { node with rowIds := [], nextLeaf := none }

theorem mirrors_appendNextLeaf {nextLeaf : Option ℕ} (h : ∀ pageId ∈ nextLeaf, pageId < 2 ^ 64) :
    Mirrors (appendNextLeaf nextLeaf) readNextLeaf nextLeaf := by
  cases nextLeaf with
  | none => exact (mirrors_appendFlag false).bind_nil (whole_pure none)
  | some pageId =>
    have hid : Mirrors (writeFixed 8 pageId) (fixed 8 truncated) pageId :=
      mirrors_fixed truncated (h pageId rfl)
    exact (mirrors_appendFlag true).bind (hid.map some)

theorem mirrors_keys {keys : List Value} (hlen : keys.length < 2 ^ 64)
    (h : ∀ key ∈ keys, representable key = true) :
    Mirrors (writeCounted appendValue keys) (counted truncated readValue) keys := by
  have hkeys := mirrors_counted (f := id) truncated hlen fun key hkey =>
    mirrors_appendValue key (h key hkey)
  rwa [map_id] at hkeys

theorem mirrors_appendBTreeNode {node : BTreeNode Value} (h : RepresentableNode node) :
    Mirrors (appendBTreeNode node) readBTreeNode (storedNode node) := by
  obtain ⟨pageId, leaf, keys, rowIds, children, nextLeaf⟩ := node
  refine (mirrors_fixed truncated h.pageId).bind ((mirrors_appendFlag leaf).bind
    ((mirrors_keys h.keyCount h.keys).bind ?_))
  cases leaf with
  | false => exact (mirrors_appendIds h.children).map _
  | true =>
    have hids := mirrors_counted (f := id) truncated h.rowIdCount fun ids hmem =>
      mirrors_appendIds (h.rowIds ids hmem)
    rw [map_id] at hids
    exact hids.bind ((mirrors_appendNextLeaf h.nextLeaf).map _)

@[simp] theorem succeeds_appendNextLeaf (nextLeaf : Option ℕ) :
    Succeeds (appendNextLeaf nextLeaf) := by
  cases nextLeaf <;> simp [appendNextLeaf]

theorem succeeds_appendBTreeNode (node : BTreeNode Value) :
    Succeeds (appendBTreeNode node) ↔ ∀ key ∈ node.keys, concrete key = true := by
  have hrest : Succeeds (if node.leaf then
      writeCounted appendIds node.rowIds ++ appendNextLeaf node.nextLeaf
      else appendIds node.children) := by
    split_ifs <;> simp
  simp [appendBTreeNode, hrest, succeeds_appendValue]

end Nodes

section Snapshots

/-- `BTreeIndexSnapshot`. -/
structure BTreeIndexSnapshot where
  maxKeysPerNode : ℕ := 64
  rootPageId : ℕ := 1
  nextPageId : ℕ := 2
  freePageIds : List ℕ := []
  keyCount : ℕ := 0
  nodes : List (BTreeNode Value) := []
  deriving DecidableEq

/-- `appendBTreeSnapshot`. -/
def appendBTreeSnapshot (snapshot : BTreeIndexSnapshot) : Writer Error :=
  writeFixed 8 snapshot.maxKeysPerNode ++ (writeFixed 8 snapshot.rootPageId ++
    (writeFixed 8 snapshot.nextPageId ++ (writeFixed 8 snapshot.keyCount ++
      (appendIds snapshot.freePageIds ++ writeCounted appendBTreeNode snapshot.nodes))))

/-- `readBTreeSnapshot`. -/
def readBTreeSnapshot : Reader Error BTreeIndexSnapshot := do
  let maxKeysPerNode ← fixed 8 truncated
  let rootPageId ← fixed 8 truncated
  let nextPageId ← fixed 8 truncated
  let keyCount ← fixed 8 truncated
  let freePageIds ← readIds
  let nodes ← counted truncated readBTreeNode
  return ⟨maxKeysPerNode, rootPageId, nextPageId, freePageIds, keyCount, nodes⟩

/-- The loop body of `appendHashSnapshot`. -/
def appendBucket (bucket : Value × List ℕ) : Writer Error :=
  appendValue bucket.1 ++ appendIds bucket.2

/-- The loop body of `readHashSnapshot`. -/
def readBucket : Reader Error (Value × List ℕ) := do
  let key ← readValue
  let rowIds ← readIds
  return (key, rowIds)

/-- `appendHashSnapshot`. -/
def appendHashSnapshot (snapshot : HashIndexSnapshot) : Writer Error :=
  appendFlag snapshot.replaceAll ++ writeCounted appendBucket snapshot.buckets

/-- `readHashSnapshot`. -/
def readHashSnapshot : Reader Error HashIndexSnapshot := do
  let replaceAll ← readFlag
  let buckets ← counted truncated readBucket
  return ⟨replaceAll, buckets⟩

/-- The numbers and the sizes of a snapshot of a B+ tree are 64-bit numbers. -/
structure RepresentableBTree (snapshot : BTreeIndexSnapshot) : Prop where
  maxKeysPerNode : snapshot.maxKeysPerNode < 2 ^ 64
  rootPageId : snapshot.rootPageId < 2 ^ 64
  nextPageId : snapshot.nextPageId < 2 ^ 64
  keyCount : snapshot.keyCount < 2 ^ 64
  freePageIds : Words snapshot.freePageIds
  nodeCount : snapshot.nodes.length < 2 ^ 64
  nodes : ∀ node ∈ snapshot.nodes, RepresentableNode node

/-- The numbers and the sizes of a snapshot of a hash index are 64-bit numbers. -/
structure RepresentableHash (snapshot : HashIndexSnapshot) : Prop where
  bucketCount : snapshot.buckets.length < 2 ^ 64
  keys : ∀ bucket ∈ snapshot.buckets, representable bucket.1 = true
  rowIds : ∀ bucket ∈ snapshot.buckets, Words bucket.2

/-- The snapshot with the nodes as they are stored. -/
def storedBTree (snapshot : BTreeIndexSnapshot) : BTreeIndexSnapshot :=
  { snapshot with nodes := snapshot.nodes.map storedNode }

theorem mirrors_appendBTreeSnapshot {snapshot : BTreeIndexSnapshot}
    (h : RepresentableBTree snapshot) :
    Mirrors (appendBTreeSnapshot snapshot) readBTreeSnapshot (storedBTree snapshot) := by
  obtain ⟨maxKeysPerNode, rootPageId, nextPageId, freePageIds, keyCount, nodes⟩ := snapshot
  have hnodes := mirrors_counted truncated h.nodeCount fun node hnode =>
    mirrors_appendBTreeNode (h.nodes node hnode)
  exact (mirrors_fixed truncated h.maxKeysPerNode).bind
    ((mirrors_fixed truncated h.rootPageId).bind ((mirrors_fixed truncated h.nextPageId).bind
      ((mirrors_fixed truncated h.keyCount).bind ((mirrors_appendIds h.freePageIds).bind
        (hnodes.map _)))))

theorem mirrors_appendHashSnapshot {snapshot : HashIndexSnapshot} (h : RepresentableHash snapshot) :
    Mirrors (appendHashSnapshot snapshot) readHashSnapshot snapshot := by
  obtain ⟨replaceAll, buckets⟩ := snapshot
  have hbucket : ∀ bucket ∈ buckets, Mirrors (appendBucket bucket) readBucket (id bucket) :=
    fun bucket hmem => (mirrors_appendValue bucket.1 (h.keys bucket hmem)).bind
      ((mirrors_appendIds (h.rowIds bucket hmem)).map (bucket.1, ·))
  have hbuckets := mirrors_counted truncated h.bucketCount hbucket
  rw [map_id] at hbuckets
  exact (mirrors_appendFlag replaceAll).bind (hbuckets.map _)

theorem succeeds_appendBTreeSnapshot (snapshot : BTreeIndexSnapshot) :
    Succeeds (appendBTreeSnapshot snapshot) ↔
      ∀ node ∈ snapshot.nodes, ∀ key ∈ node.keys, concrete key = true := by
  simp [appendBTreeSnapshot, succeeds_appendBTreeNode]

theorem succeeds_appendHashSnapshot (snapshot : HashIndexSnapshot) :
    Succeeds (appendHashSnapshot snapshot) ↔
      ∀ bucket ∈ snapshot.buckets, concrete bucket.1 = true := by
  simp [appendHashSnapshot, appendBucket, succeeds_appendValue]

end Snapshots

section Records

/-- `IndexPageKind`, as the byte it is written as. -/
def IndexPageKind.hash : ℕ := 0

/-- `IndexPageKind::BTree`. -/
def IndexPageKind.btree : ℕ := 1

/-- `HeapPageImage`. -/
structure HeapPageImage where
  pageId : ℕ
  bytes : List UInt8
  deriving DecidableEq

/-- `PageImageRedoRecord`. -/
structure PageImageRedoRecord where
  tableName : List UInt8
  hasHeapMeta : Bool := false
  capacity : ℕ := 0
  freeList : List ℕ := []
  heapPages : List HeapPageImage := []
  btreeIndexes : List (List UInt8 × BTreeIndexSnapshot) := []
  hashIndexes : List (List UInt8 × HashIndexSnapshot) := []
  deriving DecidableEq

/-- The part of `appendRecord` for the pages of the heap. -/
def appendHeapPage (page : HeapPageImage) : Writer Error :=
  writeFixed 8 page.pageId ++ writeSized page.bytes

/-- The part of `readRecord` for the pages of the heap. -/
def readHeapPage : Reader Error HeapPageImage := do
  let pageId ← fixed 8 truncated
  let bytes ← sized truncated
  return ⟨pageId, bytes⟩

/-- The parts of `appendRecord` for the indexes: a name, the kind and the snapshot. -/
def appendIndex {σ : Type} (kind : ℕ) (appendSnapshot : σ → Writer Error)
    (index : List UInt8 × σ) : Writer Error :=
  writeSized index.1 ++ (writeFixed 1 kind ++ appendSnapshot index.2)

/-- The parts of `readRecord` for the indexes. -/
def readIndex {σ : Type} (kind : ℕ) (unexpected : Error) (readSnapshot : Reader Error σ) :
    Reader Error (List UInt8 × σ) := do
  let name ← sized truncated
  let kind' ← fixed 1 truncated
  if kind' ≠ kind then throw unexpected
  else return (name, ← readSnapshot)

/-- The part of `appendRecord` for the heap, which is written only under its flag. -/
def appendHeapMeta (record : PageImageRedoRecord) : Writer Error :=
  if record.hasHeapMeta then writeFixed 8 record.capacity ++ appendIds record.freeList
  else write []

/-- The part of `readRecord` for the heap. -/
def readHeapMeta (hasHeapMeta : Bool) : Reader Error (ℕ × List ℕ) :=
  if hasHeapMeta then do
    let capacity ← fixed 8 truncated
    let freeList ← readIds
    return (capacity, freeList)
  else return (0, [])

/-- What `readRecord` throws where an index of the other kind stands. -/
def unexpectedBTree : Error :=
  .runtimeError "expected btree index page kind in page image redo"

@[inherit_doc unexpectedBTree]
def unexpectedHash : Error := .runtimeError "expected hash index page kind in page image redo"

/-- `appendRecord`. -/
def appendRecord (record : PageImageRedoRecord) : Writer Error :=
  writeSized record.tableName ++ (appendFlag record.hasHeapMeta ++ (appendHeapMeta record ++
    (writeCounted appendHeapPage record.heapPages ++
      (writeCounted (appendIndex IndexPageKind.btree appendBTreeSnapshot) record.btreeIndexes ++
        writeCounted (appendIndex IndexPageKind.hash appendHashSnapshot) record.hashIndexes))))

/-- `readRecord`. -/
def readRecord : Reader Error PageImageRedoRecord := do
  let tableName ← sized truncated
  let hasHeapMeta ← readFlag
  let heapMeta ← readHeapMeta hasHeapMeta
  let heapPages ← counted truncated readHeapPage
  let btreeIndexes ← counted truncated
    (readIndex IndexPageKind.btree unexpectedBTree readBTreeSnapshot)
  let hashIndexes ← counted truncated (readIndex IndexPageKind.hash unexpectedHash readHashSnapshot)
  return ⟨tableName, hasHeapMeta, heapMeta.1, heapMeta.2, heapPages, btreeIndexes, hashIndexes⟩

/-- `encodePageImageRedos`. -/
def encodePageImageRedos (records : List PageImageRedoRecord) : Writer Error :=
  encodeBatch (.invalidArgument "page image redo batch must be non-empty") appendRecord records

/-- The loop of `decodePageImageRedos`. -/
def readPageImageRedos : Reader Error (List PageImageRedoRecord) :=
  readBatch truncated (.runtimeError "empty page image redo batch in WAL payload") readRecord

/-- `decodePageImageRedos`. -/
def decodePageImageRedos (payload : List UInt8) : Except Error (List PageImageRedoRecord) :=
  decodeBatch truncated (.runtimeError "empty page image redo batch in WAL payload")
    (.runtimeError "trailing bytes in page image redo payload") readRecord payload

namespace PageImageRedoRecord

/-- The numbers and the sizes of a record are 64-bit numbers. -/
structure Representable (record : PageImageRedoRecord) : Prop where
  tableName : record.tableName.length < 2 ^ 64
  capacity : record.capacity < 2 ^ 64
  freeList : Words record.freeList
  pageCount : record.heapPages.length < 2 ^ 64
  pages : ∀ page ∈ record.heapPages, page.pageId < 2 ^ 64 ∧ page.bytes.length < 2 ^ 64
  btreeCount : record.btreeIndexes.length < 2 ^ 64
  btrees : ∀ index ∈ record.btreeIndexes, index.1.length < 2 ^ 64 ∧ RepresentableBTree index.2
  hashCount : record.hashIndexes.length < 2 ^ 64
  hashes : ∀ index ∈ record.hashIndexes, index.1.length < 2 ^ 64 ∧ RepresentableHash index.2

/-- Every node of the record has only the fields its kind uses: a leaf has no children, an inner
node has no row ids and no next leaf. -/
def WellFormedNodes (record : PageImageRedoRecord) : Prop :=
  ∀ index ∈ record.btreeIndexes, ∀ node ∈ index.2.nodes, storedNode node = node

/-- The record without the fields that are not written. -/
def stored (record : PageImageRedoRecord) : PageImageRedoRecord where
  tableName := record.tableName
  hasHeapMeta := record.hasHeapMeta
  capacity := if record.hasHeapMeta then record.capacity else 0
  freeList := if record.hasHeapMeta then record.freeList else []
  heapPages := record.heapPages
  btreeIndexes := record.btreeIndexes.map fun index => (index.1, storedBTree index.2)
  hashIndexes := record.hashIndexes

/-- No parameter slot occurs in a key of the record. -/
def Concrete (record : PageImageRedoRecord) : Prop :=
  (∀ index ∈ record.btreeIndexes, ∀ node ∈ index.2.nodes, ∀ key ∈ node.keys, concrete key = true) ∧
    ∀ index ∈ record.hashIndexes, ∀ bucket ∈ index.2.buckets, concrete bucket.1 = true

end PageImageRedoRecord

theorem mirrors_appendIndex {σ : Type} (kind : ℕ) (unexpected : Error) (hkind : kind < 256)
    {appendSnapshot : σ → Writer Error} {readSnapshot : Reader Error σ} {index : List UInt8 × σ}
    {snapshot : σ} (hlen : index.1.length < 2 ^ 64)
    (h : Mirrors (appendSnapshot index.2) readSnapshot snapshot) :
    Mirrors (appendIndex kind appendSnapshot index) (readIndex kind unexpected readSnapshot)
      (index.1, snapshot) := by
  have hbyte : Mirrors (writeFixed 1 kind) (fixed 1 truncated) kind := mirrors_fixed truncated hkind
  refine (mirrors_sized truncated hlen).bind (hbyte.bind ?_)
  rw [if_neg (not_not_intro rfl)]
  exact h.map (index.1, ·)

variable {record : PageImageRedoRecord}

theorem mirrors_appendHeapMeta (h : record.Representable) :
    Mirrors (appendHeapMeta record) (readHeapMeta record.hasHeapMeta)
      (record.stored.capacity, record.stored.freeList) := by
  unfold appendHeapMeta readHeapMeta PageImageRedoRecord.stored
  cases record.hasHeapMeta with
  | false => exact mirrors_pure _
  | true =>
    exact (mirrors_fixed truncated h.capacity).bind
      ((mirrors_appendIds h.freeList).map (record.capacity, ·))

/-- A record is read back without the fields that are not written. -/
theorem mirrors_appendRecord (h : record.Representable) :
    Mirrors (appendRecord record) readRecord record.stored := by
  have hpage : ∀ page ∈ record.heapPages, Mirrors (appendHeapPage page) readHeapPage (id page) :=
    fun page hmem => (mirrors_fixed truncated (h.pages page hmem).1).bind
      ((mirrors_sized truncated (h.pages page hmem).2).map (HeapPageImage.mk page.pageId))
  have hpages := mirrors_counted truncated h.pageCount hpage
  rw [map_id] at hpages
  have hbtrees := mirrors_counted truncated h.btreeCount fun index hidx =>
    mirrors_appendIndex IndexPageKind.btree unexpectedBTree (by decide)
      (h.btrees index hidx).1 (mirrors_appendBTreeSnapshot (h.btrees index hidx).2)
  have hhashes := mirrors_counted (f := id) truncated h.hashCount fun index hidx =>
    mirrors_appendIndex IndexPageKind.hash unexpectedHash (by decide)
      (h.hashes index hidx).1 (mirrors_appendHashSnapshot (h.hashes index hidx).2)
  rw [map_id] at hhashes
  exact (mirrors_sized truncated h.tableName).bind ((mirrors_appendFlag record.hasHeapMeta).bind
    ((mirrors_appendHeapMeta h).bind (hpages.bind (hbtrees.bind (hhashes.map _)))))

theorem succeeds_appendRecord (record : PageImageRedoRecord) :
    Succeeds (appendRecord record) ↔ record.Concrete := by
  have hmeta : Succeeds (appendHeapMeta record) := by
    unfold appendHeapMeta
    split_ifs <;> simp
  simp [appendRecord, hmeta, appendHeapPage, appendIndex, succeeds_appendBTreeSnapshot,
    succeeds_appendHashSnapshot, PageImageRedoRecord.Concrete]

theorem storedBTree_eq_iff (snapshot : BTreeIndexSnapshot) :
    storedBTree snapshot = snapshot ↔ ∀ node ∈ snapshot.nodes, storedNode node = node := by
  obtain ⟨maxKeysPerNode, rootPageId, nextPageId, freePageIds, keyCount, nodes⟩ := snapshot
  simp [storedBTree, map_eq_self_iff]

/-- With well-formed nodes a record keeps all of its fields exactly when it has the flag of the heap
fields or leaves them empty. -/
theorem stored_eq_iff (h : record.WellFormedNodes) :
    record.stored = record ↔
      (record.hasHeapMeta = false → record.capacity = 0 ∧ record.freeList = []) := by
  have hbtrees : (record.btreeIndexes.map fun index => (index.1, storedBTree index.2)) =
      record.btreeIndexes :=
    map_eq_self_iff.mpr fun index hidx =>
      Prod.ext rfl ((storedBTree_eq_iff index.2).mpr (h index hidx))
  obtain ⟨tableName, hasHeapMeta, capacity, freeList, heapPages, btreeIndexes, hashIndexes⟩ :=
    record
  cases hasHeapMeta with
  | false => simpa [PageImageRedoRecord.stored, eq_comm] using fun _ _ => hbtrees
  | true => simpa [PageImageRedoRecord.stored] using hbtrees

end Records

end PageImageRedo

/-! ### Changes of rows -/

namespace PhysicalRedo

/-- `kTruncated`. -/
def truncated : Error := .runtimeError "truncated physical redo payload"

/-- What `readValue` throws on a type tag it does not know. -/
def unsupported : Error := .runtimeError "unsupported value type in physical redo payload"

/-- `PhysicalRedoKind`. The enumeration has a fixed underlying byte, so the bytes without an
enumerator are values of the type as well. -/
inductive PhysicalRedoKind where
  | upsert
  | erase
  | unnamed (code : UInt8) (h : 2 ≤ code)
  deriving DecidableEq

/-- `static_cast<std::uint8_t>(kind)`. -/
def PhysicalRedoKind.toByte : PhysicalRedoKind → ℕ
  | upsert => 0
  | erase => 1
  | unnamed code _ => code.toNat

/-- `PhysicalRedoRecord`. -/
structure PhysicalRedoRecord where
  kind : PhysicalRedoKind := .upsert
  tableName : List UInt8
  rowId : ℕ
  row : Row := []
  deriving DecidableEq

/-- `appendValue`, which is that of the pages: a parameter or a composite has no type and throws. -/
def appendValue (value : Value) : Writer Error := VertexDB.appendValue value

/-- `readValue`. -/
def readValue : Reader Error Value := do
  let encodedType ← fixed 1 truncated
  if encodedType = nullTag then return .null else readPayload truncated unsupported encodedType

/-- `appendRecord`. -/
def appendRecord (record : PhysicalRedoRecord) : Writer Error :=
  writeFixed 1 record.kind.toByte ++ (writeSized record.tableName ++ (writeFixed 8 record.rowId ++
    match record.kind with
    | .upsert => writeCounted appendValue record.row
    | .erase => write []
    | .unnamed _ _ => .error (.invalidArgument "unknown physical redo kind")))

/-- `readRecord`. -/
def readRecord : Reader Error PhysicalRedoRecord := do
  let kind ← fixed 1 truncated
  let tableName ← sized truncated
  let rowId ← fixed 8 truncated
  if kind = PhysicalRedoKind.upsert.toByte then
    return ⟨.upsert, tableName, rowId, ← counted truncated readValue⟩
  else if kind = PhysicalRedoKind.erase.toByte then return ⟨.erase, tableName, rowId, []⟩
  else throw (.runtimeError "unknown physical redo kind in WAL payload")

/-- `encodePhysicalRedos`. -/
def encodePhysicalRedos (records : List PhysicalRedoRecord) : Writer Error :=
  encodeBatch (.invalidArgument "physical redo batch must be non-empty") appendRecord records

/-- The loop of `decodePhysicalRedos`. -/
def readPhysicalRedos : Reader Error (List PhysicalRedoRecord) :=
  readBatch truncated (.runtimeError "empty physical redo batch in WAL payload") readRecord

/-- `decodePhysicalRedos`. -/
def decodePhysicalRedos (payload : List UInt8) : Except Error (List PhysicalRedoRecord) :=
  decodeBatch truncated (.runtimeError "empty physical redo batch in WAL payload")
    (.runtimeError "trailing bytes in physical redo payload") readRecord payload

namespace PhysicalRedoRecord

/-- The numbers and the sizes of a record are 64-bit numbers. -/
structure Representable (record : PhysicalRedoRecord) : Prop where
  tableName : record.tableName.length < 2 ^ 64
  rowId : record.rowId < 2 ^ 64
  columnCount : record.row.length < 2 ^ 64
  row : ∀ value ∈ record.row, PageImageRedo.representable value = true

/-- The record without the row of an erase, which is not written. -/
def stored (record : PhysicalRedoRecord) : PhysicalRedoRecord :=
  if record.kind = .erase then { record with row := [] } else record

/-- The record is an upsert of a row of column values or an erase without a row. -/
def Writable (record : PhysicalRedoRecord) : Prop :=
  record.kind = .upsert ∧ (∀ value ∈ record.row, value.Storable) ∨
    record.kind = .erase ∧ record.row = []

end PhysicalRedoRecord

theorem mirrors_appendValue {value : Value} (h : PageImageRedo.representable value = true) :
    Mirrors (appendValue value) readValue value := by
  cases value with
  | null => exact mirrors_write ((whole_fixed truncated (by decide)).bind_nil (whole_pure _))
  | int value =>
    have hpayload := whole_readPayload_int truncated unsupported value
    exact mirrors_write ((whole_fixed truncated (by decide)).bind hpayload)
  | double value =>
    have hpayload := whole_readPayload_double truncated unsupported value
    exact mirrors_write ((whole_fixed truncated (by decide)).bind hpayload)
  | string text =>
    have hlen : text.length < 2 ^ 64 := by simpa [PageImageRedo.representable] using h
    have hpayload := whole_readPayload_string truncated unsupported hlen
    exact mirrors_write ((whole_fixed truncated (by decide)).bind hpayload)
  | parameter | composite => rintro bs ⟨⟩

/-- A record is read back without the row of an erase. -/
theorem mirrors_appendRecord {record : PhysicalRedoRecord} (h : record.Representable) :
    Mirrors (appendRecord record) readRecord record.stored := by
  obtain ⟨kind, tableName, rowId, row⟩ := record
  have hbyte : kind.toByte < 256 := by
    cases kind with
    | upsert | erase => decide
    | unnamed code hcode => exact code.toNat_lt
  refine (mirrors_fixed truncated hbyte).bind ((mirrors_sized truncated h.tableName).bind
    ((mirrors_fixed truncated h.rowId).bind ?_))
  cases kind with
  | upsert =>
    have hrow := mirrors_counted (f := id) truncated h.columnCount fun value hvalue =>
      mirrors_appendValue (h.row value hvalue)
    rw [map_id] at hrow
    exact hrow.map _
  | erase => exact mirrors_pure _
  | unnamed code hcode => rintro bs ⟨⟩

theorem succeeds_appendValue {value : Value} (h : PageImageRedo.representable value = true) :
    Succeeds (appendValue value) ↔ value.Storable := by
  cases value with
  | null | int | double => exact iff_of_true ⟨_, rfl⟩ trivial
  | string text =>
    have hlen : text.length < 2 ^ 64 := by simpa [PageImageRedo.representable] using h
    exact iff_of_true ⟨_, rfl⟩ hlen
  | parameter | composite => exact iff_of_false (by rintro ⟨bs, ⟨⟩⟩) id

/-- A record is written and keeps all of its fields exactly when it is an upsert of column values or
an erase without a row. -/
theorem succeeds_appendRecord_and_stored_iff {record : PhysicalRedoRecord}
    (h : record.Representable) :
    Succeeds (appendRecord record) ∧ record.stored = record ↔ record.Writable := by
  obtain ⟨kind, tableName, rowId, row⟩ := record
  cases kind with
  | upsert =>
    have hrow : (∀ value ∈ row, Succeeds (appendValue value)) ↔ ∀ value ∈ row, value.Storable :=
      forall₂_congr fun value hvalue => succeeds_appendValue (h.row value hvalue)
    simp [appendRecord, PhysicalRedoRecord.stored, PhysicalRedoRecord.Writable, hrow]
  | erase => simp [appendRecord, PhysicalRedoRecord.stored, PhysicalRedoRecord.Writable, eq_comm]
  | unnamed code hcode =>
    refine iff_of_false (fun hrecord => ?_) (by simp [PhysicalRedoRecord.Writable])
    have hrest := (succeeds_append.mp (succeeds_append.mp (succeeds_append.mp hrecord.1).2).2).2
    obtain ⟨bs, hbs⟩ := hrest
    cases hbs

end PhysicalRedo

/-! ### Round trips -/

section RoundTrip

open PageImageRedo PhysicalRedo

/-- A batch of page-image records with well-formed nodes is read back as it was written exactly when
its keys hold no parameter slot and a record without `hasHeapMeta` leaves the heap fields empty; a
batch of physical records exactly when its upserts hold column values and its erases hold no row.
Whatever is decoded was read to the last byte, and no strict prefix of a batch is decoded. -/
theorem redos_round_trip :
    (∀ records : List PageImageRedoRecord, records ≠ [] → records.length < 2 ^ 64 →
      (∀ record ∈ records, record.Representable ∧ record.WellFormedNodes) →
      ((∃ payload, encodePageImageRedos records = .ok payload ∧
          decodePageImageRedos payload = .ok records) ↔
        ∀ record ∈ records, record.Concrete ∧
          (record.hasHeapMeta = false → record.capacity = 0 ∧ record.freeList = [])) ∧
      ∀ payload, encodePageImageRedos records = .ok payload → ∀ cut, cut <+: payload →
        cut ≠ payload → ∃ error, decodePageImageRedos cut = .error error) ∧
    (∀ records : List PhysicalRedoRecord, records ≠ [] → records.length < 2 ^ 64 →
      (∀ record ∈ records, record.Representable) →
      ((∃ payload, encodePhysicalRedos records = .ok payload ∧
          decodePhysicalRedos payload = .ok records) ↔
        ∀ record ∈ records, record.Writable) ∧
      ∀ payload, encodePhysicalRedos records = .ok payload → ∀ cut, cut <+: payload →
        cut ≠ payload → ∃ error, decodePhysicalRedos cut = .error error) ∧
    (∀ payload records, decodePageImageRedos payload = .ok records →
      readPageImageRedos payload = .ok (records, [])) ∧
    ∀ payload records, decodePhysicalRedos payload = .ok records →
      readPhysicalRedos payload = .ok (records, []) := by
  refine ⟨fun records hne hlen h => ⟨?_, fun payload hencode cut hcut hcutne => ?_⟩,
    fun records hne hlen h => ⟨?_, fun payload hencode cut hcut hcutne => ?_⟩, ?_, ?_⟩
  · refine Iff.trans (exists_decodeBatch_iff _ _ _ hne
      (fun record hmem => PageImageRedo.mirrors_appendRecord (h record hmem).1) hlen)
      (forall₂_congr fun record hmem => ?_)
    exact and_congr (succeeds_appendRecord record) (stored_eq_iff (h record hmem).2)
  · exact decodeBatch_of_prefix _ _ _ (whole_readBatch _ _ hne
      (fun record hmem => PageImageRedo.mirrors_appendRecord (h record hmem).1) hlen hencode)
      hcut hcutne
  · refine Iff.trans (exists_decodeBatch_iff _ _ _ hne
      (fun record hmem => PhysicalRedo.mirrors_appendRecord (h record hmem)) hlen)
      (forall₂_congr fun record hmem => ?_)
    exact succeeds_appendRecord_and_stored_iff (h record hmem)
  · exact decodeBatch_of_prefix _ _ _ (whole_readBatch _ _ hne
      (fun record hmem => PhysicalRedo.mirrors_appendRecord (h record hmem)) hlen hencode)
      hcut hcutne
  · exact fun payload records hdecode => readBatch_of_decodeBatch _ _ _ hdecode
  · exact fun payload records hdecode => readBatch_of_decodeBatch _ _ _ hdecode

/-- A record of each part of a page image, and an upsert and an erase. -/
theorem redos_round_trip_each :
    let image : PageImageRedoRecord :=
      { tableName := [116], hasHeapMeta := true, capacity := 2, freeList := [1]
        heapPages := [⟨1, [0, 255]⟩]
        btreeIndexes := [([98], { keyCount := 1, nodes :=
          [{ pageId := 1, keys := [.composite [.int 1, .null]], rowIds := [[0]] }] })]
        hashIndexes := [([104], { buckets := [(.string [120], [0])] })] }
    let redos : List PhysicalRedoRecord :=
      [{ tableName := [116], rowId := 0, row := [.int 1, .null] },
        { kind := .erase, tableName := [116], rowId := 0 }]
    (∃ payload, encodePageImageRedos [image] = .ok payload ∧
        decodePageImageRedos payload = .ok [image]) ∧
      ∃ payload, encodePhysicalRedos redos = .ok payload ∧
        decodePhysicalRedos payload = .ok redos := by
  intro image redos
  have hbtrees : ∀ index ∈ image.btreeIndexes,
      index.1.length < 2 ^ 64 ∧ RepresentableBTree index.2 := by
    intro index hidx
    obtain rfl := mem_singleton.mp hidx
    refine ⟨by decide, by decide, by decide, by decide, by decide, by decide, by decide, ?_⟩
    intro node hnode
    obtain rfl := mem_singleton.mp hnode
    exact ⟨by decide, by decide, by decide, by decide, by decide, by decide, by decide⟩
  have hhashes : ∀ index ∈ image.hashIndexes,
      index.1.length < 2 ^ 64 ∧ RepresentableHash index.2 := by
    intro index hidx
    obtain rfl := mem_singleton.mp hidx
    exact ⟨by decide, by decide, by decide, by decide⟩
  have himage : image.Representable :=
    ⟨by decide, by decide, by decide, by decide, by decide, by decide, hbtrees, by decide, hhashes⟩
  have hredos : ∀ record ∈ redos, record.Representable := by
    intro record hrecord
    rcases mem_pair.mp hrecord with rfl | rfl <;> exact ⟨by decide, by decide, by decide, by decide⟩
  have hwritable : ∀ record ∈ redos, record.Writable := by
    intro record hrecord
    rcases mem_pair.mp hrecord with rfl | rfl
    · exact Or.inl ⟨rfl, by decide⟩
    · exact Or.inr ⟨rfl, rfl⟩
  refine ⟨(redos_round_trip.1 [image] (by decide) (by decide) ?_).1.mpr ?_,
    (redos_round_trip.2.1 redos (by decide) (by decide) hredos).1.mpr hwritable⟩
  · intro record hrecord
    obtain rfl := mem_singleton.mp hrecord
    refine ⟨himage, ?_⟩
    unfold PageImageRedoRecord.WellFormedNodes
    decide
  · intro record hrecord
    obtain rfl := mem_singleton.mp hrecord
    exact ⟨⟨by decide, by decide⟩, by decide⟩

/-- The capacity of a page-image record without `hasHeapMeta` and the row of an erase are not
written: both records are read back without them. -/
theorem redos_dropped_fields :
    let image : PageImageRedoRecord := { tableName := [116], capacity := 5 }
    let erase : PhysicalRedoRecord := ⟨.erase, [116], 0, [.null]⟩
    (∃ payload, encodePageImageRedos [image] = .ok payload ∧
        decodePageImageRedos payload = .ok [{ tableName := [116] }] ∧
        decodePageImageRedos payload ≠ .ok [image]) ∧
      ∃ payload, encodePhysicalRedos [erase] = .ok payload ∧
        decodePhysicalRedos payload = .ok [⟨.erase, [116], 0, []⟩] ∧
        decodePhysicalRedos payload ≠ .ok [erase] :=
  ⟨⟨_, rfl, by decide⟩, ⟨_, rfl, by decide⟩⟩

end RoundTrip

end VertexDB
