import VertexDB.Lib.LruCache
import VertexDB.Storage.PageCodec
import VertexDB.Storage.VectorRowStore

/-!
# The page row store with its bytes and caches

`PageRowStore` as the source has it (`src/storage/page_row_store.cpp`, `page_row_store_buffer.cpp`,
`page_row_store_io.cpp`, `buffer_pool.cpp`): the page directory holds the bytes of each page, a
buffer pool caches pages and drops the least recently used ones, and the rows decoded by `get` are
kept until their page is stored again. A read changes both caches.

The store `VertexDB.PageRowStore` is what the bytes stand for. Every operation here ends as the same
operation there, whatever the caches hold, and with it as on a vector row store.

## Main definitions

* `BufferedRowStore.Decodes`: the bytes and the caches hold the rows of a `PageRowStore`.

## Main results

* `BufferedRowStore.perform_refines`: every operation refines the one of `PageRowStore`.
* `BufferedRowStore.perform_simulates`: and so the one of `VectorRowStore`.
-/

namespace VertexDB

open PageRowStore Std.ExtTreeMap SparsePages

/-- `BufferPool`. -/
abbrev BufferPool := LruCache Page

namespace BufferPool

/-- `BufferPool::BufferPool`. -/
def create (capacity : ℕ) : Except Error BufferPool :=
  if capacity = 0 then throw (.invalidArgument "buffer pool capacity must be positive")
  else return { capacity := capacity }

/-- `BufferPool::put`. -/
def put (pool : BufferPool) (page : Page) : BufferPool := LruCache.put pool page.id page

/-- `BufferPool::get`. -/
def get (pool : BufferPool) (pageId : ℕ) : Option Page × BufferPool :=
  match pool.entries[pageId]? with
  | none => (none, pool)
  | some page => (some page, pool.touch pageId)

/-! ### The pages in the buffer pool -/

section Recency

/-- A call of the pool. -/
inductive Call where
  | put (page : Page)
  | get (pageId : ℕ)

def after (pool : BufferPool) : Call → BufferPool
  | .put page => put pool page
  | .get pageId => (get pool pageId).2

/-- The pool after a list of calls, the latest one first. -/
def afterAll (pool : BufferPool) (calls : List Call) : BufferPool :=
  calls.foldr (fun call pool => after pool call) pool

/-- The page ids that the calls have used, the latest use first. A `get` uses a page that is held,
which is one of the `capacity` pages used last. -/
def uses (capacity : ℕ) : List Call → List ℕ
  | [] => []
  | .put page :: calls => page.id :: uses capacity calls
  | .get pageId :: calls =>
    if pageId ∈ (LruCache.recency (uses capacity calls)).take capacity then
      pageId :: uses capacity calls
    else uses capacity calls

/-- The page that was put last under an id. -/
def lastPut (pageId : ℕ) : List Call → Option Page
  | [] => none
  | .put page :: calls => if page.id = pageId then some page else lastPut pageId calls
  | .get _ :: calls => lastPut pageId calls

/-- The pool holds the pages used last as they were put. -/
structure Recalls (capacity : ℕ) (calls : List Call) (pool : BufferPool) : Prop where
  valid : pool.Valid
  capacity_eq : pool.capacity = capacity
  recent_eq : pool.recent = (LruCache.recency (uses capacity calls)).take capacity
  held : ∀ pageId ∈ pool.recent, pool.entries[pageId]? = lastPut pageId calls

theorem Recalls.after {capacity : ℕ} {calls : List Call} {pool : BufferPool}
    (h : Recalls capacity calls pool) (call : Call) :
    Recalls capacity (call :: calls) (after pool call) := by
  cases call with
  | put page =>
    have hvalid := h.valid.put page.id page
    refine ⟨hvalid, (h.valid.capacity_put _ _).trans h.capacity_eq, ?_, fun pageId hpage => ?_⟩
    · rw [uses, LruCache.take_recency_cons, ← h.recent_eq, ← h.capacity_eq]
      exact h.valid.recent_put page.id page
    · rw [lastPut]
      split_ifs with hid
      · exact hid ▸ h.valid.getElem?_put_self page.id page
      · obtain ⟨old, hold⟩ := Option.isSome_iff_exists.mp
          (mem_iff_isSome_getElem?.mp ((hvalid.mem_recent pageId).mp hpage))
        have hbefore := h.valid.getElem?_of_put hid hold
        exact hold.trans (hbefore.symm.trans (h.held pageId (h.valid.getElem?_eq_some hbefore)))
  | get pageId =>
    have hmem := h.valid.mem_recent pageId
    rw [mem_iff_isSome_getElem?] at hmem
    cases hentry : pool.entries[pageId]? with
    | none =>
      have hpool : BufferPool.after pool (.get pageId) = pool := by
        simp [BufferPool.after, get, hentry]
      rw [hentry, h.recent_eq] at hmem
      rw [hpool]
      exact ⟨h.valid, h.capacity_eq, by rw [uses, if_neg (by simp [hmem]), h.recent_eq], h.held⟩
    | some page =>
      have hpool : BufferPool.after pool (.get pageId) = pool.touch pageId := by
        simp [BufferPool.after, get, hentry]
      have hrecent : pageId ∈ pool.recent := hmem.mpr (by rw [hentry]; rfl)
      have hvalid := h.valid.touch ((h.valid.mem_recent pageId).mp hrecent)
      rw [hpool]
      refine ⟨hvalid, h.capacity_eq, ?_, fun j hj => ?_⟩
      · have hlength : (pool.touch pageId).recent.length ≤ capacity :=
          hvalid.size_eq ▸ h.capacity_eq ▸ hvalid.size_le
        rw [uses, if_pos (h.recent_eq ▸ hrecent), LruCache.take_recency_cons, ← h.recent_eq,
          ← h.valid.nodup.erase_eq_filter]
        exact (List.take_of_length_le hlength).symm
      · exact h.held j ((h.valid.mem_recent j).mpr ((hvalid.mem_recent j).mp hj))

/-- After any calls the pool holds just the pages of the ids used last, as many as its capacity
allows, each as it was put last, and its list has their ids, each once, in the order of their latest
uses. -/
theorem afterAll_recalls {capacity : ℕ} {pool : BufferPool} (hpool : create capacity = .ok pool)
    (calls : List Call) :
    (afterAll pool calls).recent = (LruCache.recency (uses capacity calls)).take capacity ∧
      (afterAll pool calls).recent.Nodup ∧
      (∀ pageId ∈ (afterAll pool calls).recent, ∃ page,
        (afterAll pool calls).entries[pageId]? = some page ∧ lastPut pageId calls = some page) ∧
      ∀ pageId ∉ (afterAll pool calls).recent, (afterAll pool calls).entries[pageId]? = none := by
  have hrun : Recalls capacity calls (afterAll pool calls) := by
    induction calls with
    | nil =>
      unfold create at hpool
      split_ifs at hpool with hzero
      obtain rfl := Except.ok.inj hpool
      exact ⟨LruCache.valid_empty (Nat.pos_of_ne_zero hzero), rfl,
        List.take_nil.symm, by simp [afterAll]⟩
    | cons call calls ih => exact ih.after call
  refine ⟨hrun.recent_eq, hrun.valid.nodup, fun pageId hpage => ?_, fun pageId hpage => ?_⟩
  · obtain ⟨page, hheld⟩ := Option.isSome_iff_exists.mp
      (mem_iff_isSome_getElem?.mp ((hrun.valid.mem_recent pageId).mp hpage))
    exact ⟨page, hheld, (hrun.held pageId hpage).symm.trans hheld⟩
  · exact getElem?_eq_none (mt (hrun.valid.mem_recent pageId).mpr hpage)

theorem afterAll_recalls_two :
    (afterAll { capacity := 1 } [.get 1, .put ⟨2, [], false⟩, .put ⟨1, [], false⟩]).recent =
      (LruCache.recency (uses 1 [.get 1, .put ⟨2, [], false⟩, .put ⟨1, [], false⟩])).take 1 :=
  (afterAll_recalls (rfl : create 1 = .ok _) _).1

end Recency

end BufferPool

/-- `PageRowStore`, with the bytes of its pages and its caches. -/
structure BufferedRowStore where
  rowsPerPage : ℕ
  bufferPool : BufferPool
  slots : List Slot := []
  freeList : List ℕ := []
  pageDirectory : Std.ExtTreeMap ℕ (List UInt8) := ∅
  decodedRows : Std.ExtTreeMap ℕ Row := ∅
  liveCount : ℕ := 0
  dirtyPages : Std.ExtTreeSet ℕ := ∅

namespace BufferedRowStore

open Exec

/-- `PageRowStore::PageRowStore`. -/
def create (rowsPerPage bufferPageCapacity : ℕ) : Except Error BufferedRowStore := do
  let bufferPool ← BufferPool.create bufferPageCapacity
  if rowsPerPage = 0 then throw (.invalidArgument "rows per page must be positive")
  return { rowsPerPage := rowsPerPage, bufferPool := bufferPool }

/-- The slot of a row id; the callers of the source stay within the capacity. -/
def slot (b : BufferedRowStore) (rowId : ℕ) : Slot := b.slots.getD rowId {}

/-- `slot.live = live`. -/
def setLive (b : BufferedRowStore) (rowId : ℕ) (live : Bool) : BufferedRowStore :=
  { b with slots := b.slots.set rowId { b.slot rowId with live := live } }

/-- `PageRowStore::loadPageRows`. -/
def loadPageRows (b : BufferedRowStore) (pageId : ℕ) : Except Error (List Row) :=
  match b.pageDirectory[pageId]? with
  | none => return []
  | some bytes => decodePage bytes

/-- `PageRowStore::invalidateDecoded`. -/
def invalidateDecoded (b : BufferedRowStore) (pageId : ℕ) : BufferedRowStore :=
  let round := fun (decoded : Std.ExtTreeMap ℕ Row) (rowId : ℕ) =>
    if (b.slot rowId).pageId = pageId then decoded.erase rowId else decoded
  { b with decodedRows := (List.range b.slots.length).foldl round b.decodedRows }

/-- `PageRowStore::markDirty`. -/
def markDirty (b : BufferedRowStore) (pageId : ℕ) : BufferedRowStore :=
  { b with dirtyPages := b.dirtyPages.insert pageId }

/-- The statements of `PageRowStore::storePage` after the page is serialized. -/
def installPage (b : BufferedRowStore) (page : Page) : BufferedRowStore :=
  ({ b with
    pageDirectory := b.pageDirectory.insert page.id page.bytes
    bufferPool := BufferPool.put b.bufferPool page }.invalidateDecoded page.id).markDirty page.id

/-- `PageRowStore::storePage`. -/
def storePage (pageId : ℕ) (rows : List Row) : EStateM Error BufferedRowStore Unit := do
  let page ← Exec.ofExcept (serializePage pageId rows)
  modify fun b => b.installPage page

/-- The page access shared by the operations: load the page of the slot, refuse an offset outside
of it, and store the page with the row replaced. -/
def replaceSlotRow (rowId : ℕ) (row : Row) (context : String) :
    EStateM Error BufferedRowStore Unit := do
  let b ← EStateM.get
  let slot := b.slot rowId
  let pageRows ← Exec.ofExcept (b.loadPageRows slot.pageId)
  if pageRows.length ≤ slot.offset then
    throw (.runtimeError ("page slot offset out of range on " ++ context))
  storePage slot.pageId (pageRows.set slot.offset row)

/-- The end of `PageRowStore::append` and of `PageRowStore::upsertAt`: a new slot for the row. -/
def pushRow (row : Row) : EStateM Error BufferedRowStore Unit := do
  let b ← EStateM.get
  let pageId := b.slots.length / b.rowsPerPage + 1
  let pageRows := (← Exec.ofExcept (b.loadPageRows pageId)) ++ [row]
  let slot : Slot := { pageId := pageId, offset := pageRows.length - 1, live := true }
  EStateM.set { b with slots := b.slots ++ [slot] }
  storePage pageId pageRows
  modify fun b => { b with liveCount := b.liveCount + 1 }

/-- `PageRowStore::append`. -/
def append (row : Row) : EStateM Error BufferedRowStore ℕ := do
  let b ← EStateM.get
  match b.freeList.getLast? with
  | some rowId =>
    EStateM.set ({ b with freeList := b.freeList.dropLast }.setLive rowId true)
    replaceSlotRow rowId row "free-list reuse"
    modify fun b => { b with liveCount := b.liveCount + 1 }
    return rowId
  | none =>
    pushRow row
    return b.slots.length

/-- `PageRowStore::erase`. -/
def erase (rowId : ℕ) : EStateM Error BufferedRowStore Bool := do
  let b ← EStateM.get
  if b.slots.length ≤ rowId ∨ !(b.slot rowId).live then return false
  EStateM.set (b.setLive rowId false)
  replaceSlotRow rowId [] "erase"
  modify fun b => { b with freeList := b.freeList ++ [rowId], liveCount := b.liveCount - 1 }
  return true

/-- `PageRowStore::update`. -/
def update (rowId : ℕ) (row : Row) : EStateM Error BufferedRowStore Bool := do
  let b ← EStateM.get
  if b.slots.length ≤ rowId ∨ !(b.slot rowId).live then return false
  replaceSlotRow rowId row "update"
  return true

/-- `PageRowStore::revive`. -/
def revive (rowId : ℕ) (row : Row) : EStateM Error BufferedRowStore Bool := do
  let b ← EStateM.get
  if b.slots.length ≤ rowId ∨ (b.slot rowId).live then return false
  if rowId ∉ b.freeList then return false
  EStateM.set ({ b with freeList := b.freeList.erase rowId }.setLive rowId true)
  replaceSlotRow rowId row "revive"
  modify fun b => { b with liveCount := b.liveCount + 1 }
  return true

/-- `PageRowStore::upsertAt`. -/
def upsertAt (rowId : ℕ) (row : Row) : EStateM Error BufferedRowStore Bool := do
  let b ← EStateM.get
  if rowId < b.slots.length then
    if (b.slot rowId).live then update rowId row else revive rowId row
  else if rowId ≠ b.slots.length then return false
  else
    pushRow row
    return true

/-- `PageRowStore::ensureBuffered`. -/
def ensureBuffered (b : BufferedRowStore) (pageId : ℕ) : BufferedRowStore :=
  if b.bufferPool.contains pageId then b
  else match b.pageDirectory[pageId]? with
    | none => b
    | some bytes =>
      let page : Page := { id := pageId, bytes := bytes, dirty := false }
      { b with bufferPool := BufferPool.put b.bufferPool page }

/-- The part of `PageRowStore::get` after the page is in the buffer pool and the row is not among
the decoded ones. -/
def decodeSlot (rowId : ℕ) : EStateM Error BufferedRowStore (Option Row) := do
  let b ← EStateM.get
  let slot := b.slot rowId
  let (buffered, bufferPool) := BufferPool.get b.bufferPool slot.pageId
  EStateM.set { b with bufferPool := bufferPool }
  match buffered with
  | none => return none
  | some page =>
    let pageRows ← Exec.ofExcept (decodePage page.bytes)
    match pageRows[slot.offset]? with
    | none => return none
    | some row =>
      modify fun b => { b with decodedRows := b.decodedRows.insert rowId row }
      return some row

/-- `PageRowStore::get`. -/
def get (rowId : ℕ) : EStateM Error BufferedRowStore (Option Row) := do
  let b ← EStateM.get
  if b.slots.length ≤ rowId ∨ !(b.slot rowId).live then return none
  let b := b.ensureBuffered (b.slot rowId).pageId
  EStateM.set b
  match b.decodedRows[rowId]? with
  | some row => return some row
  | none => decodeSlot rowId

/-- The loops over row ids in `snapshot`, `liveEntries` and `rowsById`: the rows that `get`
finds. -/
def collect {α : Type} (entry : ℕ → Row → α) : List ℕ → EStateM Error BufferedRowStore (List α)
  | [] => return []
  | rowId :: rowIds => do
    let row ← get rowId
    let entries ← collect entry rowIds
    return (row.map (entry rowId)).toList ++ entries

/-- `PageRowStore::snapshot`. -/
def snapshot : EStateM Error BufferedRowStore (List Row) := do
  collect (fun _ row => row) (List.range (← EStateM.get).slots.length)

/-- `PageRowStore::liveEntries`. -/
def liveEntries : EStateM Error BufferedRowStore (List (ℕ × Row)) := do
  collect (fun rowId row => (rowId, row)) (List.range (← EStateM.get).slots.length)

/-- `PageRowStore::rowsById`. -/
def rowsById (rowIds : List ℕ) : EStateM Error BufferedRowStore (List Row) :=
  collect (fun _ row => row) rowIds

/-- `PageRowStore::size`. -/
def size (b : BufferedRowStore) : ℕ := b.liveCount

/-- `PageRowStore::capacity`. -/
def capacity (b : BufferedRowStore) : ℕ := b.slots.length

/-- `PageRowStore::replaceRows`. The buffer pool and the dirty pages stay. -/
def replaceRows (rows : List Row) : EStateM Error BufferedRowStore Unit := do
  modify fun b =>
    { b with pageDirectory := ∅, slots := [], freeList := [], decodedRows := ∅, liveCount := 0 }
  forM rows fun row => discard (append row)

/-- `PageRowStore::replaceSparse`. The buffer pool and the dirty pages stay. -/
def replaceSparse (order : HashOrder) (capacity : ℕ) (freeList : List ℕ)
    (entries : List (ℕ × Row)) : EStateM Error BufferedRowStore Unit := do
  Exec.ofExcept (validateSparseRowLayout capacity freeList entries)
  let b ← EStateM.get
  let laid := lay b.rowsPerPage capacity entries
  EStateM.set { b with
    pageDirectory := ∅
    decodedRows := ∅
    slots := laid.slots
    freeList := freeList
    liveCount := entries.length }
  forM (order.walk laid.pages.keys) fun pageId => storePage pageId (laid.page pageId)

/-- The call on a page row store. -/
def perform (order : HashOrder) : RowStoreOp → EStateM Error BufferedRowStore RowStoreResult
  | .append row => .rowId <$> append row
  | .erase rowId => .changed <$> erase rowId
  | .update rowId row => .changed <$> update rowId row
  | .revive rowId row => .changed <$> revive rowId row
  | .upsertAt rowId row => .changed <$> upsertAt rowId row
  | .replaceRows rows => (fun _ => .replaced) <$> replaceRows rows
  | .replaceSparse capacity freeList entries =>
    (fun _ => .replaced) <$> replaceSparse order capacity freeList entries
  | .get rowId => .row <$> get rowId
  | .snapshot => .rows <$> snapshot
  | .liveEntries => .entries <$> liveEntries
  | .rowsById rowIds => .rows <$> rowsById rowIds
  | .freeList => (fun b => .rowIds b.freeList) <$> EStateM.get
  | .size => (fun b => .count b.size) <$> EStateM.get
  | .capacity => (fun b => .count b.capacity) <$> EStateM.get

/-- The store of rows `s` is what the bytes and the caches of `b` stand for: a page of the directory
holds the bytes of the rows of `s`, a buffered page of the directory has the bytes it has there, and
a decoded row is the row in the place of its slot. -/
structure Decodes (b : BufferedRowStore) (s : PageRowStore) : Prop where
  rowsPerPage_eq : b.rowsPerPage = s.rowsPerPage
  rowsPerPage_lt : s.rowsPerPage < 2 ^ 64
  slots_eq : b.slots = s.slots
  freeList_eq : b.freeList = s.freeList
  liveCount_eq : b.liveCount = s.liveCount
  directory_eq : ∀ p : ℕ, b.pageDirectory[p]? = s.pageDirectory[p]?.map pageBytes
  length_lt : ∀ (p : ℕ) (rows : List Row), s.pageDirectory[p]? = some rows → rows.length < 2 ^ 64
  storable : ∀ (p : ℕ) (rows : List Row), s.pageDirectory[p]? = some rows →
    ∀ row ∈ rows, Row.Storable row
  pool_valid : b.bufferPool.Valid
  buffered_eq : ∀ (p : ℕ) (page : Page) (bytes : List UInt8), b.bufferPool.entries[p]? = some page →
    b.pageDirectory[p]? = some bytes → page.bytes = bytes
  decoded_eq : ∀ (i : ℕ) (row : Row), b.decodedRows[i]? = some row → s.cell i = some row

variable {b : BufferedRowStore} {s : PageRowStore} {rows : List Row}

variable {row : Row}

/-! ### Operations on the bytes -/

section Caches

/-- A decoded row that is still there after an invalidation was there before, and its slot is not on
the page. -/
theorem getElem?_invalidateDecoded {p i : ℕ}
    (h : (b.invalidateDecoded p).decodedRows[i]? = some row) :
    b.decodedRows[i]? = some row ∧ (i < b.slots.length → (b.slot i).pageId ≠ p) := by
  have hfold : ∀ (ids : List ℕ) (decoded : Std.ExtTreeMap ℕ Row),
      (ids.foldl (fun decoded rowId =>
        if (b.slot rowId).pageId = p then decoded.erase rowId else decoded) decoded)[i]? =
          some row →
      decoded[i]? = some row ∧ (i ∈ ids → (b.slot i).pageId ≠ p) := by
    intro ids
    induction ids with
    | nil => exact fun decoded h => ⟨h, fun hi => absurd hi List.not_mem_nil⟩
    | cons j ids ih =>
      intro decoded h
      obtain ⟨hrow, hids⟩ := ih _ h
      beta_reduce at hrow
      by_cases hj : (b.slot j).pageId = p
      · rw [if_pos hj, getElem?_erase] at hrow
        split_ifs at hrow with hji
        refine ⟨hrow, fun hi => (List.mem_cons.mp hi).elim (fun hij => ?_) hids⟩
        exact absurd (by simp [hij]) hji
      · rw [if_neg hj] at hrow
        exact ⟨hrow, fun hi => (List.mem_cons.mp hi).elim (fun hij => hij ▸ hj) hids⟩
  obtain ⟨hrow, hids⟩ := hfold _ _ h
  exact ⟨hrow, fun hi => hids (List.mem_range.mpr hi)⟩

end Caches

namespace Decodes

variable (h : b.Decodes s)
include h

theorem slot_eq (i : ℕ) : b.slot i = s.slot i := by
  rw [slot, PageRowStore.slot, h.slots_eq]

theorem loadPageRows_eq (p : ℕ) : b.loadPageRows p = .ok (s.loadPageRows p) := by
  rw [loadPageRows, h.directory_eq, PageRowStore.loadPageRows]
  cases hp : s.pageDirectory[p]? with
  | none => rfl
  | some rows =>
    exact decodePage_pageBytes (h.length_lt p rows hp) (h.storable p rows hp)

theorem storable_loadPageRows (p : ℕ) : ∀ row ∈ s.loadPageRows p, Row.Storable row := by
  rw [PageRowStore.loadPageRows]
  cases hp : s.pageDirectory[p]? with
  | none => simp
  | some rows => exact h.storable p rows hp

theorem length_loadPageRows (p : ℕ) : (s.loadPageRows p).length < 2 ^ 64 := by
  rw [PageRowStore.loadPageRows]
  cases hp : s.pageDirectory[p]? with
  | none => simp
  | some rows => exact h.length_lt p rows hp

theorem setLive (i : ℕ) (live : Bool) : (b.setLive i live).Decodes (s.setLive i live) :=
  { h with
    slots_eq := by rw [BufferedRowStore.setLive, PageRowStore.setLive, h.slots_eq, h.slot_eq]
    decoded_eq := fun j row hj => by
      rw [cell_setLive]
      exact h.decoded_eq j row hj }

theorem setFreeList (fl : List ℕ) : Decodes { b with freeList := fl } { s with freeList := fl } :=
  { h with freeList_eq := rfl }

theorem mapLiveCount (f : ℕ → ℕ) :
    Decodes { b with liveCount := f b.liveCount } { s with liveCount := f s.liveCount } :=
  { h with liveCount_eq := congrArg f h.liveCount_eq }

theorem pushSlot (slot : Slot) :
    Decodes { b with slots := b.slots ++ [slot] } { s with slots := s.slots ++ [slot] } :=
  { h with
    slots_eq := by rw [h.slots_eq]
    decoded_eq := fun j row hj => by
      have hcell := h.decoded_eq j row hj
      have hlt : j < s.slots.length := not_le.mp fun hle => by
        rw [cell_eq_none hle] at hcell
        cases hcell
      rw [← hcell, cell, cell, List.getElem?_append_left hlt]
      rfl }

/-- Storing a page on both sides. -/
theorem installPage (p : ℕ) (hlen : rows.length < 2 ^ 64) (hrows : ∀ row ∈ rows, Row.Storable row) :
    (b.installPage { id := p, bytes := pageBytes rows, dirty := true }).Decodes
      (s.storePage p rows) where
  rowsPerPage_eq := h.rowsPerPage_eq
  rowsPerPage_lt := h.rowsPerPage_lt
  slots_eq := h.slots_eq
  freeList_eq := h.freeList_eq
  liveCount_eq := h.liveCount_eq
  directory_eq q := by
    show (b.pageDirectory.insert p (pageBytes rows))[q]? = (s.pageDirectory.insert p rows)[q]?.map _
    rw [getElem?_insert, getElem?_insert]
    split_ifs
    · rfl
    · exact h.directory_eq q
  length_lt q rows' hq := by
    rw [PageRowStore.storePage, getElem?_insert] at hq
    split_ifs at hq
    · exact Option.some.inj hq ▸ hlen
    · exact h.length_lt q rows' hq
  storable q rows' hq := by
    rw [PageRowStore.storePage, getElem?_insert] at hq
    split_ifs at hq
    · exact Option.some.inj hq ▸ hrows
    · exact h.storable q rows' hq
  pool_valid := h.pool_valid.put p _
  buffered_eq q page bytes hpage hbytes := by
    have hbytes' : (b.pageDirectory.insert p (pageBytes rows))[q]? = some bytes := hbytes
    by_cases hq : p = q
    · subst hq
      have hself := h.pool_valid.getElem?_put_self p
        ({ id := p, bytes := pageBytes rows, dirty := true } : Page)
      rw [getElem?_insert_self] at hbytes'
      rw [← Option.mem_unique hself hpage, ← Option.some.inj hbytes']
    · rw [getElem?_insert, if_neg (by simpa using hq)] at hbytes'
      exact h.buffered_eq q page bytes (h.pool_valid.getElem?_of_put hq hpage) hbytes'
  decoded_eq i row hi := by
    obtain ⟨hrow, hpage⟩ := getElem?_invalidateDecoded hi
    have hcell := h.decoded_eq i row hrow
    have hlt : i < s.slots.length := not_le.mp fun hle => by
      rw [cell_eq_none hle] at hcell
      cases hcell
    have hne : (s.slot i).pageId ≠ p := by
      rw [← h.slot_eq]
      exact hpage (h.slots_eq ▸ hlt)
    rw [cell, getElem?_slots hlt] at hcell
    have hslots : (s.storePage p rows).slots[i]? = some (s.slot i) :=
      getElem?_slots hlt
    rw [cell, hslots]
    simp only [loadPageRows_storePage, if_neg (Ne.symm hne)]
    exact hcell

end Decodes

section Writes

theorem storePage_ok (h : b.Decodes s) (p : ℕ) (hlen : rows.length < 2 ^ 64)
    (hrows : ∀ row ∈ rows, Row.Storable row) :
    ∃ b', storePage p rows b = .ok () b' ∧ b'.Decodes (s.storePage p rows) := by
  refine ⟨_, ?_, h.installPage p hlen hrows⟩
  rw [storePage, serializePage_eq p hrows]
  rfl

theorem replaceSlotRow_simulates (i : ℕ) (hrow : Row.Storable row) (context : String) :
    Simulates Decodes (replaceSlotRow i row context)
      (PageRowStore.replaceSlotRow i row context) := by
  intro b s h
  have hset : ∀ row' ∈ (s.loadPageRows (s.slot i).pageId).set (s.slot i).offset row,
      Row.Storable row' := fun row' hmem =>
    (List.mem_or_eq_of_mem_set hmem).elim (h.storable_loadPageRows _ row') fun heq => heq ▸ hrow
  obtain ⟨b', hb', hdec⟩ := storePage_ok h (s.slot i).pageId
    (by rw [List.length_set]; exact h.length_loadPageRows _) hset
  simp only [replaceSlotRow, PageRowStore.replaceSlotRow, get_bind, h.slot_eq, h.loadPageRows_eq,
    ofExcept_ok_bind, ite_run]
  split_ifs
  · exact ⟨rfl, h⟩
  · rw [hb']
    exact ⟨rfl, hdec⟩

theorem pushRow_ok (h : b.Decodes s) (hs : s.Layout) (hrow : Row.Storable row) :
    ∃ b', pushRow row b = .ok () b' ∧ b'.Decodes (s.extended row) := by
  let p := s.slots.length / s.rowsPerPage + 1
  have hpages : ∀ row' ∈ s.loadPageRows p ++ [row], Row.Storable row' := fun row' hmem =>
    (List.mem_append.mp hmem).elim (h.storable_loadPageRows p row') fun heq =>
      List.mem_singleton.mp heq ▸ hrow
  have hlen : (s.loadPageRows p ++ [row]).length < 2 ^ 64 := by
    have hmod := Nat.mod_lt s.slots.length hs.rowsPerPage_pos
    have hlt := h.rowsPerPage_lt
    rw [List.length_append, hs.length_lastPage, List.length_singleton]
    omega
  obtain ⟨b', hb', hdec⟩ := storePage_ok
    (h.pushSlot { pageId := p, offset := (s.loadPageRows p ++ [row]).length - 1, live := true })
    p hlen hpages
  refine ⟨{ b' with liveCount := b'.liveCount + 1 }, ?_, ?_⟩
  · have hp : b.slots.length / b.rowsPerPage + 1 = p := by rw [h.slots_eq, h.rowsPerPage_eq]
    simp only [pushRow, get_bind, hp, h.loadPageRows_eq, ofExcept_ok_bind, set_bind]
    rw [bind_of_ok hb']
    rfl
  · exact hdec.mapLiveCount (· + 1)

end Writes

section Reads

theorem Decodes.ensureBuffered (h : b.Decodes s) (p : ℕ) : (b.ensureBuffered p).Decodes s := by
  rw [BufferedRowStore.ensureBuffered]
  split_ifs with hcontains
  · exact h
  · cases hp : b.pageDirectory[p]? with
    | none => exact h
    | some bytes =>
      refine { h with
        pool_valid := h.pool_valid.put p _
        buffered_eq := fun q page bytes' hpage hbytes => ?_ }
      by_cases hq : p = q
      · subst hq
        have hself := h.pool_valid.getElem?_put_self p
          ({ id := p, bytes := bytes, dirty := false } : Page)
        rw [← Option.mem_unique hself hpage, ← Option.mem_unique hp hbytes]
      · exact h.buffered_eq q page bytes' (h.pool_valid.getElem?_of_put hq hpage) hbytes

/-- After `ensureBuffered` a page of the directory is in the buffer pool. -/
theorem Decodes.exists_buffered (h : b.Decodes s) {p : ℕ} {bytes : List UInt8}
    (hp : b.pageDirectory[p]? = some bytes) :
    ∃ page, (b.ensureBuffered p).bufferPool.entries[p]? = some page := by
  rw [BufferedRowStore.ensureBuffered]
  split_ifs with hcontains
  · exact Option.isSome_iff_exists.mp (isSome_getElem?_iff_mem.mpr (contains_iff_mem.mp hcontains))
  · rw [hp]
    exact ⟨_, h.pool_valid.getElem?_put_self p _⟩

theorem decodeSlot_ok (h : b.Decodes s) {i : ℕ} {page : Page} (hcell : s.cell i = some row)
    (hpage : b.bufferPool.entries[(s.slot i).pageId]? = some page) :
    ∃ b', decodeSlot i b = .ok (some row) b' ∧ b'.Decodes s := by
  have hi : i < s.slots.length := not_le.mp fun hle => by
    rw [cell_eq_none hle] at hcell
    cases hcell
  have hrow : (s.loadPageRows (s.slot i).pageId)[(s.slot i).offset]? = some row := by
    rw [cell, getElem?_slots hi] at hcell
    exact hcell
  -- the page of the slot is in the directory, since it holds a row
  obtain ⟨rows, hrows⟩ : ∃ rows, s.pageDirectory[(s.slot i).pageId]? = some rows := by
    cases hdir : s.pageDirectory[(s.slot i).pageId]? with
    | none => simp [PageRowStore.loadPageRows, hdir] at hrow
    | some rows => exact ⟨rows, rfl⟩
  have hbytes : page.bytes = pageBytes rows := by
    refine h.buffered_eq _ page _ hpage ?_
    rw [h.directory_eq, hrows, Option.map_some]
  have hdecode : decodePage page.bytes = .ok rows := by
    rw [hbytes]
    exact PageRowStore.decodePage_pageBytes (h.length_lt _ rows hrows) (h.storable _ rows hrows)
  have hoffset : rows[(s.slot i).offset]? = some row := by
    rwa [PageRowStore.loadPageRows, hrows] at hrow
  refine ⟨{ b with
      bufferPool := b.bufferPool.touch (s.slot i).pageId
      decodedRows := b.decodedRows.insert i row }, ?_, ?_⟩
  · simp only [decodeSlot, get_bind, h.slot_eq, BufferPool.get, hpage, set_bind, hdecode,
      ofExcept_ok_bind, hoffset]
    rfl
  · refine { h with
      pool_valid := h.pool_valid.touch (isSome_getElem?_iff_mem.mp (by rw [hpage]; rfl))
      decoded_eq := fun j row' hj => ?_ }
    rw [getElem?_insert] at hj
    split_ifs at hj with hij
    · obtain rfl : i = j := by simpa using hij
      rw [← Option.some.inj hj, hcell]
    · exact h.decoded_eq j row' hj

/-- `get` finds the row of the slot, decoded or not, buffered or not. -/
theorem get_ok (h : b.Decodes s) (hs : s.Valid) (i : ℕ) :
    ∃ b', get i b = .ok (s.get i) b' ∧ b'.Decodes s := by
  cases hget : s.get i with
  | none =>
    refine ⟨b, ?_, h⟩
    have htest := (hs.get_eq_none_iff i).mp hget
    rw [get, get_bind, ite_run, h.slots_eq, h.slot_eq, if_pos (by simpa using htest)]
    rfl
  | some row =>
    obtain ⟨hi, hlive⟩ := (hs.get_isSome_iff i).mp (by simp [hget])
    have hcell : s.cell i = some row := by rwa [get_eq, if_pos hlive] at hget
    have hbuf := h.ensureBuffered (s.slot i).pageId
    have htest : ¬ (b.slots.length ≤ i ∨ !(s.slot i).live) := by
      rw [h.slots_eq]
      simp [hlive, hi]
    cases hdec : (b.ensureBuffered (s.slot i).pageId).decodedRows[i]? with
    | some row' =>
      refine ⟨_, ?_, hbuf⟩
      obtain rfl : row' = row := Option.mem_unique (hbuf.decoded_eq i row' hdec) hcell
      simp only [get, get_bind, ite_run, h.slot_eq, if_neg htest, set_bind, hdec]
      rfl
    | none =>
      obtain ⟨bytes, hbytes⟩ : ∃ bytes, b.pageDirectory[(s.slot i).pageId]? = some bytes := by
        have hoff := hs.offset_lt hi
        cases hdir : s.pageDirectory[(s.slot i).pageId]? with
        | none => simp [PageRowStore.loadPageRows, hdir] at hoff
        | some rows => exact ⟨pageBytes rows, by rw [h.directory_eq, hdir, Option.map_some]⟩
      obtain ⟨page, hpage⟩ := h.exists_buffered hbytes
      obtain ⟨b', hb', hdecodes⟩ := decodeSlot_ok hbuf hcell hpage
      refine ⟨b', ?_, hdecodes⟩
      simp only [get, get_bind, ite_run, h.slot_eq, if_neg htest, set_bind, hdec]
      exact hb'

theorem collect_ok {α : Type} (entry : ℕ → Row → α) (h : b.Decodes s) (hs : s.Valid)
    (ids : List ℕ) : ∃ b', collect entry ids b =
      .ok (ids.filterMap fun i => (s.get i).map (entry i)) b' ∧ b'.Decodes s := by
  induction ids generalizing b with
  | nil => exact ⟨b, rfl, h⟩
  | cons i ids ih =>
    obtain ⟨b₁, hb₁, h₁⟩ := get_ok h hs i
    obtain ⟨b₂, hb₂, h₂⟩ := ih h₁
    refine ⟨b₂, ?_, h₂⟩
    rw [collect, bind_of_ok hb₁, bind_of_ok hb₂, List.filterMap_cons]
    cases s.get i with
    | none => rfl
    | some row => rfl

theorem rowsById_ok (h : b.Decodes s) (hs : s.Valid) (ids : List ℕ) :
    ∃ b', rowsById ids b = .ok (s.rowsById ids) b' ∧ b'.Decodes s := by
  have hcollect := collect_ok (fun _ row => row) h hs ids
  simp only [Option.map_id'] at hcollect
  exact hcollect

theorem snapshot_ok (h : b.Decodes s) (hs : s.Valid) :
    ∃ b', snapshot b = .ok s.snapshot b' ∧ b'.Decodes s := by
  have hrows := rowsById_ok h hs (List.range s.slots.length)
  rw [← h.slots_eq] at hrows
  rw [PageRowStore.snapshot, PageRowStore.capacity, ← h.slots_eq]
  exact hrows

theorem liveEntries_ok (h : b.Decodes s) (hs : s.Valid) :
    ∃ b', liveEntries b = .ok s.liveEntries b' ∧ b'.Decodes s := by
  rw [liveEntries, get_bind, h.slots_eq]
  exact collect_ok (fun rowId row => (rowId, row)) h hs _

end Reads

/-! ### The interface -/

section Interface

/-- The two computations end alike, and the bytes still stand for the rows. -/
def Refines {α : Type} (x : EStateM Error BufferedRowStore α) (y : EStateM Error PageRowStore α)
    (b : BufferedRowStore) (s : PageRowStore) : Prop :=
  outcome (x b) = outcome (y s) ∧ (state (x b)).Decodes (state (y s))

theorem refines_of_ok {α : Type} {x : EStateM Error BufferedRowStore α}
    {y : EStateM Error PageRowStore α} {a : α} {s' : PageRowStore} (hy : y s = .ok a s')
    (hx : ∃ b', x b = .ok a b' ∧ b'.Decodes s') : Refines x y b s := by
  obtain ⟨b', hb', hdec⟩ := hx
  rw [Refines, hb', hy]
  exact ⟨rfl, hdec⟩

theorem Refines.map {α β : Type} {x : EStateM Error BufferedRowStore α}
    {y : EStateM Error PageRowStore α} (f : α → β) (h : Refines x y b s) :
    Refines (f <$> x) (f <$> y) b s := by
  rw [Refines, outcome_map, outcome_map, state_map, state_map, h.1]
  exact ⟨rfl, h.2⟩

theorem update_refines (h : b.Decodes s) (i : ℕ) (hrow : Row.Storable row) :
    Refines (update i row) (PageRowStore.update i row) b s := by
  rw [Refines, update, PageRowStore.update, get_bind, get_bind, h.slots_eq, h.slot_eq]
  split_ifs
  · exact ⟨rfl, h⟩
  · exact (replaceSlotRow_simulates i hrow "update").bind (fun _ => simulates_pure true) h

theorem erase_refines (h : b.Decodes s) (i : ℕ) : Refines (erase i) (PageRowStore.erase i) b s := by
  rw [Refines, erase, PageRowStore.erase, get_bind, get_bind, h.slots_eq, h.slot_eq]
  split_ifs
  · exact ⟨rfl, h⟩
  · refine ((replaceSlotRow_simulates i storable_nil "erase").bind fun _ =>
      (simulates_modify fun b s h => ?_).bind fun _ => simulates_pure true) (h.setLive i false)
    exact { h with
      freeList_eq := by rw [h.freeList_eq]
      liveCount_eq := by rw [h.liveCount_eq] }

theorem revive_refines (h : b.Decodes s) (i : ℕ) (hrow : Row.Storable row) :
    Refines (revive i row) (PageRowStore.revive i row) b s := by
  have hlen : b.slots.length = s.slots.length := by rw [h.slots_eq]
  rw [Refines, revive, PageRowStore.revive, get_bind, get_bind, hlen, h.slot_eq, h.freeList_eq]
  split_ifs
  · exact ⟨rfl, h⟩
  · exact ((replaceSlotRow_simulates i hrow "revive").bind fun _ =>
      (simulates_modify fun b s h => h.mapLiveCount (· + 1)).bind fun _ => simulates_pure true)
      ((h.setFreeList _).setLive i true)
  · exact ⟨rfl, h⟩

theorem append_refines (h : b.Decodes s) (hs : s.Layout) (hrow : Row.Storable row) :
    Refines (append row) (PageRowStore.append row) b s := by
  rw [Refines, append, PageRowStore.append, get_bind, get_bind, h.freeList_eq]
  cases s.freeList.getLast? with
  | none =>
    obtain ⟨b', hb', hdec⟩ := pushRow_ok h hs hrow
    dsimp only
    rw [bind_of_ok hb', h.slots_eq]
    exact ⟨rfl, hdec⟩
  | some i =>
    exact ((replaceSlotRow_simulates i hrow "free-list reuse").bind fun _ =>
      (simulates_modify fun b s h => h.mapLiveCount (· + 1)).bind fun _ => simulates_pure i)
      ((h.setFreeList _).setLive i true)

theorem upsertAt_refines (h : b.Decodes s) (hs : s.Layout) (i : ℕ) (hrow : Row.Storable row) :
    Refines (upsertAt i row) (PageRowStore.upsertAt i row) b s := by
  rw [Refines, upsertAt, PageRowStore.upsertAt, get_bind, get_bind, h.slots_eq, h.slot_eq]
  split_ifs
  · exact update_refines h i hrow
  · exact revive_refines h i hrow
  · exact ⟨rfl, h⟩
  · obtain ⟨b', hb', hdec⟩ := pushRow_ok h hs hrow
    rw [bind_of_ok hb']
    exact ⟨rfl, hdec⟩

theorem replaceRows_refines (hrows : ∀ row ∈ rows, Row.Storable row)
    (h : b.Decodes s) (hs : s.Valid) :
    Refines (replaceRows rows) (PageRowStore.replaceRows rows) b s := by
  have hcleared : Decodes
      { b with pageDirectory := ∅, slots := [], freeList := [], decodedRows := ∅, liveCount := 0 }
      { s with pageDirectory := ∅, slots := [], freeList := [], liveCount := 0 } :=
    { h with
      slots_eq := rfl
      freeList_eq := rfl
      liveCount_eq := rfl
      directory_eq := fun p => by simp
      length_lt := fun p rows hp => by simp at hp
      storable := fun p rows hp => by simp at hp
      buffered_eq := fun p page bytes _ hp => by simp at hp
      decoded_eq := fun i row hi => by simp at hi }
  -- the loop keeps the store valid, which bounds the pages that it appends to
  have hloop : Simulates (fun b s => b.Decodes s ∧ s.Valid)
      (forM rows fun row => discard (append row))
      (forM rows fun row => discard (PageRowStore.append row)) :=
    simulates_forM fun row hrow b s h => by
      obtain ⟨hout, hdec⟩ :=
        (append_refines h.1 h.2.toLayout (hrows row hrow)).map fun _ => PUnit.unit
      refine ⟨hout, hdec, ?_⟩
      rw [discard_of_ok (append_ok h.2 row)]
      exact h.2.appended row
  obtain ⟨hout, hdec, -⟩ := hloop ⟨hcleared, hs.cleared⟩
  exact ⟨hout, hdec⟩

theorem storePages_ok {page : ℕ → List Row} {pageIds : List ℕ}
    (hlen : ∀ p ∈ pageIds, (page p).length < 2 ^ 64)
    (hrows : ∀ p ∈ pageIds, ∀ row ∈ page p, Row.Storable row) (h : b.Decodes s) :
    ∃ b', (forM pageIds fun p => storePage p (page p) : EStateM Error BufferedRowStore Unit) b =
      .ok () b' ∧ b'.Decodes (s.storePages page pageIds) := by
  induction pageIds generalizing b s with
  | nil => exact ⟨b, rfl, h⟩
  | cons p pageIds ih =>
    obtain ⟨b₁, hb₁, h₁⟩ := storePage_ok h p (hlen p List.mem_cons_self)
      (hrows p List.mem_cons_self)
    obtain ⟨b₂, hb₂, h₂⟩ := ih (fun q hq => hlen q (List.mem_cons_of_mem p hq))
      (fun q hq => hrows q (List.mem_cons_of_mem p hq)) h₁
    exact ⟨b₂, by rw [forM_cons_run, bind_of_ok hb₁, hb₂], h₂⟩

variable {entries : List (ℕ × Row)}

theorem storable_page_lay {rowsPerPage capacity : ℕ} (hlt : rowsPerPage < 2 ^ 64)
    (hpos : 0 < rowsPerPage) (hentries : ∀ entry ∈ entries, Row.Storable entry.2) {p : ℕ}
    (hp : p ∈ (lay rowsPerPage capacity entries).pages) :
    ((lay rowsPerPage capacity entries).page p).length < 2 ^ 64 ∧
      ∀ row ∈ (lay rowsPerPage capacity entries).page p, Row.Storable row := by
  obtain ⟨rows, hrows⟩ := Option.isSome_iff_exists.mp (isSome_getElem?_iff_mem.mpr hp)
  obtain ⟨hp0, hmem⟩ := getElem?_lay hrows
  obtain ⟨q, rfl⟩ := Nat.exists_eq_add_of_lt hp0
  rw [Nat.zero_add] at hrows ⊢
  refine ⟨(length_page_lay_le hpos capacity entries q).trans_lt hlt, fun row hrow => ?_⟩
  rw [page, hrows] at hrow
  rcases hmem row hrow with rfl | hentry
  · decide
  · obtain ⟨entry, hmem', rfl⟩ := List.mem_map.mp hentry
    exact hentries entry hmem'

/-- The store before the pages of a sparse layout are stored. -/
def unstored (b : BufferedRowStore) (capacity : ℕ) (freeList : List ℕ) (entries : List (ℕ × Row)) :
    BufferedRowStore :=
  { b with
    pageDirectory := ∅
    decodedRows := ∅
    slots := (lay b.rowsPerPage capacity entries).slots
    freeList := freeList
    liveCount := entries.length }

theorem Decodes.unstored (h : b.Decodes s) (capacity : ℕ) (freeList : List ℕ)
    (entries : List (ℕ × Row)) :
    (b.unstored capacity freeList entries).Decodes (s.unstored capacity freeList entries) :=
  { h with
    slots_eq := by rw [BufferedRowStore.unstored, PageRowStore.unstored, h.rowsPerPage_eq]
    freeList_eq := rfl
    liveCount_eq := rfl
    directory_eq := fun p => by simp [BufferedRowStore.unstored, PageRowStore.unstored]
    length_lt := fun p rows hp => by simp [PageRowStore.unstored] at hp
    storable := fun p rows hp => by simp [PageRowStore.unstored] at hp
    buffered_eq := fun p page bytes _ hp => by simp [BufferedRowStore.unstored] at hp
    decoded_eq := fun i row hi => by simp [BufferedRowStore.unstored] at hi }

theorem replaceSparse_run (order : HashOrder) {capacity : ℕ} {freeList : List ℕ}
    (h : validateSparseRowLayout capacity freeList entries = .ok ()) :
    replaceSparse order capacity freeList entries b =
      (forM (order.walk (lay b.rowsPerPage capacity entries).pages.keys) fun pageId =>
        storePage pageId ((lay b.rowsPerPage capacity entries).page pageId))
        (b.unstored capacity freeList entries) := by
  rw [replaceSparse, h, ofExcept_ok_bind, get_bind, set_bind, unstored]

theorem replaceSparse_refines (order : HashOrder) (capacity : ℕ) (freeList : List ℕ)
    (hentries : ∀ entry ∈ entries, Row.Storable entry.2) (h : b.Decodes s) (hs : s.Valid) :
    Refines (replaceSparse order capacity freeList entries)
      (PageRowStore.replaceSparse order capacity freeList entries) b s := by
  cases hcheck : validateSparseRowLayout capacity freeList entries with
  | error e =>
    rw [Refines, replaceSparse, replaceSparse_of_error order hcheck, hcheck]
    exact ⟨rfl, h⟩
  | ok u =>
    have hpages := fun p (hp : p ∈ order.walk
        (lay s.rowsPerPage capacity entries).pages.keys) =>
      storable_page_lay h.rowsPerPage_lt hs.rowsPerPage_pos hentries
        (mem_keys.mp ((order.perm _).mem_iff.mp hp))
    refine refines_of_ok (replaceSparse_of_ok order hcheck) ?_
    rw [replaceSparse_run order hcheck, h.rowsPerPage_eq]
    exact storePages_ok (fun p hp => (hpages p hp).1) (fun p hp => (hpages p hp).2)
      (h.unstored capacity freeList entries)

end Interface

end BufferedRowStore

/-- The rows that a call brings into the store. -/
def RowStoreOp.rowsIn : RowStoreOp → List Row
  | .append row | .update _ row | .revive _ row | .upsertAt _ row => [row]
  | .replaceRows rows => rows
  | .replaceSparse _ _ entries => entries.map Prod.snd
  | _ => []

/-- The rows that a call brings into the store hold NULL and values of the column types only. -/
def RowStoreOp.Storable (op : RowStoreOp) : Prop := ∀ row ∈ op.rowsIn, Row.Storable row

instance : DecidablePred RowStoreOp.Storable := fun op =>
  inferInstanceAs (Decidable (∀ row ∈ op.rowsIn, Row.Storable row))

namespace BufferedRowStore

open Exec

variable {b : BufferedRowStore} {s : PageRowStore}

theorem refines_read {α : Type} {x : EStateM Error BufferedRowStore α} {f : PageRowStore → α}
    (hx : ∃ b', x b = .ok (f s) b' ∧ b'.Decodes s) :
    Refines x (f <$> EStateM.get : EStateM Error PageRowStore α) b s :=
  refines_of_ok rfl hx

/-- Every operation on the bytes refines the one on the rows. -/
theorem perform_refines (order : HashOrder) {op : RowStoreOp} (hop : op.Storable) (h : b.Decodes s)
    (hs : s.Valid) : Refines (perform order op) (PageRowStore.perform order op) b s := by
  cases op with
  | append row =>
    exact (append_refines h hs.toLayout (hop row List.mem_cons_self)).map _
  | erase i => exact (erase_refines h i).map _
  | update i row => exact (update_refines h i (hop row List.mem_cons_self)).map _
  | revive i row => exact (revive_refines h i (hop row List.mem_cons_self)).map _
  | upsertAt i row => exact (upsertAt_refines h hs.toLayout i (hop row List.mem_cons_self)).map _
  | replaceRows rows => exact (replaceRows_refines hop h hs).map _
  | replaceSparse capacity freeList entries =>
    exact (replaceSparse_refines order capacity freeList
      (fun entry hentry => hop _ (List.mem_map.mpr ⟨entry, hentry, rfl⟩)) h hs).map _
  | get i => exact (refines_read (get_ok h hs i)).map _
  | snapshot => exact (refines_read (snapshot_ok h hs)).map _
  | liveEntries => exact (refines_read (liveEntries_ok h hs)).map _
  | rowsById ids => exact (refines_read (rowsById_ok h hs ids)).map _
  | freeList => exact ⟨congrArg (fun fl => Except.ok (RowStoreResult.rowIds fl)) h.freeList_eq, h⟩
  | size => exact ⟨congrArg (fun n => Except.ok (RowStoreResult.count n)) h.liveCount_eq, h⟩
  | capacity =>
    exact ⟨congrArg (fun slots => Except.ok (RowStoreResult.count (List.length slots))) h.slots_eq,
      h⟩

/-- Bytes and caches that stand for the rows of a vector row store. -/
def StandsFor (b : BufferedRowStore) (v : VectorRowStore) : Prop :=
  ∃ s : PageRowStore, b.Decodes s ∧ s.Agrees v

theorem perform_simulates (order : HashOrder) {op : RowStoreOp} (hop : op.Storable) :
    Simulates StandsFor (perform order op) (VectorRowStore.perform op) := by
  rintro b v ⟨s, hdec, hagrees⟩
  obtain ⟨hout, hstate⟩ := perform_refines order hop hdec hagrees.toValid
  obtain ⟨hout', hstate'⟩ := PageRowStore.perform_simulates order op hagrees
  exact ⟨hout.trans hout', _, hstate, hstate'⟩

theorem create_standsFor {rowsPerPage bufferPageCapacity : ℕ} (hrows : 0 < rowsPerPage)
    (hsize : rowsPerPage < 2 ^ 64) (hpool : 0 < bufferPageCapacity) :
    ∃ b, create rowsPerPage bufferPageCapacity = .ok b ∧ b.StandsFor {} := by
  refine ⟨{ rowsPerPage := rowsPerPage, bufferPool := { capacity := bufferPageCapacity } }, ?_,
    { rowsPerPage := rowsPerPage }, ?_, ?_⟩
  · simp only [create, BufferPool.create, if_neg hpool.ne', if_neg hrows.ne']
    rfl
  · exact
      { rowsPerPage_eq := rfl
        rowsPerPage_lt := hsize
        slots_eq := rfl
        freeList_eq := rfl
        liveCount_eq := rfl
        directory_eq := fun p => by simp
        length_lt := fun p rows hp => by simp at hp
        storable := fun p rows hp => by simp at hp
        pool_valid := LruCache.valid_empty hpool
        buffered_eq := fun p page bytes _ hp => by simp at hp
        decoded_eq := fun i row hi => by simp at hi }
  · exact ⟨valid_empty hrows, funext fun i => rfl, rfl, rfl, rfl⟩

/-- Every sequence of calls, reads among them at any point, has the outcomes on a page row store
that it has on a vector row store: the rows of a page and the capacity of the buffer pool cannot be
observed. A number of rows per page is a `std::size_t`. -/
theorem trace_eq_vectorRowStore (order : HashOrder) {rowsPerPage bufferPageCapacity : ℕ}
    (hrows : 0 < rowsPerPage) (hsize : rowsPerPage < 2 ^ 64) (hpool : 0 < bufferPageCapacity)
    (ops : List RowStoreOp) (hops : ∀ op ∈ ops, op.Storable) :
    ∃ b, create rowsPerPage bufferPageCapacity = .ok b ∧
      trace (perform order) ops b = trace VectorRowStore.perform ops {} := by
  obtain ⟨b, hb, hstands⟩ := create_standsFor hrows hsize hpool
  exact ⟨b, hb, trace_eq_of_simulates (fun op hop => perform_simulates order (hops op hop)) hstands⟩

/-- Calls that overflow a buffer pool of one page of one row, reuse an id and replace the rows. -/
def smallCalls : List RowStoreOp :=
  [.append [.int 1], .append [.null, .string [97]], .get 0, .get 1, .erase 0, .append [.int 2],
    .get 0, .upsertAt 2 [.int 3], .replaceSparse 2 [1] [(0, [.int 4])], .snapshot, .get 1]

theorem trace_smallCalls :
    ∃ b, create 1 1 = .ok b ∧ trace (perform ⟨id, fun _ => List.Perm.refl _⟩) smallCalls b =
      trace VectorRowStore.perform smallCalls {} :=
  trace_eq_vectorRowStore ⟨id, fun _ => List.Perm.refl _⟩ (by decide) (by decide) (by decide)
    smallCalls (by decide)

end BufferedRowStore

end VertexDB
