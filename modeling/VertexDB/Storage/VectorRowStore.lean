import VertexDB.Lib.Simulation
import VertexDB.Storage.SparseLayout

/-!
# The vector row store

The in-memory row store of `src/storage/vector_row_store.cpp`, a vector of optional rows with a free
list, and the operations that both row stores offer (`include/VertexDB/storage/row_store.hpp`). On
the rows themselves, without the bytes of the pages, the two stores cannot be told apart.
-/

namespace VertexDB

open List

/-- `VectorRowStore`. -/
structure VectorRowStore where
  rows : List (Option Row) := []
  freeList : List ℕ := []
  liveCount : ℕ := 0

namespace VectorRowStore

open Exec

/-- `rows_[rowId]`, where the source reads within the capacity. -/
def row (v : VectorRowStore) (rowId : ℕ) : Option Row := v.rows.getD rowId none

/-- `VectorRowStore::get`. -/
def get (v : VectorRowStore) (rowId : ℕ) : Option Row :=
  if v.rows.length ≤ rowId ∨ (v.row rowId).isNone then none else v.row rowId

/-- `VectorRowStore::append`. -/
def append (row : Row) : EStateM Error VectorRowStore ℕ := do
  let v ← EStateM.get
  match v.freeList.getLast? with
  | some rowId =>
    EStateM.set { v with freeList := v.freeList.dropLast
                         rows := v.rows.set rowId (some row)
                         liveCount := v.liveCount + 1 }
    return rowId
  | none =>
    EStateM.set { v with rows := v.rows ++ [some row], liveCount := v.liveCount + 1 }
    return v.rows.length

/-- `VectorRowStore::erase`. -/
def erase (rowId : ℕ) : EStateM Error VectorRowStore Bool := do
  let v ← EStateM.get
  if v.rows.length ≤ rowId ∨ (v.row rowId).isNone then return false
  EStateM.set { v with rows := v.rows.set rowId none
                       freeList := v.freeList ++ [rowId]
                       liveCount := v.liveCount - 1 }
  return true

/-- `VectorRowStore::update`. -/
def update (rowId : ℕ) (row : Row) : EStateM Error VectorRowStore Bool := do
  let v ← EStateM.get
  if v.rows.length ≤ rowId ∨ (v.row rowId).isNone then return false
  EStateM.set { v with rows := v.rows.set rowId (some row) }
  return true

/-- `VectorRowStore::revive`. -/
def revive (rowId : ℕ) (row : Row) : EStateM Error VectorRowStore Bool := do
  let v ← EStateM.get
  if v.rows.length ≤ rowId ∨ (v.row rowId).isSome then return false
  if rowId ∉ v.freeList then return false
  EStateM.set { v with freeList := v.freeList.erase rowId
                       rows := v.rows.set rowId (some row)
                       liveCount := v.liveCount + 1 }
  return true

/-- `VectorRowStore::upsertAt`. -/
def upsertAt (rowId : ℕ) (row : Row) : EStateM Error VectorRowStore Bool := do
  let v ← EStateM.get
  if rowId < v.rows.length then
    if (v.row rowId).isSome then update rowId row else revive rowId row
  else if rowId ≠ v.rows.length then return false
  else
    EStateM.set { v with rows := v.rows ++ [some row], liveCount := v.liveCount + 1 }
    return true

/-- `VectorRowStore::snapshot`. -/
def snapshot (v : VectorRowStore) : List Row := v.rows.filterMap id

/-- `VectorRowStore::liveEntries`. -/
def liveEntries (v : VectorRowStore) : List (ℕ × Row) :=
  (List.range v.rows.length).filterMap fun rowId => (v.row rowId).map (rowId, ·)

/-- `VectorRowStore::rowsById`. -/
def rowsById (v : VectorRowStore) (rowIds : List ℕ) : List Row := rowIds.filterMap v.get

/-- `VectorRowStore::size`. -/
def size (v : VectorRowStore) : ℕ := v.liveCount

/-- `VectorRowStore::capacity`. -/
def capacity (v : VectorRowStore) : ℕ := v.rows.length

/-- `VectorRowStore::replaceRows`. -/
def replaceRows (rows : List Row) : EStateM Error VectorRowStore Unit := do
  EStateM.set {}
  forM rows fun row => discard (append row)

/-- `VectorRowStore::replaceSparse`. -/
def replaceSparse (capacity : ℕ) (freeList : List ℕ) (entries : List (ℕ × Row)) :
    EStateM Error VectorRowStore Unit := do
  Exec.ofExcept (validateSparseRowLayout capacity freeList entries)
  EStateM.set { rows := assignAll (entries.map fun entry => (entry.1, some entry.2))
                  (List.replicate capacity none)
                freeList := freeList
                liveCount := entries.length }

end VectorRowStore

/-- A call of the row store interface. -/
inductive RowStoreOp where
  | append (row : Row)
  | erase (rowId : ℕ)
  | update (rowId : ℕ) (row : Row)
  | revive (rowId : ℕ) (row : Row)
  | upsertAt (rowId : ℕ) (row : Row)
  | replaceRows (rows : List Row)
  | replaceSparse (capacity : ℕ) (freeList : List ℕ) (entries : List (ℕ × Row))
  | get (rowId : ℕ)
  | snapshot
  | liveEntries
  | rowsById (rowIds : List ℕ)
  | freeList
  | size
  | capacity

/-- What such a call returns. -/
inductive RowStoreResult where
  | rowId (rowId : ℕ)
  | changed (changed : Bool)
  | replaced
  | row (row : Option Row)
  | rows (rows : List Row)
  | entries (entries : List (ℕ × Row))
  | rowIds (rowIds : List ℕ)
  | count (count : ℕ)
  deriving DecidableEq, Repr

/-- The call on a vector row store. -/
def VectorRowStore.perform : RowStoreOp → EStateM Error VectorRowStore RowStoreResult
  | .append row => .rowId <$> append row
  | .erase rowId => .changed <$> erase rowId
  | .update rowId row => .changed <$> update rowId row
  | .revive rowId row => .changed <$> revive rowId row
  | .upsertAt rowId row => .changed <$> upsertAt rowId row
  | .replaceRows rows => (fun _ => .replaced) <$> replaceRows rows
  | .replaceSparse capacity freeList entries =>
    (fun _ => .replaced) <$> replaceSparse capacity freeList entries
  | .get rowId => (fun v => .row (v.get rowId)) <$> EStateM.get
  | .snapshot => (fun v => .rows v.snapshot) <$> EStateM.get
  | .liveEntries => (fun v => .entries v.liveEntries) <$> EStateM.get
  | .rowsById rowIds => (fun v => .rows (v.rowsById rowIds)) <$> EStateM.get
  | .freeList => (fun v => .rowIds v.freeList) <$> EStateM.get
  | .size => (fun v => .count v.size) <$> EStateM.get
  | .capacity => (fun v => .count v.capacity) <$> EStateM.get

/-- The call on the rows of a page row store. -/
def PageRowStore.perform (order : HashOrder) :
    RowStoreOp → EStateM Error PageRowStore RowStoreResult
  | .append row => .rowId <$> append row
  | .erase rowId => .changed <$> erase rowId
  | .update rowId row => .changed <$> update rowId row
  | .revive rowId row => .changed <$> revive rowId row
  | .upsertAt rowId row => .changed <$> upsertAt rowId row
  | .replaceRows rows => (fun _ => .replaced) <$> replaceRows rows
  | .replaceSparse capacity freeList entries =>
    (fun _ => .replaced) <$> replaceSparse order capacity freeList entries
  | .get rowId => (fun s => .row (s.get rowId)) <$> EStateM.get
  | .snapshot => (fun s => .rows s.snapshot) <$> EStateM.get
  | .liveEntries => (fun s => .entries s.liveEntries) <$> EStateM.get
  | .rowsById rowIds => (fun s => .rows (s.rowsById rowIds)) <$> EStateM.get
  | .freeList => (fun s => .rowIds s.freeList) <$> EStateM.get
  | .size => (fun s => .count s.size) <$> EStateM.get
  | .capacity => (fun s => .count s.capacity) <$> EStateM.get

namespace VectorRowStore

variable {v : VectorRowStore}

theorem get_eq_row (v : VectorRowStore) (i : ℕ) : v.get i = v.row i := by
  rw [get]
  split_ifs with h
  · rcases h with h | h
    · simp [row, getD, h]
    · exact (Option.isNone_iff_eq_none.mp h).symm
  · rfl

theorem row_set {i : ℕ} (hi : i < v.rows.length) (x : Option Row) (fl : List ℕ) (n : ℕ) :
    ({ rows := v.rows.set i x, freeList := fl, liveCount := n } : VectorRowStore).get =
      Function.update v.get i x := by
  funext j
  rw [get_eq_row, Function.update_apply, get_eq_row]
  by_cases hij : i = j
  · subst hij
    simp [row, getD, hi]
  · rw [if_neg (Ne.symm hij)]
    simp [row, getD, getElem?_set_ne hij]

theorem row_push (x : Option Row) (fl : List ℕ) (n : ℕ) :
    ({ rows := v.rows ++ [x], freeList := fl, liveCount := n } : VectorRowStore).get =
      Function.update v.get v.rows.length x := by
  funext j
  rw [get_eq_row, Function.update_apply, get_eq_row]
  rcases lt_trichotomy j v.rows.length with hj | rfl | hj
  · rw [if_neg hj.ne]
    simp [row, getD, getElem?_append_left hj]
  · simp [row, getD]
  · rw [if_neg hj.ne']
    have hlen : (v.rows ++ [x]).length ≤ j := by
      rw [length_append, length_singleton]
      exact hj
    simp [row, getD, getElem?_eq_none hlen, getElem?_eq_none hj.le]

/-- The rows of a sparse layout are its entries. -/
theorem get_sparse {capacity : ℕ} {freeList : List ℕ} {entries : List (ℕ × Row)}
    (hcover : Covers capacity freeList entries) {fl : List ℕ} {n i : ℕ} {row : Row} :
    ({ rows := assignAll (entries.map fun entry => (entry.1, some entry.2))
        (List.replicate capacity none)
       freeList := fl
       liveCount := n } : VectorRowStore).get i = some row ↔ (i, row) ∈ entries := by
  have hmap : (entries.map fun entry => (entry.1, some entry.2)).map Prod.fst =
      entries.map Prod.fst := by simp
  have hsome : ∀ {row : Row}, (i, row) ∈ entries →
      (assignAll (entries.map fun entry => (entry.1, some entry.2))
        (replicate capacity none))[i]? = some (some row) := fun {row} hmem => by
    have hentry : (i, some row) ∈ entries.map fun entry => (entry.1, some entry.2) :=
      mem_map.mpr ⟨_, hmem, rfl⟩
    refine getElem?_assignAll_of_mem (hmap ▸ hcover.ids_nodup) hentry ?_
    rw [length_replicate, hcover.lt_iff]
    exact Or.inr (mem_map.mpr ⟨_, hmem, rfl⟩)
  rw [get_eq_row, VectorRowStore.row, getD]
  by_cases hid : i ∈ entries.map Prod.fst
  · obtain ⟨⟨i, row'⟩, hmem, rfl⟩ := mem_map.mp hid
    rw [hsome hmem, Option.getD_some, Option.some.injEq]
    constructor
    · rintro rfl
      exact hmem
    · intro hmem'
      exact Option.some.inj (Option.some.inj ((hsome hmem).symm.trans (hsome hmem')))
  · rw [getElem?_assignAll_of_not_mem (hmap ▸ hid), getElem?_replicate]
    constructor
    · intro h
      split_ifs at h <;> cases h
    · exact fun hmem => absurd (mem_map.mpr ⟨_, hmem, rfl⟩) hid

end VectorRowStore

namespace PageRowStore

open Exec

/-- A valid page row store and a vector row store with the same rows and free list. -/
structure Agrees (s : PageRowStore) (v : VectorRowStore) : Prop extends Valid s where
  get_eq : s.get = v.get
  capacity_eq : s.slots.length = v.rows.length
  freeList_eq : s.freeList = v.freeList
  liveCount_eq : s.liveCount = v.liveCount

variable {s : PageRowStore} {v : VectorRowStore}

namespace Agrees

theorem touched (h : s.Agrees v) {i : ℕ} (hi : i < s.slots.length) {live : Bool} {row : Row}
    {fl : List ℕ} {n : ℕ} (hvalid : (s.touched i live row fl n).Valid) :
    (s.touched i live row fl n).Agrees
      { rows := v.rows.set i (if live then some row else none), freeList := fl,
        liveCount := n } where
  toValid := hvalid
  get_eq := by
    rw [get_touched h.toLayout hi, VectorRowStore.row_set (h.capacity_eq ▸ hi), h.get_eq]
  capacity_eq := by
    rw [length_set, ← h.capacity_eq]
    exact capacity_touched ..
  freeList_eq := rfl
  liveCount_eq := rfl

theorem extended (h : s.Agrees v) (row : Row) :
    (s.extended row).Agrees
      { v with rows := v.rows ++ [some row], liveCount := v.liveCount + 1 } where
  toValid := h.toValid.extended row
  get_eq := by
    rw [get_extended h.toLayout, VectorRowStore.row_push, h.get_eq, capacity, h.capacity_eq]
  capacity_eq := by simp [PageRowStore.extended, h.capacity_eq]
  freeList_eq := h.freeList_eq
  liveCount_eq := congrArg (· + 1) h.liveCount_eq

theorem setRow (h : s.Agrees v) {i : ℕ} {old : Row} (row : Row) (hget : s.get i = some old) :
    (s.setRow i row).Agrees { v with rows := v.rows.set i (some row) } where
  toValid := h.toValid.setRow row hget
  get_eq := by
    have hi := ((h.toValid.get_isSome_iff i).mp (by simp [hget])).1
    rw [get_setRow h.toValid row hget, VectorRowStore.row_set (h.capacity_eq ▸ hi), h.get_eq]
  capacity_eq := by simp [h.capacity_eq]
  freeList_eq := h.freeList_eq
  liveCount_eq := h.liveCount_eq

theorem isNone_iff (h : s.Agrees v) (i : ℕ) :
    (v.rows.length ≤ i ∨ (v.row i).isNone) ↔ s.get i = none := by
  rw [h.get_eq, VectorRowStore.get_eq_row, Option.isNone_iff_eq_none, or_iff_right_of_imp]
  intro hi
  simp [VectorRowStore.row, getD, hi]

end Agrees

theorem ends_alike {α : Type} {x : EStateM Error PageRowStore α}
    {y : EStateM Error VectorRowStore α} {a : α} {s' : PageRowStore} {v' : VectorRowStore}
    (hx : x s = .ok a s') (hy : y v = .ok a v') (h : s'.Agrees v') :
    outcome (x s) = outcome (y v) ∧ (state (x s)).Agrees (state (y v)) := by
  rw [hx, hy]
  exact ⟨rfl, h⟩

theorem append_simulates (row : Row) :
    Simulates Agrees (append row) (VectorRowStore.append row) := by
  intro s v h
  cases hlast : s.freeList.getLast? with
  | none =>
    have hlast' : v.freeList.getLast? = none := h.freeList_eq ▸ hlast
    refine ends_alike (append_new row (getLast?_eq_none_iff.mp hlast)) ?_ (h.extended row)
    simp only [VectorRowStore.append, get_bind, hlast', capacity, h.capacity_eq]
    rfl
  | some i =>
    have hlast' : v.freeList.getLast? = some i := h.freeList_eq ▸ hlast
    have hi := ((h.toValid.mem_freeList_iff i).mp (mem_of_getLast? hlast)).1
    have hvalid := h.toValid.appended row
    rw [appended, hlast] at hvalid
    refine ends_alike (append_reuse h.toValid row hlast) ?_ (h.touched hi hvalid)
    simp only [VectorRowStore.append, get_bind, hlast', h.freeList_eq, h.liveCount_eq]
    rfl

theorem erase_simulates (i : ℕ) : Simulates Agrees (erase i) (VectorRowStore.erase i) := by
  intro s v h
  have htest := h.isNone_iff i
  cases hget : s.get i with
  | none =>
    refine ends_alike (erase_eq_false h.toValid hget) ?_ h
    simp only [VectorRowStore.erase, get_bind, ite_run, if_pos (htest.mpr hget)]
    rfl
  | some row =>
    have hi := ((h.toValid.get_isSome_iff i).mp (by simp [hget])).1
    refine ends_alike (erase_ok h.toValid hget) ?_ (h.touched hi (h.toValid.erase hget _))
    have hsome := mt htest.mp (hget ▸ Option.some_ne_none row)
    rw [VectorRowStore.erase, get_bind, ite_run, if_neg hsome, h.freeList_eq, h.liveCount_eq]
    rfl

theorem update_simulates (i : ℕ) (row : Row) :
    Simulates Agrees (update i row) (VectorRowStore.update i row) := by
  intro s v h
  have htest := h.isNone_iff i
  cases hget : s.get i with
  | none =>
    refine ends_alike (update_eq_false h.toValid row hget) ?_ h
    rw [VectorRowStore.update, get_bind, ite_run, if_pos (htest.mpr hget)]
    rfl
  | some old =>
    refine ends_alike (update_ok h.toValid row hget) ?_ (h.setRow row hget)
    have hsome := mt htest.mp (hget ▸ Option.some_ne_none old)
    rw [VectorRowStore.update, get_bind, ite_run, if_neg hsome]
    rfl

theorem revive_simulates (i : ℕ) (row : Row) :
    Simulates Agrees (revive i row) (VectorRowStore.revive i row) := by
  intro s v h
  have hsome : (v.row i).isSome ↔ (s.get i).isSome := by
    rw [h.get_eq, VectorRowStore.get_eq_row]
  by_cases htest : s.slots.length ≤ i ∨ (s.get i).isSome
  · refine ends_alike (revive_eq_false h.toValid row htest) ?_ h
    rw [VectorRowStore.revive, get_bind, ite_run, if_pos (by rwa [← h.capacity_eq, hsome])]
    rfl
  · rw [not_or, not_le, Option.not_isSome_iff_eq_none] at htest
    obtain ⟨hi, hget⟩ := htest
    refine ends_alike (revive_ok h.toValid row hi hget)
      ?_ (h.touched hi (h.toValid.revive row hi _))
    have hmem : i ∈ v.freeList := h.freeList_eq ▸ (h.toValid.mem_freeList_iff i).mpr ⟨hi, hget⟩
    rw [VectorRowStore.revive, get_bind, ite_run,
      if_neg (by rw [hsome, hget, ← h.capacity_eq]; simpa using hi), ite_run,
      if_neg (not_not.mpr hmem), h.freeList_eq, h.liveCount_eq]
    rfl

theorem upsertAt_simulates (i : ℕ) (row : Row) :
    Simulates Agrees (upsertAt i row) (VectorRowStore.upsertAt i row) := by
  intro s v h
  have hlive : i < s.slots.length → ((s.slot i).live = true ↔ (v.row i).isSome) := fun hi => by
    rw [← VectorRowStore.get_eq_row, ← h.get_eq, h.toValid.get_isSome_iff]
    simp [hi]
  simp only [upsertAt, VectorRowStore.upsertAt, get_bind, ite_run, ← h.capacity_eq]
  by_cases hi : i < s.slots.length
  · simp only [if_pos hi, hlive hi]
    split_ifs
    · exact update_simulates i row h
    · exact revive_simulates i row h
  · rw [if_neg hi, if_neg hi]
    split_ifs
    · exact ⟨rfl, h⟩
    · exact ⟨rfl, h.extended row⟩

theorem replaceRows_simulates (rows : List Row) :
    Simulates Agrees (replaceRows rows) (VectorRowStore.replaceRows rows) := by
  have hloop : Simulates Agrees (forM rows fun row => discard (append row))
      (forM rows fun row => discard (VectorRowStore.append row)) :=
    simulates_forM fun row _ => (append_simulates row).map _
  intro s v h
  have hcleared : PageRowStore.Agrees
      { s with pageDirectory := ∅, slots := [], freeList := [], liveCount := 0 } {} :=
    ⟨h.toValid.cleared, funext fun i => rfl, rfl, rfl, rfl⟩
  exact hloop hcleared

theorem replaceSparse_simulates (order : HashOrder) (capacity : ℕ) (freeList : List ℕ)
    (entries : List (ℕ × Row)) :
    Simulates Agrees (replaceSparse order capacity freeList entries)
      (VectorRowStore.replaceSparse capacity freeList entries) := by
  intro s v h
  cases hcheck : validateSparseRowLayout capacity freeList entries with
  | error e =>
    rw [replaceSparse_of_error order hcheck, VectorRowStore.replaceSparse, hcheck]
    exact ⟨rfl, h⟩
  | ok u =>
    obtain ⟨s', hs', hvalid, hcap, hfree, hcount, hget⟩ := replaceSparse_ok order h.toValid hcheck
    refine ends_alike hs' (by rw [VectorRowStore.replaceSparse, hcheck]; rfl)
      ⟨hvalid, funext fun i => ?_, ?_, hfree, hcount⟩
    · refine Option.ext fun row => ?_
      rw [hget, VectorRowStore.get_sparse (covers_of_validate hcheck)]
    · rw [← PageRowStore.capacity, hcap, length_assignAll, length_replicate]

theorem filterMap_range_get (h : s.Agrees v) :
    (List.range s.slots.length).filterMap s.get = v.rows.filterMap id := by
  have hrows : v.rows = (range v.rows.length).map v.row := by
    refine ext_getElem? fun i => ?_
    by_cases hi : i < v.rows.length
    · simp [VectorRowStore.row, getD, hi]
    · simp [hi]
  rw [h.get_eq, h.capacity_eq]
  conv_rhs => rw [hrows, filterMap_map]
  exact filterMap_congr fun i _ => VectorRowStore.get_eq_row v i

theorem simulates_read {α : Type} {f : PageRowStore → α} {g : VectorRowStore → α}
    (h : ∀ s v, Agrees s v → f s = g v) :
    Simulates Agrees (f <$> EStateM.get : EStateM Error PageRowStore α)
      (g <$> EStateM.get : EStateM Error VectorRowStore α) :=
  fun s v hsv => ⟨congrArg Except.ok (h s v hsv), hsv⟩

/-- Every call of the interface ends alike on both stores. -/
theorem perform_simulates (order : HashOrder) (op : RowStoreOp) :
    Simulates Agrees (perform order op) (VectorRowStore.perform op) := by
  cases op with
  | append row => exact (append_simulates row).map _
  | erase i => exact (erase_simulates i).map _
  | update i row => exact (update_simulates i row).map _
  | revive i row => exact (revive_simulates i row).map _
  | upsertAt i row => exact (upsertAt_simulates i row).map _
  | replaceRows rows => exact (replaceRows_simulates rows).map _
  | replaceSparse capacity freeList entries =>
    exact (replaceSparse_simulates order capacity freeList entries).map _
  | get i => exact simulates_read fun s v h => by rw [h.get_eq]
  | snapshot => exact simulates_read fun s v h => congrArg _ (filterMap_range_get h)
  | liveEntries =>
    refine simulates_read fun s v h => ?_
    rw [liveEntries, VectorRowStore.liveEntries, capacity, h.capacity_eq, h.get_eq]
    simp only [VectorRowStore.get_eq_row]
  | rowsById ids =>
    refine simulates_read fun s v h => ?_
    rw [rowsById, VectorRowStore.rowsById, h.get_eq]
  | freeList => exact simulates_read fun s v h => by rw [h.freeList_eq]
  | size => exact simulates_read fun s v h => congrArg _ h.liveCount_eq
  | capacity => exact simulates_read fun s v h => congrArg _ h.capacity_eq

end PageRowStore

end VertexDB
