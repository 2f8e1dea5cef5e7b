import VertexDB.Common.Value
import VertexDB.Lib.Exec
import Mathlib.Data.List.Nodup
import Mathlib.Order.Basic

/-!
# The page row store

The heap of a table, as in `src/storage/page_row_store.cpp`: row ids are slots, a slot names a page
and an offset in it, and freed slots are reused last in, first out. The store keeps the decoded rows
of each page; the bytes of a page, the buffer pool and the cache of decoded rows stand between these
rows and the source's page directory and are added in `VertexDB.Storage.BufferedRowStore`.

A call of the source that throws leaves the store as it was at the throw, so the operations run in
`EStateM`, whose errors carry the state.
-/

namespace VertexDB

open List

/-- `PageRowStore::Slot`. -/
structure Slot where
  pageId : ℕ := 0
  offset : ℕ := 0
  live : Bool := false
  deriving DecidableEq, Repr

/-- `PageRowStore`. -/
structure PageRowStore where
  rowsPerPage : ℕ := 256
  slots : List Slot := []
  freeList : List ℕ := []
  pageDirectory : Std.ExtTreeMap ℕ (List Row) := ∅
  liveCount : ℕ := 0
  dirtyPages : Std.ExtTreeSet ℕ := ∅

namespace PageRowStore

open Exec

/-- `PageRowStore::capacity`. -/
def capacity (s : PageRowStore) : ℕ := s.slots.length

/-- `PageRowStore::loadPageRows`. -/
def loadPageRows (s : PageRowStore) (pageId : ℕ) : List Row :=
  s.pageDirectory[pageId]?.getD []

/-- `PageRowStore::storePage`. -/
def storePage (s : PageRowStore) (pageId : ℕ) (rows : List Row) : PageRowStore :=
  { s with
    pageDirectory := s.pageDirectory.insert pageId rows
    dirtyPages := s.dirtyPages.insert pageId }

/-- `PageRowStore::get`. -/
def get (s : PageRowStore) (rowId : ℕ) : Option Row :=
  match s.slots[rowId]? with
  | none => none
  | some slot => if slot.live then (s.loadPageRows slot.pageId)[slot.offset]? else none

/-- The slot of a row id; the callers of the source stay within the capacity. -/
def slot (s : PageRowStore) (rowId : ℕ) : Slot := s.slots.getD rowId {}

/-- `slot.live = live`. -/
def setLive (s : PageRowStore) (rowId : ℕ) (live : Bool) : PageRowStore :=
  { s with slots := s.slots.set rowId { s.slot rowId with live := live } }

/-- The page access shared by the operations: load the page of the slot, refuse an offset outside
of it, and store the page with the row replaced. -/
def replaceSlotRow (rowId : ℕ) (row : Row) (context : String) :
    EStateM Error PageRowStore Unit := do
  let s ← EStateM.get
  let slot := s.slot rowId
  let pageRows := s.loadPageRows slot.pageId
  if pageRows.length ≤ slot.offset then
    throw (.runtimeError ("page slot offset out of range on " ++ context))
  EStateM.set (s.storePage slot.pageId (pageRows.set slot.offset row))

/-- `PageRowStore::append`. -/
def append (row : Row) : EStateM Error PageRowStore ℕ := do
  let s ← EStateM.get
  match s.freeList.getLast? with
  | some rowId =>
    EStateM.set ({ s with freeList := s.freeList.dropLast }.setLive rowId true)
    replaceSlotRow rowId row "free-list reuse"
    modify fun s => { s with liveCount := s.liveCount + 1 }
    return rowId
  | none =>
    let rowId := s.slots.length
    let pageId := rowId / s.rowsPerPage + 1
    let pageRows := s.loadPageRows pageId ++ [row]
    let slot : Slot := { pageId := pageId, offset := pageRows.length - 1, live := true }
    let s := { s with slots := s.slots ++ [slot] }
    EStateM.set { s.storePage pageId pageRows with liveCount := s.liveCount + 1 }
    return rowId

/-- `PageRowStore::erase`. -/
def erase (rowId : ℕ) : EStateM Error PageRowStore Bool := do
  let s ← EStateM.get
  if s.slots.length ≤ rowId ∨ !(s.slot rowId).live then return false
  EStateM.set (s.setLive rowId false)
  replaceSlotRow rowId [] "erase"
  modify fun s => { s with freeList := s.freeList ++ [rowId], liveCount := s.liveCount - 1 }
  return true

/-- `PageRowStore::update`. -/
def update (rowId : ℕ) (row : Row) : EStateM Error PageRowStore Bool := do
  let s ← EStateM.get
  if s.slots.length ≤ rowId ∨ !(s.slot rowId).live then return false
  replaceSlotRow rowId row "update"
  return true

/-- `PageRowStore::revive`. -/
def revive (rowId : ℕ) (row : Row) : EStateM Error PageRowStore Bool := do
  let s ← EStateM.get
  if s.slots.length ≤ rowId ∨ (s.slot rowId).live then return false
  if rowId ∉ s.freeList then return false
  EStateM.set ({ s with freeList := s.freeList.erase rowId }.setLive rowId true)
  replaceSlotRow rowId row "revive"
  modify fun s => { s with liveCount := s.liveCount + 1 }
  return true

/-- `PageRowStore::liveEntries`. -/
def liveEntries (s : PageRowStore) : List (ℕ × Row) :=
  (List.range s.capacity).filterMap fun rowId => (s.get rowId).map (rowId, ·)

/-- The row stored in the place of a slot, whether the slot is live or not. -/
def cell (s : PageRowStore) (rowId : ℕ) : Option Row :=
  match s.slots[rowId]? with
  | none => none
  | some slot => (s.loadPageRows slot.pageId)[slot.offset]?

/-- The store with the row in the place of a slot replaced. -/
def setRow (s : PageRowStore) (rowId : ℕ) (row : Row) : PageRowStore :=
  s.storePage (s.slot rowId).pageId
    ((s.loadPageRows (s.slot rowId).pageId).set (s.slot rowId).offset row)

/-- Slot `i` is the place `i % rowsPerPage` of page `i / rowsPerPage + 1`, and the pages hold
exactly these places. -/
structure Layout (s : PageRowStore) : Prop where
  rowsPerPage_pos : 0 < s.rowsPerPage
  slot_place : ∀ (i : ℕ) (slot : Slot), s.slots[i]? = some slot →
    slot.pageId = i / s.rowsPerPage + 1 ∧ slot.offset = i % s.rowsPerPage
  page_length : ∀ p o, o < (s.loadPageRows (p + 1)).length ↔
    o < s.rowsPerPage ∧ p * s.rowsPerPage + o < s.slots.length

/-- Slots, pages and free list agree: the pages are laid out by row id, a free place holds the empty
row, and the free list holds every free slot once. -/
structure Valid (s : PageRowStore) : Prop extends Layout s where
  free_row : ∀ (i : ℕ) (slot : Slot), s.slots[i]? = some slot → slot.live = false →
    s.cell i = some []
  freeList_nodup : s.freeList.Nodup
  mem_freeList : ∀ i, i ∈ s.freeList ↔ ∃ slot : Slot, s.slots[i]? = some slot ∧ slot.live = false

variable {i : ℕ}

section Places

@[simp] theorem loadPageRows_storePage (s : PageRowStore) (p q : ℕ) (rows : List Row) :
    (s.storePage p rows).loadPageRows q = if p = q then rows else s.loadPageRows q := by
  by_cases h : p = q <;> simp [loadPageRows, storePage, Std.ExtTreeMap.getElem?_insert, h]

@[simp] theorem setRow_slots (s : PageRowStore) (i : ℕ) (row : Row) :
    (s.setRow i row).slots = s.slots := rfl

@[simp] theorem setRow_freeList (s : PageRowStore) (i : ℕ) (row : Row) :
    (s.setRow i row).freeList = s.freeList := rfl

theorem slot_eq {s : PageRowStore} {slot : Slot} (h : s.slots[i]? = some slot) :
    s.slot i = slot := by
  simp [PageRowStore.slot, getD, h]

theorem getElem?_slots {s : PageRowStore} (h : i < s.slots.length) :
    s.slots[i]? = some (s.slot i) := by
  simp [PageRowStore.slot, getD, getElem?_eq_getElem h]

theorem get_eq (s : PageRowStore) (i : ℕ) :
    s.get i = if (s.slot i).live then s.cell i else none := by
  cases h : s.slots[i]? with
  | none => simp [get, PageRowStore.slot, getD, h]
  | some slot => simp [get, cell, slot_eq h, h]

theorem cell_eq_none {s : PageRowStore} (h : s.slots.length ≤ i) :
    s.cell i = none := by
  simp [cell, getElem?_eq_none h]

variable {s : PageRowStore}

namespace Layout

theorem offset_lt (hs : s.Layout) (h : i < s.slots.length) :
    (s.slot i).offset < (s.loadPageRows (s.slot i).pageId).length := by
  obtain ⟨hp, ho⟩ := hs.slot_place i _ (getElem?_slots h)
  rw [hp, ho, hs.page_length]
  have hdiv := Nat.div_add_mod' i s.rowsPerPage
  exact ⟨Nat.mod_lt _ hs.rowsPerPage_pos, by omega⟩

/-- Two slots of one page and one offset are the same slot. -/
theorem place_inj (hs : s.Layout) {j : ℕ} (hi : i < s.slots.length) (hj : j < s.slots.length)
    (hpage : (s.slot i).pageId = (s.slot j).pageId) (hoff : (s.slot i).offset = (s.slot j).offset) :
    i = j := by
  obtain ⟨hpi, hoi⟩ := hs.slot_place i _ (getElem?_slots hi)
  obtain ⟨hpj, hoj⟩ := hs.slot_place j _ (getElem?_slots hj)
  have hdiv : i / s.rowsPerPage = j / s.rowsPerPage := by omega
  have hmod : i % s.rowsPerPage = j % s.rowsPerPage := by omega
  rw [← Nat.div_add_mod' i s.rowsPerPage, ← Nat.div_add_mod' j s.rowsPerPage, hdiv, hmod]

theorem cell_setRow (hs : s.Layout) (hi : i < s.slots.length) (row : Row) (j : ℕ) :
    (s.setRow i row).cell j = if i = j then some row else s.cell j := by
  by_cases hj : j < s.slots.length
  · have hslot := getElem?_slots hj
    simp only [cell, setRow_slots, hslot]
    simp only [PageRowStore.setRow, loadPageRows_storePage]
    by_cases hij : i = j
    · subst hij
      simp [hs.offset_lt hi]
    · rw [if_neg hij]
      by_cases hpage : (s.slot i).pageId = (s.slot j).pageId
      · have hoff : (s.slot i).offset ≠ (s.slot j).offset :=
          fun hoff => hij (hs.place_inj hi hj hpage hoff)
        rw [if_pos hpage, getElem?_set_ne hoff, hpage]
      · rw [if_neg hpage]
  · have hij : i ≠ j := by
      rintro rfl
      exact hj hi
    rw [if_neg hij, cell_eq_none (not_lt.mp hj)]
    exact cell_eq_none (not_lt.mp hj)

theorem setRow (hs : s.Layout) (i : ℕ) (row : Row) : (s.setRow i row).Layout where
  rowsPerPage_pos := hs.rowsPerPage_pos
  slot_place := hs.slot_place
  page_length p o := by
    rw [setRow_slots, PageRowStore.setRow, loadPageRows_storePage]
    split_ifs with h
    · rw [length_set, h]
      exact hs.page_length p o
    · exact hs.page_length p o

/-- Changing the live marks and the free list does not move rows. -/
theorem of_places (hs : s.Layout) {s' : PageRowStore} (hrpp : s'.rowsPerPage = s.rowsPerPage)
    (hdir : s'.pageDirectory = s.pageDirectory)
    (hslots : s'.slots.map (fun slot => (slot.pageId, slot.offset)) =
      s.slots.map fun slot => (slot.pageId, slot.offset)) : s'.Layout := by
  have hload : ∀ p, s'.loadPageRows p = s.loadPageRows p := fun p => by
    rw [loadPageRows, hdir, loadPageRows]
  have hlen : s'.slots.length = s.slots.length := by
    simpa using congrArg List.length hslots
  refine ⟨hrpp ▸ hs.rowsPerPage_pos, fun i slot hslot => ?_, fun p o => ?_⟩
  · have hi : i < s.slots.length := by
      rw [← hlen]
      exact (List.getElem?_eq_some_iff.mp hslot).1
    have hplace := congrArg (fun l => l[i]?) hslots
    simp only [getElem?_map, hslot, getElem?_slots hi, Option.map_some, Option.some.injEq,
      Prod.mk.injEq] at hplace
    obtain ⟨hp, ho⟩ := hplace
    rw [hp, ho, hrpp]
    exact hs.slot_place i _ (getElem?_slots hi)
  · rw [hload, hrpp, hlen]
    exact hs.page_length p o

end Layout

theorem replaceSlotRow_of_lt (row : Row) (context : String)
    (h : (s.slot i).offset < (s.loadPageRows (s.slot i).pageId).length) :
    replaceSlotRow i row context s = .ok ⟨⟩ (s.setRow i row) := by
  simp [replaceSlotRow, not_le.mpr h, PageRowStore.setRow]

end Places

section Operations

variable {s : PageRowStore}

theorem Valid.cell_isSome (hs : s.Valid) (hi : i < s.slots.length) : (s.cell i).isSome := by
  simp [cell, getElem?_slots hi, hs.offset_lt hi]

theorem Valid.get_isSome_iff (hs : s.Valid) (i : ℕ) :
    (s.get i).isSome ↔ i < s.slots.length ∧ (s.slot i).live = true := by
  by_cases hi : i < s.slots.length
  · cases hl : (s.slot i).live <;> simp [get_eq, hl, hi, hs.cell_isSome hi]
  · have hcell := cell_eq_none (not_lt.mp hi)
    simp [get_eq, hcell, hi]

theorem Valid.get_eq_none_iff (hs : s.Valid) (i : ℕ) :
    s.get i = none ↔ s.slots.length ≤ i ∨ (s.slot i).live = false := by
  rw [← Option.not_isSome_iff_eq_none, hs.get_isSome_iff, not_and_or, not_lt, Bool.not_eq_true]

theorem Valid.mem_freeList_iff (hs : s.Valid) (i : ℕ) :
    i ∈ s.freeList ↔ i < s.slots.length ∧ s.get i = none := by
  rw [hs.mem_freeList, hs.get_eq_none_iff]
  constructor
  · rintro ⟨slot, hslot, hlive⟩
    exact ⟨(List.getElem?_eq_some_iff.mp hslot).1, Or.inr (by rw [slot_eq hslot, hlive])⟩
  · rintro ⟨hi, h⟩
    exact ⟨_, getElem?_slots hi, h.resolve_left (not_le.mpr hi)⟩

/-- The store after the operations that change slot `i`: the live mark, the row in its place, the
free list and the count. -/
def touched (s : PageRowStore) (i : ℕ) (live : Bool) (row : Row) (freeList : List ℕ)
    (liveCount : ℕ) : PageRowStore :=
  { (s.setLive i live).setRow i row with freeList := freeList, liveCount := liveCount }

theorem Layout.setLive (hs : s.Layout) (i : ℕ) (live : Bool) : (s.setLive i live).Layout := by
  refine hs.of_places rfl rfl ?_
  by_cases hi : i < s.slots.length
  · refine ext_getElem? fun j => ?_
    by_cases hij : i = j
    · subst hij
      simp only [getElem?_map, getElem?_slots hi]
      simp [PageRowStore.setLive, hi]
    · simp [PageRowStore.setLive, getElem?_set_ne hij]
  · rw [PageRowStore.setLive, set_eq_of_length_le (not_lt.mp hi)]

theorem slot_setLive (hi : i < s.slots.length) (live : Bool) (j : ℕ) :
    (s.setLive i live).slot j = if i = j then { s.slot i with live := live } else s.slot j := by
  by_cases hij : i = j
  · subst hij
    simp [PageRowStore.slot, PageRowStore.setLive, getD, hi]
  · simp [PageRowStore.slot, PageRowStore.setLive, getD, getElem?_set_ne hij, hij]

theorem cell_setLive (i : ℕ) (live : Bool) (j : ℕ) : (s.setLive i live).cell j = s.cell j := by
  by_cases hj : j < s.slots.length
  · by_cases hij : i = j
    · subst hij
      simp only [cell, getElem?_slots hj]
      simp [PageRowStore.setLive, hj, loadPageRows]
    · simp [cell, PageRowStore.setLive, getElem?_set_ne hij, loadPageRows]
  · have hj' : (s.setLive i live).slots.length ≤ j := by
      simpa [PageRowStore.setLive] using not_lt.mp hj
    rw [cell_eq_none hj', cell_eq_none (not_lt.mp hj)]

theorem cell_touched (hs : s.Layout) (hi : i < s.slots.length) (live : Bool) (row : Row)
    (fl : List ℕ) (n : ℕ) (j : ℕ) :
    (s.touched i live row fl n).cell j = if i = j then some row else s.cell j := by
  have hi' : i < (s.setLive i live).slots.length := by simpa [PageRowStore.setLive] using hi
  have h := (hs.setLive i live).cell_setRow hi' row j
  rw [cell_setLive] at h
  exact h

theorem slot_touched (hi : i < s.slots.length) (live : Bool) (row : Row) (fl : List ℕ) (n : ℕ)
    (j : ℕ) :
    (s.touched i live row fl n).slot j =
      if i = j then { s.slot i with live := live } else s.slot j :=
  slot_setLive hi live j

theorem get_touched (hs : s.Layout) (hi : i < s.slots.length) (live : Bool) (row : Row)
    (fl : List ℕ) (n : ℕ) :
    (s.touched i live row fl n).get = Function.update s.get i
      (if live then some row else none) := by
  funext j
  rw [get_eq, cell_touched hs hi, slot_touched hi, Function.update_apply]
  by_cases hij : i = j
  · subst hij
    simp
  · rw [if_neg hij, if_neg hij, if_neg (Ne.symm hij), get_eq]

theorem capacity_touched (i : ℕ) (live : Bool) (row : Row) (fl : List ℕ) (n : ℕ) :
    (s.touched i live row fl n).capacity = s.capacity := by
  simp [touched, capacity, PageRowStore.setLive]

section Valid

variable (hs : s.Valid)
include hs

/-- A change of one slot keeps the store valid when the free list is changed with it. -/
theorem Valid.touched (hi : i < s.slots.length) {live : Bool} {row : Row} {fl : List ℕ} {n : ℕ}
    (hrow : live = false → row = []) (hnodup : fl.Nodup)
    (hmem : ∀ j, j ∈ fl ↔ if i = j then live = false else j ∈ s.freeList) :
    (s.touched i live row fl n).Valid := by
  have hlen : (s.touched i live row fl n).slots.length = s.slots.length :=
    capacity_touched i live row fl n
  refine ⟨(hs.setLive i live).setRow i row |>.of_places rfl rfl rfl, ?_, hnodup, ?_⟩
  · intro j slot hslot hdead
    have hj : j < s.slots.length := hlen ▸ (List.getElem?_eq_some_iff.mp hslot).1
    rw [cell_touched hs.toLayout hi]
    have hslot' := (slot_eq hslot).symm.trans (slot_touched hi live row fl n j)
    by_cases hij : i = j
    · rw [if_pos hij] at hslot' ⊢
      rw [hslot'] at hdead
      rw [hrow hdead]
    · rw [if_neg hij] at hslot' ⊢
      exact hs.free_row j _ (getElem?_slots hj) (hslot' ▸ hdead)
  · intro j
    refine (hmem j).trans ?_
    by_cases hj : j < s.slots.length
    · have hslot := getElem?_slots (s := s.touched i live row fl n) (hlen.symm ▸ hj)
      simp only [hslot, Option.some.injEq, exists_eq_left', slot_touched hi]
      by_cases hij : i = j
      · simp [hij]
      · simp [hij, hs.mem_freeList, getElem?_slots hj]
    · have hij : i ≠ j := fun h => hj (h ▸ hi)
      have hnone : s.slots[j]? = none := getElem?_eq_none (not_lt.mp hj)
      have hnone' : (s.touched i live row fl n).slots[j]? = none :=
        getElem?_eq_none (by rw [hlen]; exact not_lt.mp hj)
      simp [hij, hs.mem_freeList, hnone, hnone']

theorem Valid.freeList_erase (i j : ℕ) :
    j ∈ s.freeList.erase i ↔ if i = j then True = False else j ∈ s.freeList := by
  rw [hs.freeList_nodup.mem_erase_iff]
  by_cases hij : i = j
  · simp [hij]
  · simp [hij, Ne.symm hij]

theorem replaceSlotRow_setLive (hi : i < s.slots.length) (live : Bool) (row : Row)
    (context : String) (fl : List ℕ) :
    replaceSlotRow i row context ({ s with freeList := fl }.setLive i live) =
      .ok ⟨⟩ (({ s with freeList := fl }.setLive i live).setRow i row) := by
  refine replaceSlotRow_of_lt row context ?_
  have hfl : ({ s with freeList := fl } : PageRowStore).Layout := hs.toLayout.of_places rfl rfl rfl
  refine (hfl.setLive i live).offset_lt ?_
  simpa [PageRowStore.setLive] using hi

theorem erase_eq_false (h : s.get i = none) : erase i s = .ok false s := by
  have h' := (hs.get_eq_none_iff i).mp h
  simp only [erase, get_bind, ite_run]
  rw [if_pos (by simpa using h')]
  rfl

theorem erase_ok {row : Row} (h : s.get i = some row) :
    erase i s = .ok true (s.touched i false [] (s.freeList ++ [i]) (s.liveCount - 1)) := by
  obtain ⟨hi, hlive⟩ := (hs.get_isSome_iff i).mp (by simp [h])
  simp only [erase, get_bind, ite_run]
  rw [if_neg (by simp [hlive, hi]), set_bind, bind_of_ok (replaceSlotRow_setLive hs hi _ _ _ _)]
  rfl

theorem Valid.erase {row : Row} (h : s.get i = some row) (n : ℕ) :
    (s.touched i false [] (s.freeList ++ [i]) n).Valid := by
  obtain ⟨hi, -⟩ := (hs.get_isSome_iff i).mp (by simp [h])
  have hnot : i ∉ s.freeList := by simp [hs.mem_freeList_iff, h]
  refine hs.touched hi (fun _ => rfl) ?_ fun j => ?_
  · rw [nodup_append]
    refine ⟨hs.freeList_nodup, nodup_singleton i, fun a ha b hb => ?_⟩
    rw [mem_singleton.mp hb]
    exact fun hai => hnot (hai ▸ ha)
  · by_cases hij : i = j
    · simp [hij]
    · simp [hij, Ne.symm hij]

theorem update_eq_false (row : Row) (h : s.get i = none) : update i row s = .ok false s := by
  have h' := (hs.get_eq_none_iff i).mp h
  simp only [update, get_bind, ite_run]
  rw [if_pos (by simpa using h')]
  rfl

theorem update_ok {old : Row} (row : Row) (h : s.get i = some old) :
    update i row s = .ok true (s.setRow i row) := by
  obtain ⟨hi, hlive⟩ := (hs.get_isSome_iff i).mp (by simp [h])
  simp only [update, get_bind, ite_run]
  rw [if_neg (by simp [hlive, hi]), bind_of_ok (replaceSlotRow_of_lt row _ (hs.offset_lt hi))]
  rfl

theorem get_setRow {old : Row} (row : Row) (h : s.get i = some old) :
    (s.setRow i row).get = Function.update s.get i (some row) := by
  obtain ⟨hi, hlive⟩ := (hs.get_isSome_iff i).mp (by simp [h])
  funext j
  have hslot : (s.setRow i row).slot j = s.slot j := rfl
  rw [get_eq, hs.cell_setRow hi, hslot, Function.update_apply]
  by_cases hij : i = j
  · subst hij
    simp [hlive]
  · rw [if_neg hij, if_neg (Ne.symm hij), get_eq]

theorem Valid.setRow {old : Row} (row : Row) (h : s.get i = some old) : (s.setRow i row).Valid := by
  obtain ⟨hi, hlive⟩ := (hs.get_isSome_iff i).mp (by simp [h])
  refine ⟨hs.toLayout.setRow i row, fun j slot hslot hdead => ?_, hs.freeList_nodup,
    hs.mem_freeList⟩
  have hij : i ≠ j := by
    rintro rfl
    rw [← slot_eq (s := s) hslot, hlive] at hdead
    cases hdead
  rw [hs.cell_setRow hi, if_neg hij]
  exact hs.free_row j slot hslot hdead

theorem revive_eq_false (row : Row) (h : s.slots.length ≤ i ∨ (s.get i).isSome) :
    revive i row s = .ok false s := by
  simp only [revive, get_bind, ite_run]
  rw [if_pos]
  · rfl
  · exact h.imp_right fun h => ((hs.get_isSome_iff i).mp h).2

theorem revive_ok (row : Row) (hi : i < s.slots.length) (h : s.get i = none) :
    revive i row s = .ok true (s.touched i true row (s.freeList.erase i) (s.liveCount + 1)) := by
  have hdead : (s.slot i).live = false := ((hs.get_eq_none_iff i).mp h).resolve_left (not_le.mpr hi)
  have hmem : i ∈ s.freeList := (hs.mem_freeList_iff i).mpr ⟨hi, h⟩
  simp only [revive, get_bind, ite_run]
  rw [if_neg (by simp [hdead, hi]), if_neg (not_not.mpr hmem), set_bind,
    bind_of_ok (replaceSlotRow_setLive hs hi _ _ _ _)]
  rfl

theorem Valid.revive (row : Row) (hi : i < s.slots.length) (n : ℕ) :
    (s.touched i true row (s.freeList.erase i) n).Valid := by
  refine hs.touched hi (fun h => absurd h (by simp)) (hs.freeList_nodup.erase i) fun j => ?_
  simpa using hs.freeList_erase i j

end Valid

/-- The store with a new slot at its end. -/
def extended (s : PageRowStore) (row : Row) : PageRowStore :=
  let pageId := s.slots.length / s.rowsPerPage + 1
  let pageRows := s.loadPageRows pageId ++ [row]
  let slot : Slot := { pageId := pageId, offset := pageRows.length - 1, live := true }
  { s.storePage pageId pageRows with slots := s.slots ++ [slot], liveCount := s.liveCount + 1 }

theorem append_new (row : Row) (h : s.freeList = []) :
    append row s = .ok s.capacity (s.extended row) := by
  have hlast : s.freeList.getLast? = none := by simp [h]
  simp only [append, get_bind, hlast, set_bind]
  rfl

theorem Layout.length_lastPage (hs : s.Layout) :
    (s.loadPageRows (s.slots.length / s.rowsPerPage + 1)).length =
      s.slots.length % s.rowsPerPage := by
  have hdiv := Nat.div_add_mod' s.slots.length s.rowsPerPage
  have hmod := Nat.mod_lt s.slots.length hs.rowsPerPage_pos
  have hlen := fun o => hs.page_length (s.slots.length / s.rowsPerPage) o
  refine le_antisymm (not_lt.mp fun h => ?_) (not_lt.mp fun h => ?_)
  · have := (hlen _).mp h
    omega
  · exact absurd ((hlen _).mpr ⟨lt_trans h hmod, by omega⟩) (lt_irrefl _)

theorem slot_extended (row : Row) (j : ℕ) (hj : j < s.slots.length) :
    (s.extended row).slot j = s.slot j := by
  simp [PageRowStore.slot, extended, getD, getElem?_append_left hj]

theorem cell_extended (hs : s.Layout) (row : Row) (j : ℕ) :
    (s.extended row).cell j = if j = s.slots.length then some row else s.cell j := by
  rcases lt_trichotomy j s.slots.length with hj | rfl | hj
  · have hslot : (s.extended row).slots[j]? = some (s.slot j) := by
      simp only [extended, getElem?_append_left hj, getElem?_slots hj]
    have hoff := hs.offset_lt hj
    rw [if_neg hj.ne, cell, cell, hslot, getElem?_slots hj]
    by_cases hpage : s.slots.length / s.rowsPerPage + 1 = (s.slot j).pageId
    · have hload : (s.extended row).loadPageRows (s.slot j).pageId =
          s.loadPageRows (s.slot j).pageId ++ [row] := by
        rw [← hpage]
        simp [extended, loadPageRows, PageRowStore.storePage]
      simp only [hload, getElem?_append_left hoff]
    · have hload : (s.extended row).loadPageRows (s.slot j).pageId =
          s.loadPageRows (s.slot j).pageId := by
        simp [extended, loadPageRows, PageRowStore.storePage, Std.ExtTreeMap.getElem?_insert, hpage]
      simp only [hload]
  · simp [cell, extended, loadPageRows, PageRowStore.storePage]
  · rw [if_neg hj.ne', cell_eq_none hj.le]
    refine cell_eq_none ?_
    rw [extended, length_append, length_singleton]
    exact hj

theorem get_extended (hs : s.Layout) (row : Row) :
    (s.extended row).get = Function.update s.get s.capacity (some row) := by
  funext j
  rw [get_eq, cell_extended hs, Function.update_apply, capacity]
  rcases lt_trichotomy j s.slots.length with hj | rfl | hj
  · rw [if_neg hj.ne, if_neg hj.ne, slot_extended row j hj, get_eq]
  · simp [PageRowStore.slot, extended, getD]
  · rw [if_neg hj.ne', if_neg hj.ne', get_eq, cell_eq_none hj.le]
    simp

theorem Valid.extended (hs : s.Valid) (row : Row) : (s.extended row).Valid := by
  have hlen : (s.extended row).slots.length = s.slots.length + 1 := by
    simp [PageRowStore.extended]
  have hlast : (s.extended row).slots[s.slots.length]? = some
      { pageId := s.slots.length / s.rowsPerPage + 1
        offset := s.slots.length % s.rowsPerPage
        live := true } := by
    simp [PageRowStore.extended, hs.length_lastPage]
  have hold : ∀ {j : ℕ} {slot : Slot}, (s.extended row).slots[j]? = some slot →
      j ≠ s.slots.length → s.slots[j]? = some slot := by
    intro j slot hslot hj
    have hlt : j < s.slots.length + 1 := hlen ▸ (List.getElem?_eq_some_iff.mp hslot).1
    rwa [PageRowStore.extended, List.getElem?_append_left (by omega)] at hslot
  refine ⟨⟨hs.rowsPerPage_pos, ?_, ?_⟩, ?_, hs.freeList_nodup, ?_⟩
  · intro j slot hslot
    by_cases hj : j = s.slots.length
    · subst hj
      rw [hlast, Option.some.injEq] at hslot
      subst hslot
      exact ⟨rfl, rfl⟩
    · exact hs.slot_place j slot (hold hslot hj)
  · intro p o
    rw [hlen]
    have hrpp : (s.extended row).rowsPerPage = s.rowsPerPage := rfl
    have hload : (s.extended row).loadPageRows (p + 1) =
        if s.slots.length / s.rowsPerPage = p then s.loadPageRows (p + 1) ++ [row]
        else s.loadPageRows (p + 1) := by
      by_cases h : s.slots.length / s.rowsPerPage = p <;>
        simp [PageRowStore.extended, loadPageRows, PageRowStore.storePage,
          Std.ExtTreeMap.getElem?_insert, h]
    rw [hload, hrpp]
    have hdiv := Nat.div_add_mod' s.slots.length s.rowsPerPage
    have hmod := Nat.mod_lt s.slots.length hs.rowsPerPage_pos
    split_ifs with h
    · subst h
      rw [length_append, hs.length_lastPage, length_singleton]
      omega
    · rw [hs.page_length]
      refine and_congr_right fun ho => ?_
      have hne : p * s.rowsPerPage + o ≠ s.slots.length := by
        intro heq
        apply h
        rw [← heq, Nat.add_comm, Nat.add_mul_div_right _ _ hs.rowsPerPage_pos, Nat.div_eq_of_lt ho,
          Nat.zero_add]
      omega
  · intro j slot hslot hdead
    have hj : j ≠ s.slots.length := by
      rintro rfl
      rw [hlast, Option.some.injEq] at hslot
      subst hslot
      cases hdead
    rw [cell_extended hs.toLayout, if_neg hj]
    exact hs.free_row j slot (hold hslot hj) hdead
  · intro j
    have hfl : (s.extended row).freeList = s.freeList := rfl
    rw [hfl, hs.mem_freeList]
    constructor
    · rintro ⟨slot, hslot, hdead⟩
      refine ⟨slot, ?_, hdead⟩
      rw [PageRowStore.extended, List.getElem?_append_left (List.getElem?_eq_some_iff.mp hslot).1]
      exact hslot
    · rintro ⟨slot, hslot, hdead⟩
      refine ⟨slot, hold hslot ?_, hdead⟩
      rintro rfl
      rw [hlast, Option.some.injEq] at hslot
      subst hslot
      cases hdead

theorem append_reuse (hs : s.Valid) (row : Row) (h : s.freeList.getLast? = some i) :
    append row s = .ok i (s.touched i true row s.freeList.dropLast (s.liveCount + 1)) := by
  have hmem : i ∈ s.freeList := mem_of_getLast? h
  obtain ⟨hi, -⟩ := (hs.mem_freeList_iff i).mp hmem
  simp only [append, get_bind, h, set_bind]
  rw [bind_of_ok (replaceSlotRow_setLive hs hi _ _ _ _)]
  rfl

/-- The row id the next `append` uses: the last one of the free list, or a new one. -/
def nextRowId (s : PageRowStore) : ℕ := s.freeList.getLast?.getD s.capacity

/-- The store after an `append`. -/
def appended (s : PageRowStore) (row : Row) : PageRowStore :=
  match s.freeList.getLast? with
  | some i => s.touched i true row s.freeList.dropLast (s.liveCount + 1)
  | none => s.extended row

theorem append_ok (hs : s.Valid) (row : Row) :
    append row s = .ok s.nextRowId (s.appended row) := by
  cases h : s.freeList.getLast? with
  | none =>
    rw [append_new row (getLast?_eq_none_iff.mp h)]
    simp [nextRowId, appended, h]
  | some i =>
    rw [append_reuse hs row h]
    simp [nextRowId, appended, h]

theorem Valid.get_nextRowId (hs : s.Valid) : s.get s.nextRowId = none := by
  cases h : s.freeList.getLast? with
  | none =>
    rw [nextRowId, h, Option.getD_none, hs.get_eq_none_iff]
    exact Or.inl le_rfl
  | some i =>
    rw [nextRowId, h, Option.getD_some]
    exact ((hs.mem_freeList_iff i).mp (mem_of_getLast? h)).2

theorem Valid.get_appended (hs : s.Valid) (row : Row) :
    (s.appended row).get = Function.update s.get s.nextRowId (some row) := by
  cases h : s.freeList.getLast? with
  | none => simp only [appended, nextRowId, h, Option.getD_none, get_extended hs.toLayout]
  | some i =>
    have hi := ((hs.mem_freeList_iff i).mp (mem_of_getLast? h)).1
    simp only [appended, nextRowId, h, Option.getD_some, get_touched hs.toLayout hi, if_true]

theorem Valid.appended (hs : s.Valid) (row : Row) : (s.appended row).Valid := by
  cases h : s.freeList.getLast? with
  | none =>
    rw [PageRowStore.appended, h]
    exact hs.extended row
  | some i =>
    have hi := ((hs.mem_freeList_iff i).mp (mem_of_getLast? h)).1
    have hsplit := dropLast_append_getLast? i h
    have hnodup := hs.freeList_nodup
    rw [← hsplit, nodup_append] at hnodup
    rw [PageRowStore.appended, h]
    refine hs.touched hi (fun h => absurd h (by simp)) hnodup.1 fun j => ?_
    have hmem : j ∈ s.freeList ↔ j ∈ s.freeList.dropLast ∨ j = i := by
      conv_lhs => rw [← hsplit]
      simp
    by_cases hij : i = j
    · subst hij
      have : i ∉ s.freeList.dropLast := fun hmem => hnodup.2.2 i hmem i (by simp) rfl
      simp [this]
    · simp [hij, hmem, Ne.symm hij]

theorem capacity_le_appended (s : PageRowStore) (row : Row) :
    s.capacity ≤ (s.appended row).capacity := by
  cases h : s.freeList.getLast? with
  | none => simp [appended, h, extended, capacity]
  | some i => simp [appended, h, capacity_touched]

theorem valid_empty {n : ℕ} (hn : 0 < n) : ({ rowsPerPage := n } : PageRowStore).Valid := by
  refine ⟨⟨hn, ?_, ?_⟩, ?_, nodup_nil, ?_⟩ <;> simp [loadPageRows]

theorem nodup_liveEntries (s : PageRowStore) : (s.liveEntries.map Prod.fst).Nodup := by
  rw [liveEntries, map_filterMap]
  refine List.Nodup.filterMap ?_ nodup_range
  intro i j k hi hj
  simp only [Option.mem_def, Option.map_eq_some_iff] at hi hj
  obtain ⟨_, ⟨_, -, rfl⟩, rfl⟩ := hi
  obtain ⟨_, ⟨_, -, rfl⟩, heq⟩ := hj
  exact heq.symm

theorem mem_liveEntries (hs : s.Valid) (i : ℕ) (row : Row) :
    (i, row) ∈ s.liveEntries ↔ s.get i = some row := by
  simp only [liveEntries, mem_filterMap, mem_range, Option.map_eq_some_iff, Prod.mk.injEq]
  constructor
  · rintro ⟨j, -, r, hr, rfl, rfl⟩
    exact hr
  · intro h
    exact ⟨i, ((hs.get_isSome_iff i).mp (by simp [h])).1, row, h, rfl, rfl⟩

end Operations

end PageRowStore

end VertexDB
