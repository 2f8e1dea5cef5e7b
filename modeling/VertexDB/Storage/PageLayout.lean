import VertexDB.Storage.PageCodec
import VertexDB.Storage.PageImages
import VertexDB.Storage.SparseLayout

/-!
# Loading the pages of a table

A page store read from a file: `validatePageStoreLayout` of `src/storage/row_store_shared.cpp`
checks the numbers and the pages a file claims, and `replaceFromPages` of
`src/storage/page_row_store_io.cpp` then fills the slots from them. The numbers are 64-bit words,
and the sum in the expected number of pages wraps around, so a layout with a huge `rowsPerPage`
passes the check with no page at all.

A write to a slot beyond the end is undefined in the source. Here it is `none`.
-/

namespace VertexDB

open List PageRowStore

namespace PageLayout

/-- `PageStoreSnapshot`, as it is read from a file. -/
structure PageStoreSnapshot where
  rowsPerPage : UInt64
  capacity : UInt64
  freeList : List UInt64
  pages : List (UInt64 × List UInt8)
  deriving DecidableEq

section Check

variable (s : PageStoreSnapshot)

/-- `expectedPageCount`. -/
def expectedPageCount : UInt64 :=
  if s.capacity = 0 then 0 else (s.capacity + s.rowsPerPage - 1) / s.rowsPerPage

/-- `firstRowId`. -/
def firstRowId (pageId : UInt64) : UInt64 := (pageId - 1) * s.rowsPerPage

/-- `expectedSlots`: `std::min` of the page size and the slots left. -/
def expectedSlots (pageId : UInt64) : UInt64 :=
  if s.capacity - firstRowId s pageId < s.rowsPerPage then s.capacity - firstRowId s pageId
  else s.rowsPerPage

/-- The row id of a place of a page. -/
def rowIdAt (pageId : UInt64) (offset : ℕ) : UInt64 := firstRowId s pageId + UInt64.ofNat offset

/-- The inner loop of `validatePageStoreLayout`. -/
def checkSlots (pageId : UInt64) : ℕ → List Row → Except Error Unit
  | _, [] => pure ()
  | offset, row :: rows =>
    if rowIdAt s pageId offset ∈ s.freeList then
      if row.isEmpty then checkSlots pageId (offset + 1) rows
      else
        throw (.invalidArgument "page store snapshot free slot must hold an empty tombstone row")
    else if row.isEmpty then
      throw (.invalidArgument "page store snapshot live slot cannot be empty")
    else checkSlots pageId (offset + 1) rows

/-- The loop of `validatePageStoreLayout` over the pages. -/
def checkPages : ℕ → List UInt64 → List (UInt64 × List UInt8) → Except Error Unit
  | _, _, [] => pure ()
  | index, seen, page :: pages =>
    if page.1 ≠ UInt64.ofNat (index + 1) then
      throw (.invalidArgument "page store snapshot pages must be contiguous from 1")
    else if page.1 ∈ seen then
      throw (.invalidArgument "page store snapshot has duplicate page id")
    else do
      let rows ← decodePage page.2
      if rows.length ≠ (expectedSlots s page.1).toNat then
        throw (.invalidArgument "page store snapshot page slot count does not match layout")
      else
        checkSlots s page.1 0 rows
        checkPages (index + 1) (page.1 :: seen) pages

/-- `validatePageStoreLayout`. -/
def validatePageStoreLayout : Except Error Unit :=
  if s.rowsPerPage = 0 then
    throw (.invalidArgument "page store snapshot rowsPerPage must be positive")
  else if s.capacity.toNat < s.freeList.length then
    throw (.invalidArgument "page store snapshot free list exceeds capacity")
  else do
    let _ ← checkRowIds s.capacity.toNat "page store snapshot free-list row id exceeds capacity"
      "page store snapshot free list has duplicate row id" (s.freeList.map UInt64.toNat) []
    if s.pages.length ≠ (expectedPageCount s).toNat then
      throw (.invalidArgument "page store snapshot page count does not match capacity")
    else checkPages s 0 [] s.pages

/-- The writes `slots_[rowId] = slot`, in order. -/
def assignSlots : List (ℕ × Slot) → List Slot → Option (List Slot)
  | [], slots => some slots
  | (rowId, slot) :: rest, slots =>
    if rowId < slots.length then assignSlots rest (slots.set rowId slot) else none

/-- The slot that a place of a page is written to, and what is written. -/
def slotAt (pageId : UInt64) (offset : ℕ) : ℕ × Slot :=
  ((rowIdAt s pageId offset).toNat,
    { pageId := pageId.toNat, offset := offset, live := rowIdAt s pageId offset ∉ s.freeList })

/-- The slot of a row id: its place, live unless it is free. -/
def slotOf (rowId : ℕ) : Slot where
  pageId := rowId / s.rowsPerPage.toNat + 1
  offset := rowId % s.rowsPerPage.toNat
  live := UInt64.ofNat rowId ∉ s.freeList

/-- The writes of `PageRowStore::replaceFromPages`, page by page. -/
def pageSlots (page : UInt64 × List Row) : List (ℕ × Slot) :=
  (List.range page.2.length).map (slotAt s page.1)

/-- A page of the snapshot with its rows. -/
def decodedPage (page : UInt64 × List UInt8) : Except Error (UInt64 × List Row) := do
  return (page.1, ← decodePage page.2)

/-- The rows of a page, none if it does not decode. -/
def decodedRows (page : UInt64 × List UInt8) : List Row :=
  (decodePage page.2).toOption.getD []

/-- The store `PageRowStore::replaceFromPages` leaves, with the slots it has filled. -/
def filledStore (pages : List (UInt64 × List Row)) (slots : List Slot) : PageRowStore where
  rowsPerPage := s.rowsPerPage.toNat
  slots := slots
  freeList := s.freeList.map UInt64.toNat
  pageDirectory := .ofList (pages.map fun page => (page.1.toNat, page.2))
  liveCount := s.capacity.toNat - s.freeList.length

/-- `PageRowStore::replaceFromPages`; `none` when a slot beyond the capacity is written. -/
def replaceFromPages : Except Error (Option PageRowStore) := do
  validatePageStoreLayout s
  let pages ← s.pages.mapM decodedPage
  return (assignSlots (pages.flatMap (pageSlots s))
    (List.replicate s.capacity.toNat ({} : Slot))).map (filledStore s pages)

end Check

/-- Every row id below the capacity has one place, at its remainder in one page, and is free exactly
when the place holds the empty row; the writes to the slots stay within them and reach every one. -/
structure Covered (s : PageStoreSnapshot) : Prop where
  place : ∀ rowId < s.capacity.toNat, ∃ page ∈ s.pages, ∃ rows row,
    decodePage page.2 = .ok rows ∧ rows[rowId % s.rowsPerPage.toNat]? = some row ∧
      (rowIdAt s page.1 (rowId % s.rowsPerPage.toNat)).toNat = rowId ∧
      (UInt64.ofNat rowId ∈ s.freeList ↔ row = []) ∧
      ∀ page' ∈ s.pages, ∀ rows' offset, decodePage page'.2 = .ok rows' →
        offset < rows'.length → (rowIdAt s page'.1 offset).toNat = rowId →
          page' = page ∧ offset = rowId % s.rowsPerPage.toNat
  slots : ∃ store, replaceFromPages s = .ok (some store) ∧
    store.slots.length = s.capacity.toNat ∧
      ∀ rowId < s.capacity.toNat, store.slots[rowId]? = some (slotOf s rowId)

section Accepted

variable {s : PageStoreSnapshot}

theorem checkSlots_eq_ok {pageId : UInt64} {offset : ℕ} {rows : List Row}
    (h : checkSlots s pageId offset rows = .ok ()) {i : ℕ} {row : Row}
    (hrow : rows[i]? = some row) :
    rowIdAt s pageId (offset + i) ∈ s.freeList ↔ row = [] := by
  induction rows generalizing offset i with
  | nil => simp at hrow
  | cons first rows ih =>
    rw [checkSlots] at h
    cases i with
    | zero =>
      obtain rfl : first = row := by simpa using hrow
      split_ifs at h with hfree hempty hempty
      · exact iff_of_true hfree (isEmpty_iff.mp hempty)
      · exact iff_of_false hfree fun hnil => hempty (isEmpty_iff.mpr hnil)
    | succ i =>
      have hrest : checkSlots s pageId (offset + 1) rows = .ok () := by
        split_ifs at h
        · exact h
        · exact h
      rw [Nat.add_comm i 1, ← Nat.add_assoc]
      exact ih hrest (by simpa using hrow)

/-- What the check has found out about the page at a position. -/
structure Checked (s : PageStoreSnapshot) (index : ℕ) (page : UInt64 × List UInt8)
    (rows : List Row) : Prop where
  pageId : page.1 = UInt64.ofNat (index + 1)
  decoded : decodePage page.2 = .ok rows
  length : rows.length = (expectedSlots s page.1).toNat
  free : ∀ offset row, rows[offset]? = some row → (rowIdAt s page.1 offset ∈ s.freeList ↔ row = [])

theorem checkPages_eq_ok {index : ℕ} {seen : List UInt64} {pages : List (UInt64 × List UInt8)}
    (h : checkPages s index seen pages = .ok ()) {i : ℕ} {page : UInt64 × List UInt8}
    (hpage : pages[i]? = some page) : ∃ rows, Checked s (index + i) page rows := by
  induction pages generalizing index seen i with
  | nil => simp at hpage
  | cons first pages ih =>
    rw [checkPages] at h
    split_ifs at h with hid hseen
    cases hdecoded : decodePage first.2 with
    | error e => rw [hdecoded] at h; cases h
    | ok rows =>
      rw [hdecoded] at h
      change (if rows.length ≠ (expectedSlots s first.1).toNat then _ else _) = _ at h
      split_ifs at h with hlen
      cases hslots : checkSlots s first.1 0 rows with
      | error e => rw [hslots] at h; cases h
      | ok _ =>
        rw [hslots] at h
        cases i with
        | zero =>
          obtain rfl : first = page := by simpa using hpage
          refine ⟨rows, not_not.mp hid, hdecoded, not_not.mp hlen, fun offset row hrow => ?_⟩
          have hfree := checkSlots_eq_ok hslots hrow
          rwa [Nat.zero_add] at hfree
        | succ i =>
          rw [Nat.add_comm i 1, ← Nat.add_assoc]
          exact ih h (by simpa using hpage)

/-- What an accepted snapshot is. -/
structure Accepted (s : PageStoreSnapshot) : Prop where
  rowsPerPage_pos : 0 < s.rowsPerPage.toNat
  free_lt : ∀ rowId ∈ s.freeList, rowId.toNat < s.capacity.toNat
  pages_length : s.pages.length = (expectedPageCount s).toNat
  checked : ∀ index page, s.pages[index]? = some page → ∃ rows, Checked s index page rows

theorem accepted_of_validate (h : validatePageStoreLayout s = .ok ()) : Accepted s := by
  unfold validatePageStoreLayout at h
  split_ifs at h with hzero hmany hlen <;>
    cases hfree : checkRowIds s.capacity.toNat
      "page store snapshot free-list row id exceeds capacity"
      "page store snapshot free list has duplicate row id" (s.freeList.map UInt64.toNat) []
  · rw [hfree] at h
    cases h
  · rw [hfree] at h
    cases h
  · rw [hfree] at h
    cases h
  · rw [hfree] at h
    refine ⟨?_, fun rowId hmem => ?_, not_not.mp hlen, fun index page hpage => ?_⟩
    · exact Nat.pos_of_ne_zero fun h0 => hzero (UInt64.toNat_inj.mp h0)
    · exact (checkRowIds_ok hfree).2.1 rowId.toNat (mem_map_of_mem hmem)
    · obtain ⟨rows, hrows⟩ := checkPages_eq_ok h hpage
      rw [Nat.zero_add] at hrows
      exact ⟨rows, hrows⟩

end Accepted

section Arithmetic

variable {s : PageStoreSnapshot}

variable (hpos : 0 < s.rowsPerPage.toNat)
include hpos

/-- The sum of the page count as the machine computes it. -/
theorem toNat_pageSum :
    (s.capacity + s.rowsPerPage - 1).toNat =
      (s.capacity.toNat + s.rowsPerPage.toNat - 1) % 2 ^ 64 := by
  rw [UInt64.toNat_sub, UInt64.toNat_add, UInt64.toNat_one]
  omega

theorem expectedPageCount_of_le (hfit : s.capacity.toNat + s.rowsPerPage.toNat ≤ 2 ^ 64) :
    (expectedPageCount s).toNat =
      (s.capacity.toNat + s.rowsPerPage.toNat - 1) / s.rowsPerPage.toNat := by
  unfold expectedPageCount
  split_ifs with hzero
  · rw [hzero, UInt64.toNat_zero, Nat.zero_add]
    exact (Nat.div_eq_of_lt (by omega)).symm
  · rw [UInt64.toNat_div, toNat_pageSum hpos, Nat.mod_eq_of_lt (by omega)]

/-- A sum that wraps around is smaller than a page. -/
theorem expectedPageCount_of_lt (hwrap : 2 ^ 64 < s.capacity.toNat + s.rowsPerPage.toNat) :
    (expectedPageCount s).toNat = 0 := by
  have hcap := s.capacity.toNat_lt
  unfold expectedPageCount
  split_ifs
  · rfl
  · rw [UInt64.toNat_div, toNat_pageSum hpos]
    exact Nat.div_eq_of_lt (by omega)

theorem toNat_firstRowId {index : ℕ} (h : index * s.rowsPerPage.toNat < s.capacity.toNat) :
    (firstRowId s (UInt64.ofNat (index + 1))).toNat = index * s.rowsPerPage.toNat := by
  have hcap := s.capacity.toNat_lt
  have hidx : index ≤ index * s.rowsPerPage.toNat := Nat.le_mul_of_pos_right index hpos
  have hpage : (UInt64.ofNat (index + 1) - 1).toNat = index := by
    rw [UInt64.toNat_sub, UInt64.toNat_ofNat', UInt64.toNat_one]
    omega
  rw [firstRowId, UInt64.toNat_mul, hpage, Nat.mod_eq_of_lt (by omega)]

theorem toNat_expectedSlots {index : ℕ} (h : index * s.rowsPerPage.toNat < s.capacity.toNat) :
    (expectedSlots s (UInt64.ofNat (index + 1))).toNat =
      min s.rowsPerPage.toNat (s.capacity.toNat - index * s.rowsPerPage.toNat) := by
  have hfirst := toNat_firstRowId hpos h
  have hcap := s.capacity.toNat_lt
  have hleft : (s.capacity - firstRowId s (UInt64.ofNat (index + 1))).toNat =
      s.capacity.toNat - index * s.rowsPerPage.toNat := by
    rw [UInt64.toNat_sub, hfirst]
    omega
  unfold expectedSlots
  split_ifs with hlt
  · rw [UInt64.lt_iff_toNat_lt, hleft] at hlt
    rw [hleft, Nat.min_eq_right hlt.le]
  · rw [UInt64.lt_iff_toNat_lt, hleft] at hlt
    rw [Nat.min_eq_left (not_lt.mp hlt)]

theorem toNat_rowIdAt {index offset : ℕ}
    (h : index * s.rowsPerPage.toNat + offset < s.capacity.toNat) :
    (rowIdAt s (UInt64.ofNat (index + 1)) offset).toNat = index * s.rowsPerPage.toNat + offset := by
  have hcap := s.capacity.toNat_lt
  rw [rowIdAt, UInt64.toNat_add, toNat_firstRowId hpos (by omega), UInt64.toNat_ofNat']
  omega

end Arithmetic

section Covering

variable {s : PageStoreSnapshot} (h : Accepted s)
  (hfit : s.capacity.toNat + s.rowsPerPage.toNat ≤ 2 ^ 64)
include h hfit

/-- There is a page at a position exactly when its first row id is below the capacity. -/
theorem Accepted.lt_pages_iff (index : ℕ) :
    index < s.pages.length ↔ index * s.rowsPerPage.toNat < s.capacity.toNat := by
  have hpos := h.rowsPerPage_pos
  rw [h.pages_length, expectedPageCount_of_le hpos hfit, Nat.lt_iff_add_one_le,
    Nat.le_div_iff_mul_le hpos, Nat.add_mul, Nat.one_mul]
  omega

variable {index offset : ℕ} {page : UInt64 × List UInt8} {rows : List Row}
  (hpage : s.pages[index]? = some page) (hchecked : Checked s index page rows)
include hpage hchecked

/-- The places of a page: those of its row ids that are below the capacity. -/
theorem Accepted.lt_rows_iff :
    offset < rows.length ↔ offset < s.rowsPerPage.toNat ∧
      index * s.rowsPerPage.toNat + offset < s.capacity.toNat := by
  have hidx := (h.lt_pages_iff hfit index).mp (List.getElem?_eq_some_iff.mp hpage).1
  rw [hchecked.length, hchecked.pageId, toNat_expectedSlots h.rowsPerPage_pos hidx]
  omega

theorem Accepted.toNat_rowIdAt (hoffset : offset < rows.length) :
    (rowIdAt s page.1 offset).toNat = index * s.rowsPerPage.toNat + offset := by
  obtain ⟨-, hlt⟩ := (h.lt_rows_iff hfit hpage hchecked).mp hoffset
  rw [hchecked.pageId]
  exact PageLayout.toNat_rowIdAt h.rowsPerPage_pos hlt

theorem Accepted.place_eq {rowId : ℕ} (hoffset : offset < rows.length)
    (hrowId : (rowIdAt s page.1 offset).toNat = rowId) :
    index = rowId / s.rowsPerPage.toNat ∧ offset = rowId % s.rowsPerPage.toNat := by
  obtain ⟨hlt, -⟩ := (h.lt_rows_iff hfit hpage hchecked).mp hoffset
  rw [h.toNat_rowIdAt hfit hpage hchecked hoffset] at hrowId
  subst hrowId
  rw [Nat.add_comm, Nat.add_mul_div_right _ _ h.rowsPerPage_pos, Nat.div_eq_of_lt hlt,
    Nat.add_mul_mod_self_right, Nat.mod_eq_of_lt hlt, Nat.zero_add]
  exact ⟨rfl, rfl⟩

theorem Accepted.slotAt_eq (hoffset : offset < rows.length) :
    slotAt s page.1 offset =
      ((rowIdAt s page.1 offset).toNat, slotOf s (rowIdAt s page.1 offset).toNat) := by
  obtain ⟨hidx, hoff⟩ := h.place_eq hfit hpage hchecked hoffset rfl
  have hpageId : page.1.toNat = index + 1 := by
    have hlt := (h.lt_pages_iff hfit index).mp (List.getElem?_eq_some_iff.mp hpage).1
    have hle : index ≤ index * s.rowsPerPage.toNat :=
      Nat.le_mul_of_pos_right index h.rowsPerPage_pos
    have hcap := s.capacity.toNat_lt
    rw [hchecked.pageId, UInt64.toNat_ofNat', Nat.mod_eq_of_lt (by omega)]
  rw [slotAt, slotOf, ← hidx, ← hoff, hpageId, UInt64.ofNat_toNat]

end Covering

section Slots

/-- Writes that give each slot the value of its row id. -/
theorem assignSlots_eq {places : List (ℕ × Slot)} {f : ℕ → Slot} (slots : List Slot)
    (h : ∀ place ∈ places, place.1 < slots.length ∧ place.2 = f place.1) :
    ∃ slots', assignSlots places slots = some slots' ∧ slots'.length = slots.length ∧
      ∀ i, slots'[i]? = if ∃ place ∈ places, place.1 = i then some (f i) else slots[i]? := by
  induction places generalizing slots with
  | nil => exact ⟨slots, rfl, rfl, by simp⟩
  | cons place places ih =>
    obtain ⟨hlt, hslot⟩ := h place mem_cons_self
    obtain ⟨slots', hassign, hlen, hget⟩ := ih (slots.set place.1 place.2)
      fun p hp => by
        rw [length_set]
        exact h p (mem_cons_of_mem place hp)
    rw [length_set] at hlen
    refine ⟨slots', by rw [assignSlots, if_pos hlt, hassign], hlen, fun i => ?_⟩
    rw [hget]
    by_cases hlater : ∃ p ∈ places, p.1 = i
    · obtain ⟨p, hp, hi⟩ := hlater
      rw [if_pos ⟨p, hp, hi⟩, if_pos ⟨p, mem_cons_of_mem place hp, hi⟩]
    · rw [if_neg hlater]
      by_cases hi : place.1 = i
      · subst hi
        rw [if_pos ⟨place, mem_cons_self, rfl⟩, getElem?_set_self hlt, hslot]
      · have hnone : ¬ ∃ p ∈ place :: places, p.1 = i := by
          rintro ⟨p, hp, hpi⟩
          rcases mem_cons.mp hp with rfl | hp
          · exact hi hpi
          · exact hlater ⟨p, hp, hpi⟩
        rw [if_neg hnone, getElem?_set_ne hi]

variable {s : PageStoreSnapshot} (h : Accepted s)
  (hfit : s.capacity.toNat + s.rowsPerPage.toNat ≤ 2 ^ 64)
include h hfit

theorem Accepted.exists_place {rowId : ℕ} (hrowId : rowId < s.capacity.toNat) :
    ∃ page rows, s.pages[rowId / s.rowsPerPage.toNat]? = some page ∧
      Checked s (rowId / s.rowsPerPage.toNat) page rows ∧
      rowId % s.rowsPerPage.toNat < rows.length ∧
      (rowIdAt s page.1 (rowId % s.rowsPerPage.toNat)).toNat = rowId := by
  have hsum := Nat.div_add_mod' rowId s.rowsPerPage.toNat
  have hidx : rowId / s.rowsPerPage.toNat < s.pages.length := (h.lt_pages_iff hfit _).mpr (by omega)
  have hpage := getElem?_eq_getElem hidx
  obtain ⟨rows, hrows⟩ := h.checked _ _ hpage
  have hoffset : rowId % s.rowsPerPage.toNat < rows.length :=
    (h.lt_rows_iff hfit hpage hrows).mpr ⟨Nat.mod_lt _ h.rowsPerPage_pos, by omega⟩
  exact ⟨_, rows, hpage, hrows, hoffset, by
    rw [h.toNat_rowIdAt hfit hpage hrows hoffset, hsum]⟩

/-- Each write goes to the slot of its row id, within the slots. -/
theorem Accepted.places {place : ℕ × Slot}
    (hplace : place ∈ (s.pages.map fun page => (page.1, decodedRows page)).flatMap (pageSlots s)) :
    place.1 < s.capacity.toNat ∧ place.2 = slotOf s place.1 := by
  simp only [mem_flatMap, mem_map, pageSlots, mem_range] at hplace
  obtain ⟨_, ⟨page, hmem, rfl⟩, offset, hoffset, rfl⟩ := hplace
  obtain ⟨index, hpage⟩ := mem_iff_getElem?.mp hmem
  obtain ⟨rows, hrows⟩ := h.checked index page hpage
  rw [decodedRows, hrows.decoded] at hoffset
  have hlt := ((h.lt_rows_iff hfit hpage hrows).mp hoffset).2
  rw [h.slotAt_eq hfit hpage hrows hoffset, h.toNat_rowIdAt hfit hpage hrows hoffset]
  exact ⟨hlt, rfl⟩

theorem Accepted.exists_mem_places {rowId : ℕ} (hrowId : rowId < s.capacity.toNat) :
    ∃ place ∈ (s.pages.map fun page => (page.1, decodedRows page)).flatMap (pageSlots s),
      place.1 = rowId := by
  obtain ⟨page, rows, hpage, hrows, hoffset, hrow⟩ := h.exists_place hfit hrowId
  refine ⟨slotAt s page.1 (rowId % s.rowsPerPage.toNat), ?_, hrow⟩
  have hrows' : decodedRows page = rows := by
    rw [decodedRows, hrows.decoded]
    rfl
  simp only [mem_flatMap, mem_map, pageSlots, mem_range]
  exact ⟨_, ⟨page, mem_of_getElem? hpage, rfl⟩, _, hrows' ▸ hoffset, rfl⟩

/-- Filling the slots of an accepted snapshot writes each of them and none beyond the end. -/
theorem Accepted.replaceFromPages_eq (hvalid : validatePageStoreLayout s = .ok ()) :
    ∃ store, replaceFromPages s = .ok (some store) ∧ store.slots.length = s.capacity.toNat ∧
      ∀ rowId < s.capacity.toNat, store.slots[rowId]? = some (slotOf s rowId) := by
  have hdecoded : s.pages.mapM decodedPage =
      .ok (s.pages.map fun page => (page.1, decodedRows page)) := by
    refine mapM_ok fun page hmem => ?_
    obtain ⟨index, hpage⟩ := mem_iff_getElem?.mp hmem
    obtain ⟨rows, hrows⟩ := h.checked index page hpage
    rw [decodedPage, decodedRows, hrows.decoded]
    rfl
  obtain ⟨slots, hassign, hlen, hget⟩ := assignSlots_eq (f := slotOf s)
    (replicate s.capacity.toNat ({} : Slot)) fun place hplace => by
      rw [length_replicate]
      exact h.places hfit hplace
  refine ⟨filledStore s (s.pages.map fun page => (page.1, decodedRows page)) slots, ?_, ?_,
    fun rowId hrowId => ?_⟩
  · rw [replaceFromPages, hvalid, hdecoded]
    exact congrArg (fun slots => Except.ok (Option.map _ slots)) hassign
  · rw [← length_replicate (n := s.capacity.toNat) (a := ({} : Slot)), ← hlen]
    rfl
  · exact (hget rowId).trans (if_pos (h.exists_mem_places hfit hrowId))

/-- An accepted snapshot whose numbers do not wrap around covers its row ids. -/
theorem Accepted.covered (hvalid : validatePageStoreLayout s = .ok ()) : Covered s where
  place rowId hrowId := by
    obtain ⟨page, rows, hpage, hrows, hoffset, hrow⟩ := h.exists_place hfit hrowId
    refine ⟨page, mem_of_getElem? hpage, rows, _, hrows.decoded,
      getElem?_eq_getElem hoffset, hrow, ?_, ?_⟩
    · have hfree := hrows.free _ _ (getElem?_eq_getElem hoffset)
      rwa [← UInt64.ofNat_toNat (x := rowIdAt s page.1 _), hrow] at hfree
    · intro page' hmem' rows' offset hdecoded hoffset' hrow'
      obtain ⟨index, hpage'⟩ := mem_iff_getElem?.mp hmem'
      obtain ⟨rows'', hrows'⟩ := h.checked index page' hpage'
      obtain rfl : rows'' = rows' := Except.ok.inj (hrows'.decoded.symm.trans hdecoded)
      obtain ⟨rfl, rfl⟩ := h.place_eq hfit hpage' hrows' hoffset' hrow'
      exact ⟨Option.mem_unique hpage' hpage, rfl⟩
  slots := h.replaceFromPages_eq hfit hvalid

end Slots

/-- A snapshot that passes the check covers its row ids exactly when the sum of its capacity and its
page size does not wrap around. When it does, the check expects no page and no row id has a
place. -/
theorem covered_iff (s : PageStoreSnapshot) (h : validatePageStoreLayout s = .ok ()) :
    Covered s ↔ s.capacity.toNat + s.rowsPerPage.toNat ≤ 2 ^ 64 := by
  have haccepted := accepted_of_validate h
  constructor
  · intro hcovered
    by_contra hwrap
    have hrpp := s.rowsPerPage.toNat_lt
    have hnone : s.pages = [] := by
      rw [← length_eq_zero_iff, haccepted.pages_length]
      exact expectedPageCount_of_lt haccepted.rowsPerPage_pos (by omega)
    obtain ⟨page, hpage, -⟩ := hcovered.place 0 (by omega)
    rw [hnone] at hpage
    cases hpage
  · exact fun hfit => haccepted.covered hfit h

/-- Three slots on two pages, the second of them free. -/
theorem covered_three_slots :
    let s : PageStoreSnapshot :=
      { rowsPerPage := 2, capacity := 3, freeList := [1]
        pages := [(1, pageBytes [[.null], []]), (2, pageBytes [[.int 7]])] }
    validatePageStoreLayout s = .ok () ∧ Covered s := by
  intro s
  have h : validatePageStoreLayout s = .ok () := by decide +kernel
  have hcapacity : s.capacity.toNat = 3 := by decide
  have hrowsPerPage : s.rowsPerPage.toNat = 2 := by decide
  exact ⟨h, (covered_iff s h).mpr (by omega)⟩

/-- Two row ids, the greatest page size and no page: the check passes, and both slots are left as
they were allocated. -/
theorem accepted_without_pages :
    let s : PageStoreSnapshot :=
      { rowsPerPage := 18446744073709551615, capacity := 2, freeList := [], pages := [] }
    validatePageStoreLayout s = .ok () ∧ ¬ Covered s ∧
      ∃ store, replaceFromPages s = .ok (some store) ∧ store.slots = [{}, {}] := by
  intro s
  have hvalid : validatePageStoreLayout s = .ok () := by decide +kernel
  refine ⟨hvalid, fun h => ?_, filledStore s [] [{}, {}], ?_, rfl⟩
  · obtain ⟨page, hpage, -⟩ := h.place 0 (by decide)
    cases hpage
  · rw [replaceFromPages, hvalid]
    rfl

end PageLayout

end VertexDB
