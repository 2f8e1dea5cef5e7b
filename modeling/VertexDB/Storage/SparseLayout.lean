import VertexDB.Storage.PageRowStore
import Mathlib.Data.List.Perm.Subperm

/-!
# Whole-store operations of the page row store

The operations of `src/storage/page_row_store.cpp` and `page_row_store_io.cpp` that install a row at
a given id or replace every row: `upsertAt`, `replaceRows` and `replaceSparse`, with the check of a
sparse layout in `src/storage/row_store_shared.cpp`, and the reads that walk over the rows.

`replaceSparse` collects the pages in an `unordered_map` and stores them in the order the map is
walked. That order is a parameter, `VertexDB.HashOrder`.
-/

namespace VertexDB

open List Function

/-- The order in which an unordered container of the source is walked. -/
structure HashOrder where
  walk : List ℕ → List ℕ
  perm : ∀ keys, (walk keys).Perm keys

/-- One of the two loops of `validateSparseRowLayout`: the ids are within the capacity and new to
the ids seen. -/
def checkRowIds (capacity : ℕ) (exceeds duplicate : String) :
    List ℕ → List ℕ → Except Error (List ℕ)
  | [], seen => pure seen
  | rowId :: rowIds, seen =>
    if capacity ≤ rowId then throw (.invalidArgument exceeds)
    else if rowId ∈ seen then throw (.invalidArgument duplicate)
    else checkRowIds capacity exceeds duplicate rowIds (rowId :: seen)

/-- `validateSparseRowLayout`. -/
def validateSparseRowLayout (capacity : ℕ) (freeList : List ℕ) (entries : List (ℕ × Row)) :
    Except Error Unit := do
  if capacity < entries.length then
    throw (.invalidArgument "sparse row layout has more live rows than capacity")
  if freeList.length + entries.length ≠ capacity then
    throw (.invalidArgument "sparse row layout free list and live rows must cover capacity")
  let seen ← checkRowIds capacity "sparse live row id exceeds capacity"
    "duplicate sparse live row id" (entries.map Prod.fst) []
  let seen ← checkRowIds capacity "sparse free-list row id exceeds capacity"
    "sparse free-list overlaps a live or duplicate row id" freeList seen
  if seen.length ≠ capacity then
    throw (.invalidArgument "sparse row layout does not cover every slot")

/-- The loop that assigns the entries of a sparse layout to their places. -/
def assignAll {α : Type} (entries : List (ℕ × α)) (places : List α) : List α :=
  entries.foldl (fun places entry => places.set entry.1 entry.2) places

/-- The vector `live` of `PageRowStore::replaceSparse`. -/
def liveMarks (capacity : ℕ) (entries : List (ℕ × Row)) : List Bool :=
  assignAll (entries.map fun entry => (entry.1, true)) (List.replicate capacity false)

/-- The vector `liveRows` of `PageRowStore::replaceSparse`. -/
def liveRows (capacity : ℕ) (entries : List (ℕ × Row)) : List Row :=
  assignAll entries (List.replicate capacity [])

/-- The pages and the slots that `PageRowStore::replaceSparse` builds. -/
structure SparsePages where
  pages : Std.ExtTreeMap ℕ (List Row) := ∅
  slots : List Slot

namespace SparsePages

/-- One round of the loop of `PageRowStore::replaceSparse` over the row ids. -/
def laySlot (rowsPerPage : ℕ) (live : List Bool) (rows : List Row) (laid : SparsePages)
    (rowId : ℕ) : SparsePages :=
  let pageId := rowId / rowsPerPage + 1
  let pageRows := laid.pages[pageId]?.getD []
  let isLive := live.getD rowId false
  { pages := laid.pages.insert pageId (pageRows ++ [if isLive then rows.getD rowId [] else []])
    slots := laid.slots.set rowId { pageId := pageId, offset := pageRows.length, live := isLive } }

/-- The loop of `PageRowStore::replaceSparse` over the row ids. -/
def lay (rowsPerPage capacity : ℕ) (entries : List (ℕ × Row)) : SparsePages :=
  (List.range capacity).foldl
    (laySlot rowsPerPage (liveMarks capacity entries) (liveRows capacity entries))
    { slots := List.replicate capacity {} }

/-- The rows of a page. -/
def page (laid : SparsePages) (pageId : ℕ) : List Row := laid.pages[pageId]?.getD []

end SparsePages

namespace PageRowStore

open Exec

/-- `PageRowStore::size`. -/
def size (s : PageRowStore) : ℕ := s.liveCount

/-- `PageRowStore::snapshot`. -/
def snapshot (s : PageRowStore) : List Row := (List.range s.capacity).filterMap s.get

/-- `PageRowStore::rowsById`. -/
def rowsById (s : PageRowStore) (rowIds : List ℕ) : List Row := rowIds.filterMap s.get

/-- `PageRowStore::upsertAt`. -/
def upsertAt (rowId : ℕ) (row : Row) : EStateM Error PageRowStore Bool := do
  let s ← EStateM.get
  if rowId < s.slots.length then
    if (s.slot rowId).live then update rowId row else revive rowId row
  else if rowId ≠ s.slots.length then return false
  else
    EStateM.set (s.extended row)
    return true

/-- `PageRowStore::replaceRows`. -/
def replaceRows (rows : List Row) : EStateM Error PageRowStore Unit := do
  modify fun s => { s with pageDirectory := ∅, slots := [], freeList := [], liveCount := 0 }
  forM rows fun row => discard (append row)

/-- Store the given pages, one after another. -/
def storePages (s : PageRowStore) (page : ℕ → List Row) (pageIds : List ℕ) : PageRowStore :=
  pageIds.foldl (fun s pageId => s.storePage pageId (page pageId)) s

/-- `PageRowStore::replaceSparse`. -/
def replaceSparse (order : HashOrder) (capacity : ℕ) (freeList : List ℕ)
    (entries : List (ℕ × Row)) : EStateM Error PageRowStore Unit := do
  Exec.ofExcept (validateSparseRowLayout capacity freeList entries)
  let s ← EStateM.get
  let laid := SparsePages.lay s.rowsPerPage capacity entries
  let s := { s with
    pageDirectory := ∅
    slots := laid.slots
    freeList := freeList
    liveCount := entries.length }
  EStateM.set (s.storePages laid.page (order.walk laid.pages.keys))

end PageRowStore

section Layout

variable {entries : List (ℕ × Row)}

theorem checkRowIds_ok {capacity : ℕ} {exceeds duplicate : String} {rowIds seen seen' : List ℕ}
    (h : checkRowIds capacity exceeds duplicate rowIds seen = .ok seen') :
    seen' = rowIds.reverse ++ seen ∧ (∀ i ∈ rowIds, i < capacity) ∧ (seen.Nodup → seen'.Nodup) := by
  induction rowIds generalizing seen with
  | nil =>
    cases h
    simp
  | cons rowId rowIds ih =>
    rw [checkRowIds] at h
    split_ifs at h with hlt hmem
    obtain ⟨rfl, hbound, hnodup⟩ := ih h
    refine ⟨by simp, ?_, fun hseen => hnodup (nodup_cons.mpr ⟨hmem, hseen⟩)⟩
    simpa using ⟨not_le.mp hlt, hbound⟩

/-- What a sparse layout that passes the check is: the live and the free ids together are every id
below the capacity, each once. -/
theorem perm_range_of_validate {capacity : ℕ} {freeList : List ℕ}
    (h : validateSparseRowLayout capacity freeList entries = .ok ()) :
    (freeList ++ entries.map Prod.fst).Perm (List.range capacity) := by
  unfold validateSparseRowLayout at h
  simp only [bind, Except.bind, throw, throwThe, MonadExceptOf.throw, pure, Except.pure] at h
  split_ifs at h with hmany hcover
  cases hlive : checkRowIds capacity "sparse live row id exceeds capacity"
      "duplicate sparse live row id" (entries.map Prod.fst) [] with
  | error e => simp [hlive] at h
  | ok seen =>
    cases hfree : checkRowIds capacity "sparse free-list row id exceeds capacity"
        "sparse free-list overlaps a live or duplicate row id" freeList seen with
    | error e => simp [hlive, hfree] at h
    | ok seen' =>
      obtain ⟨rfl, hbound, hnodup⟩ := checkRowIds_ok hlive
      obtain ⟨rfl, hbound', hnodup'⟩ := checkRowIds_ok hfree
      have hall := hnodup' (hnodup nodup_nil)
      have hperm : (freeList ++ entries.map Prod.fst).Perm
          (freeList.reverse ++ ((entries.map Prod.fst).reverse ++ [])) := by
        rw [append_nil]
        exact (reverse_perm _).symm.append (reverse_perm _).symm
      have hsub : freeList ++ entries.map Prod.fst ⊆ range capacity := fun i hi => by
        rw [mem_range]
        exact (mem_append.mp hi).elim (hbound' i) (hbound i)
      refine (subperm_of_subset (hperm.nodup_iff.mpr hall) hsub).perm_of_length_le ?_
      simpa using (not_not.mp hcover).ge

/-- A sparse layout that passes the check: the live and the free ids are apart, without repetition,
and together every id below the capacity. -/
structure Covers (capacity : ℕ) (freeList : List ℕ) (entries : List (ℕ × Row)) : Prop where
  freeList_nodup : freeList.Nodup
  ids_nodup : (entries.map Prod.fst).Nodup
  disjoint : ∀ i ∈ freeList, i ∉ entries.map Prod.fst
  lt_iff : ∀ i, i < capacity ↔ i ∈ freeList ∨ i ∈ entries.map Prod.fst

theorem covers_of_validate {capacity : ℕ} {freeList : List ℕ}
    (h : validateSparseRowLayout capacity freeList entries = .ok ()) :
    Covers capacity freeList entries := by
  have hperm := perm_range_of_validate h
  obtain ⟨hfree, hids, hdisjoint⟩ := nodup_append.mp (hperm.nodup_iff.mpr nodup_range)
  refine ⟨hfree, hids, fun i hi hi' => hdisjoint i hi i hi' rfl, fun i => ?_⟩
  rw [← mem_range, ← hperm.mem_iff, mem_append]

theorem length_assignAll {α : Type} (entries : List (ℕ × α)) (places : List α) :
    (assignAll entries places).length = places.length := by
  induction entries generalizing places with
  | nil => rfl
  | cons entry entries ih =>
    rw [assignAll, foldl_cons]
    exact (ih _).trans length_set

theorem getElem?_assignAll_of_not_mem {α : Type} {entries : List (ℕ × α)} {i : ℕ}
    (h : i ∉ entries.map Prod.fst) (places : List α) :
    (assignAll entries places)[i]? = places[i]? := by
  induction entries generalizing places with
  | nil => rfl
  | cons entry entries ih =>
    rw [map_cons, mem_cons, not_or] at h
    rw [assignAll, foldl_cons]
    exact (ih h.2 _).trans (getElem?_set_ne (Ne.symm h.1))

/-- A place that is assigned one value is the place assigned last. -/
theorem getElem?_assignAll_of_mem {α : Type} {entries : List (ℕ × α)} {i : ℕ} {x : α}
    (hnodup : (entries.map Prod.fst).Nodup) (h : (i, x) ∈ entries) {places : List α}
    (hi : i < places.length) : (assignAll entries places)[i]? = some x := by
  induction entries generalizing places with
  | nil => cases h
  | cons entry entries ih =>
    rw [map_cons, nodup_cons] at hnodup
    rw [assignAll, foldl_cons]
    rcases mem_cons.mp h with rfl | h
    · exact (getElem?_assignAll_of_not_mem hnodup.1 _).trans (getElem?_set_self hi)
    · exact ih hnodup.2 h (by rwa [length_set])

theorem mem_assignAll {α : Type} {entries : List (ℕ × α)} {places : List α} {x : α}
    (h : x ∈ assignAll entries places) : x ∈ places ∨ x ∈ entries.map Prod.snd := by
  induction entries generalizing places with
  | nil => exact Or.inl h
  | cons entry entries ih =>
    rw [map_cons, mem_cons]
    rcases ih h with hset | hentries
    · rcases mem_or_eq_of_mem_set hset with hold | hnew
      · exact Or.inl hold
      · exact Or.inr (Or.inl hnew)
    · exact Or.inr (Or.inr hentries)

/-- Page ids start at one, and a row of a page is an entry or the empty row of a free slot. -/
theorem SparsePages.getElem?_lay {rowsPerPage capacity : ℕ} {p : ℕ}
    {rows : List Row} (h : (lay rowsPerPage capacity entries).pages[p]? = some rows) :
    0 < p ∧ ∀ row ∈ rows, row = [] ∨ row ∈ entries.map Prod.snd := by
  have hrow : ∀ i, (liveRows capacity entries).getD i [] = [] ∨
      (liveRows capacity entries).getD i [] ∈ entries.map Prod.snd := fun i => by
    rw [getD]
    cases hi : (liveRows capacity entries)[i]? with
    | none => exact Or.inl rfl
    | some row =>
      rcases mem_assignAll (mem_of_getElem? hi) with hrep | hentry
      · exact Or.inl (eq_of_mem_replicate hrep)
      · exact Or.inr hentry
  -- the rounds of the loop keep the pages so
  have hfold : ∀ (ids : List ℕ) (laid : SparsePages),
      (∀ (p : ℕ) (rows : List Row), laid.pages[p]? = some rows →
        0 < p ∧ ∀ row ∈ rows, row = [] ∨ row ∈ entries.map Prod.snd) →
      ∀ (p : ℕ) (rows : List Row), (ids.foldl (laySlot rowsPerPage (liveMarks capacity entries)
        (liveRows capacity entries)) laid).pages[p]? = some rows →
        0 < p ∧ ∀ row ∈ rows, row = [] ∨ row ∈ entries.map Prod.snd := by
    intro ids
    induction ids with
    | nil => exact fun laid hlaid => hlaid
    | cons i ids ih =>
      intro laid hlaid
      refine ih _ fun q rows' hq => ?_
      rw [laySlot, Std.ExtTreeMap.getElem?_insert] at hq
      by_cases hpage : compare (i / rowsPerPage + 1) q = .eq
      · rw [if_pos hpage] at hq
        obtain rfl : i / rowsPerPage + 1 = q := by simpa using hpage
        refine ⟨Nat.succ_pos _, fun row hmem => ?_⟩
        rw [← Option.some.inj hq, mem_append, mem_singleton] at hmem
        rcases hmem with hold | rfl
        · cases hpages : laid.pages[i / rowsPerPage + 1]? with
          | none => simp [hpages] at hold
          | some old =>
            rw [hpages] at hold
            exact (hlaid _ old hpages).2 row hold
        · split_ifs
          · exact hrow i
          · exact Or.inl rfl
      · rw [if_neg hpage] at hq
        exact hlaid q rows' hq
  exact hfold _ _ (fun q rows' hq => by simp at hq) p rows h

end Layout

namespace PageRowStore

open Exec

variable {s : PageRowStore}

section Reading

theorem get_congr {s s' : PageRowStore} (hslots : s'.slots = s.slots)
    (hpages : ∀ p, s'.loadPageRows p = s.loadPageRows p) : s'.get = s.get := by
  funext i
  simp only [get, hslots, hpages]

theorem cell_congr {s s' : PageRowStore} (hslots : s'.slots = s.slots)
    (hpages : ∀ p, s'.loadPageRows p = s.loadPageRows p) : s'.cell = s.cell := by
  funext i
  simp only [cell, hslots, hpages]

/-- The order of the free list does not matter for a valid store. -/
theorem Valid.congr {s s' : PageRowStore} (hs : s.Valid) (hrpp : s'.rowsPerPage = s.rowsPerPage)
    (hslots : s'.slots = s.slots) (hpages : ∀ p, s'.loadPageRows p = s.loadPageRows p)
    (hfree : s'.freeList.Perm s.freeList) : s'.Valid where
  rowsPerPage_pos := hrpp ▸ hs.rowsPerPage_pos
  slot_place := by
    rw [hslots, hrpp]
    exact hs.slot_place
  page_length p o := by
    rw [hpages, hrpp, hslots]
    exact hs.page_length p o
  free_row := by
    rw [hslots, cell_congr hslots hpages]
    exact hs.free_row
  freeList_nodup := hfree.nodup_iff.mpr hs.freeList_nodup
  mem_freeList i := by
    rw [hfree.mem_iff, hslots]
    exact hs.mem_freeList i

end Reading

section ReplaceRows

theorem Valid.cleared (hs : s.Valid) :
    ({ s with pageDirectory := ∅, slots := [], freeList := [], liveCount := 0 } :
      PageRowStore).Valid :=
  (valid_empty hs.rowsPerPage_pos).congr rfl rfl (fun _ => rfl) (List.Perm.refl _)

end ReplaceRows

section ReplaceSparse

theorem slots_extended (hs : s.Layout) (row : Row) :
    (s.extended row).slots = s.slots ++ [{ pageId := s.slots.length / s.rowsPerPage + 1
                                           offset := s.slots.length % s.rowsPerPage
                                           live := true }] := by
  simp [extended, hs.length_lastPage]

theorem loadPageRows_extended (row : Row) (p : ℕ) :
    (s.extended row).loadPageRows p =
      if s.slots.length / s.rowsPerPage + 1 = p then s.loadPageRows p ++ [row]
      else s.loadPageRows p := by
  have hstore := loadPageRows_storePage s (s.slots.length / s.rowsPerPage + 1) p
    (s.loadPageRows (s.slots.length / s.rowsPerPage + 1) ++ [row])
  by_cases hp : s.slots.length / s.rowsPerPage + 1 = p
  · subst hp
    exact hstore
  · rw [if_neg hp] at hstore ⊢
    exact hstore

/-- Putting the row that is there into its place changes no page. -/
theorem loadPageRows_setRow_self {i : ℕ} {row : Row} (h : s.cell i = some row) (p : ℕ) :
    (s.setRow i row).loadPageRows p = s.loadPageRows p := by
  have hi : i < s.slots.length := by
    refine not_le.mp fun hle => ?_
    rw [cell_eq_none hle] at h
    cases h
  rw [cell, getElem?_slots hi] at h
  have hset : (s.loadPageRows (s.slot i).pageId).set (s.slot i).offset row =
      s.loadPageRows (s.slot i).pageId := by
    refine List.ext_getElem? fun o => ?_
    by_cases ho : (s.slot i).offset = o
    · subst ho
      rw [List.getElem?_set_self (List.getElem?_eq_some_iff.mp h).1]
      exact h.symm
    · rw [List.getElem?_set_ne ho]
  rw [setRow, loadPageRows_storePage, hset]
  split_ifs with hp
  · rw [hp]
  · rfl

theorem storePages_eq (page : ℕ → List Row) (pageIds : List ℕ) :
    ∃ directory dirty, s.storePages page pageIds =
      { s with pageDirectory := directory, dirtyPages := dirty } := by
  induction pageIds generalizing s with
  | nil => exact ⟨_, _, rfl⟩
  | cons pageId pageIds ih => exact ih

theorem loadPageRows_storePages (page : ℕ → List Row) (pageIds : List ℕ) (q : ℕ) :
    (s.storePages page pageIds).loadPageRows q =
      if q ∈ pageIds then page q else s.loadPageRows q := by
  induction pageIds generalizing s with
  | nil => simp [storePages]
  | cons pageId pageIds ih =>
    have hstep : s.storePages page (pageId :: pageIds) =
        (s.storePage pageId (page pageId)).storePages page pageIds := rfl
    rw [hstep, ih, loadPageRows_storePage]
    by_cases hq : pageId = q
    · subst hq
      simp
    · simp [hq, Ne.symm hq]

/-- The slots below `n` are laid out: `S` is the store of these slots. -/
structure LaidUpTo (live : List Bool) (rows : List Row) (n capacity : ℕ) (laid : SparsePages)
    (S : PageRowStore) : Prop extends Valid S where
  length_slots : S.slots.length = n
  slots_eq : laid.slots = S.slots ++ List.replicate (capacity - n) ({} : Slot)
  page_eq : ∀ p, laid.page p = S.loadPageRows p
  get_eq : ∀ i, S.get i = if i < n ∧ live.getD i false then some (rows.getD i []) else none

variable {live : List Bool} {rows : List Row} {n capacity : ℕ} {laid : SparsePages}

/-- The slot that a round adds, and the pages after it. -/
theorem LaidUpTo.laySlot_eq (h : LaidUpTo live rows n capacity laid s) (hn : n < capacity) :
    (SparsePages.laySlot s.rowsPerPage live rows laid n).slots = s.slots ++
        ({ pageId := n / s.rowsPerPage + 1, offset := n % s.rowsPerPage,
           live := live.getD n false } :: List.replicate (capacity - (n + 1)) ({} : Slot)) ∧
      ∀ p, (SparsePages.laySlot s.rowsPerPage live rows laid n).page p =
        if n / s.rowsPerPage + 1 = p then
          s.loadPageRows p ++ [if live.getD n false then rows.getD n [] else []]
        else s.loadPageRows p := by
  have hpage := h.page_eq (n / s.rowsPerPage + 1)
  have hoff := h.toValid.length_lastPage
  rw [h.length_slots, ← hpage, SparsePages.page] at hoff
  constructor
  · have hrep : replicate (capacity - n) ({} : Slot) =
        {} :: replicate (capacity - (n + 1)) {} := by
      rw [← replicate_succ]
      congr 1
      omega
    rw [SparsePages.laySlot, h.slots_eq, hrep, set_append_right _ _ h.length_slots.le,
      h.length_slots, Nat.sub_self, set_cons_zero, hoff]
  · intro p
    have hp := h.page_eq p
    rw [SparsePages.page] at hp
    by_cases hq : n / s.rowsPerPage + 1 = p
    · subst hq
      simp [SparsePages.page, SparsePages.laySlot, hp]
    · simp [SparsePages.page, SparsePages.laySlot, Std.ExtTreeMap.getElem?_insert, hq, hp]

/-- A round adds a live slot as `append` does, and a dead slot as `append` of the empty row followed
by `erase`. -/
theorem LaidUpTo.laySlot (h : LaidUpTo live rows n capacity laid s) (hn : n < capacity) :
    ∃ S,
      LaidUpTo live rows (n + 1) capacity (SparsePages.laySlot s.rowsPerPage live rows laid n) S ∧
      S.rowsPerPage = s.rowsPerPage := by
  obtain ⟨hslots, hpages⟩ := h.laySlot_eq hn
  obtain rfl : s.slots.length = n := h.length_slots
  have hext := fun row => slots_extended h.toLayout row
  have hload := fun row => loadPageRows_extended (s := s) row
  have hbelow : ∀ {i}, i ≠ s.slots.length → (i < s.slots.length + 1 ↔ i < s.slots.length) :=
    fun hi => by omega
  cases hlive : live.getD s.slots.length false with
  | true =>
    refine ⟨s.extended (rows.getD s.slots.length []), ⟨h.toValid.extended _, ?_, ?_, ?_, ?_⟩, rfl⟩
    · simp [hext]
    · rw [hslots, hext, hlive, append_assoc]
      rfl
    · intro p
      rw [hpages, hload, hlive, if_pos rfl]
    · intro i
      rw [get_extended h.toLayout, update_apply, h.get_eq, PageRowStore.capacity]
      by_cases hi : i = s.slots.length
      · rw [if_pos hi, hi, if_pos ⟨Nat.lt_succ_self _, hlive⟩]
      · simp only [if_neg hi, hbelow hi]
  | false =>
    have hcell : (s.extended []).cell s.slots.length = some [] := by
      rw [cell_extended h.toLayout, if_pos rfl]
    have hget : (s.extended []).get s.slots.length = some [] := by
      rw [get_extended h.toLayout, PageRowStore.capacity, update_self]
    have hlt : s.slots.length < (s.extended []).slots.length := by simp [hext]
    refine ⟨_, ⟨(h.toValid.extended []).erase hget s.liveCount, ?_, ?_, ?_, ?_⟩, rfl⟩
    · rw [← PageRowStore.capacity, capacity_touched, PageRowStore.capacity, hext]
      simp
    · rw [hslots, hlive]
      simp [touched, PageRowStore.setLive, slot, getD, hext]
    · intro p
      have hcell' : ((s.extended []).setLive s.slots.length false).cell s.slots.length =
          some [] := by
        rw [cell_setLive, hcell]
      refine ((hpages p).trans ?_).trans (loadPageRows_setRow_self hcell' p).symm
      rw [hlive]
      exact (hload [] p).symm
    · intro i
      rw [get_touched (h.toValid.extended []).toLayout hlt, update_apply,
        get_extended h.toLayout, update_apply, h.get_eq, PageRowStore.capacity]
      by_cases hi : i = s.slots.length
      · rw [if_pos hi, hi, hlive]
        simp
      · simp only [if_neg hi, hbelow hi]

theorem laidUpTo_lay {rowsPerPage : ℕ} (hpos : 0 < rowsPerPage) (capacity : ℕ)
    (entries : List (ℕ × Row)) :
    ∃ S, LaidUpTo (liveMarks capacity entries) (liveRows capacity entries) capacity capacity
        (SparsePages.lay rowsPerPage capacity entries) S ∧ S.rowsPerPage = rowsPerPage := by
  suffices h : ∀ n ≤ capacity, ∃ S, LaidUpTo (liveMarks capacity entries)
      (liveRows capacity entries) n capacity ((range n).foldl (SparsePages.laySlot rowsPerPage
        (liveMarks capacity entries) (liveRows capacity entries))
          { slots := replicate capacity {} }) S ∧ S.rowsPerPage = rowsPerPage from
    h capacity le_rfl
  intro n hn
  induction n with
  | zero =>
    refine ⟨{ rowsPerPage := rowsPerPage }, ⟨valid_empty hpos, rfl, ?_, fun _ => rfl, fun i => ?_⟩,
      rfl⟩
    · simp
    · simp [get]
  | succ n ih =>
    obtain ⟨S, hS, rfl⟩ := ih (by omega)
    rw [range_succ, foldl_append]
    exact hS.laySlot (by omega)

theorem length_page_lay_le {rowsPerPage : ℕ} (hpos : 0 < rowsPerPage) (capacity : ℕ)
    (entries : List (ℕ × Row)) (p : ℕ) :
    ((SparsePages.lay rowsPerPage capacity entries).page (p + 1)).length ≤ rowsPerPage := by
  obtain ⟨S, hS, rfl⟩ := laidUpTo_lay hpos capacity entries
  rw [hS.page_eq]
  exact not_lt.mp fun hlt => lt_irrefl _ ((hS.page_length p _).mp hlt).1

section Covers

variable {freeList : List ℕ} {entries : List (ℕ × Row)}

theorem getD_liveMarks (hids : (entries.map Prod.fst).Nodup) {i : ℕ} (hi : i < capacity) :
    (liveMarks capacity entries).getD i false = true ↔ i ∈ entries.map Prod.fst := by
  have hmap : (entries.map fun entry => (entry.1, true)).map Prod.fst = entries.map Prod.fst := by
    simp
  have hlen : i < (replicate capacity false).length := by simpa using hi
  by_cases hmem : i ∈ entries.map Prod.fst
  · have hmark : (i, true) ∈ entries.map fun entry => (entry.1, true) := by
      obtain ⟨entry, hentry, rfl⟩ := mem_map.mp hmem
      exact mem_map.mpr ⟨entry, hentry, rfl⟩
    have hassign := getElem?_assignAll_of_mem (hmap ▸ hids) hmark hlen
    simp only [liveMarks, getD, hassign, hmem, Option.getD_some]
  · have hassign := getElem?_assignAll_of_not_mem (hmap ▸ hmem) (replicate capacity false)
    simp only [liveMarks, getD, hassign, hmem]
    simp [hi]

theorem getD_liveRows (hids : (entries.map Prod.fst).Nodup) {i : ℕ} {row : Row} (hi : i < capacity)
    (hmem : (i, row) ∈ entries) : (liveRows capacity entries).getD i [] = row := by
  have hlen : i < (replicate capacity ([] : Row)).length := by simpa using hi
  simp only [liveRows, getD, getElem?_assignAll_of_mem hids hmem hlen, Option.getD_some]

/-- The rows of the slots laid out for a sparse layout are its entries. -/
theorem LaidUpTo.get_eq_some_iff (hcover : Covers capacity freeList entries)
    (h : LaidUpTo (liveMarks capacity entries) (liveRows capacity entries) capacity capacity laid s)
    (i : ℕ) (row : Row) : s.get i = some row ↔ (i, row) ∈ entries := by
  have hids := hcover.ids_nodup
  rw [h.get_eq]
  constructor
  · intro hget
    split_ifs at hget with hi
    obtain ⟨entry, hentry, rfl⟩ := mem_map.mp ((getD_liveMarks hids hi.1).mp hi.2)
    rw [getD_liveRows hids hi.1 hentry, Option.some.injEq] at hget
    exact hget ▸ hentry
  · intro hmem
    have hid : i ∈ entries.map Prod.fst := mem_map.mpr ⟨_, hmem, rfl⟩
    have hi := (hcover.lt_iff i).mpr (Or.inr hid)
    rw [if_pos ⟨hi, (getD_liveMarks hids hi).mpr hid⟩, getD_liveRows hids hi hmem]

theorem LaidUpTo.freeList_perm (hcover : Covers capacity freeList entries)
    (h : LaidUpTo (liveMarks capacity entries) (liveRows capacity entries)
    capacity capacity laid s) :
    freeList.Perm s.freeList := by
  refine (perm_ext_iff_of_nodup hcover.freeList_nodup h.freeList_nodup).mpr fun i => ?_
  rw [h.toValid.mem_freeList_iff, h.length_slots, hcover.lt_iff, Option.eq_none_iff_forall_ne_some]
  constructor
  · exact fun hi => ⟨Or.inl hi, fun row hget =>
      hcover.disjoint i hi (mem_map.mpr ⟨_, (h.get_eq_some_iff hcover i row).mp hget, rfl⟩)⟩
  · rintro ⟨hi | hi, hnone⟩
    · exact hi
    · obtain ⟨⟨j, row⟩, hentry, rfl⟩ := mem_map.mp hi
      exact absurd ((h.get_eq_some_iff hcover j row).mpr hentry) (hnone row)

/-- The store before the pages of a sparse layout are stored. -/
def unstored (s : PageRowStore) (capacity : ℕ) (freeList : List ℕ) (entries : List (ℕ × Row)) :
    PageRowStore :=
  { s with
    pageDirectory := ∅
    slots := (SparsePages.lay s.rowsPerPage capacity entries).slots
    freeList := freeList
    liveCount := entries.length }

theorem replaceSparse_of_error (order : HashOrder) {e : Error}
    (h : validateSparseRowLayout capacity freeList entries = .error e) :
    replaceSparse order capacity freeList entries s = .error e s := by
  rw [replaceSparse, h]
  rfl

theorem replaceSparse_of_ok (order : HashOrder)
    (h : validateSparseRowLayout capacity freeList entries = .ok ()) :
    replaceSparse order capacity freeList entries s =
      .ok () ((s.unstored capacity freeList entries).storePages
        (SparsePages.lay s.rowsPerPage capacity entries).page
        (order.walk (SparsePages.lay s.rowsPerPage capacity entries).pages.keys)) := by
  rw [replaceSparse, h]
  rfl

/-- The pages of a sparse layout are stored, whatever the order. -/
theorem loadPageRows_unstored (s : PageRowStore) (order : HashOrder) (capacity : ℕ)
    (freeList : List ℕ) (entries : List (ℕ × Row)) (p : ℕ) :
    ((s.unstored capacity freeList entries).storePages
      (SparsePages.lay s.rowsPerPage capacity entries).page
      (order.walk (SparsePages.lay s.rowsPerPage capacity entries).pages.keys)).loadPageRows p =
        (SparsePages.lay s.rowsPerPage capacity entries).page p := by
  rw [loadPageRows_storePages]
  split_ifs with hp
  · rfl
  · rw [(order.perm _).mem_iff, Std.ExtTreeMap.mem_keys] at hp
    rw [SparsePages.page, Std.ExtTreeMap.getElem?_eq_none hp]
    rfl

/-- A layout that passes the check is installed: the rows are the given entries. -/
theorem replaceSparse_ok (order : HashOrder) (hs : s.Valid)
    (h : validateSparseRowLayout capacity freeList entries = .ok ()) :
    ∃ s', replaceSparse order capacity freeList entries s = .ok () s' ∧ s'.Valid ∧
      s'.capacity = capacity ∧ s'.freeList = freeList ∧ s'.liveCount = entries.length ∧
      ∀ i row, s'.get i = some row ↔ (i, row) ∈ entries := by
  have hcover := covers_of_validate h
  obtain ⟨S, hS, hrpp⟩ := laidUpTo_lay hs.rowsPerPage_pos capacity entries
  have hslots : (SparsePages.lay s.rowsPerPage capacity entries).slots = S.slots := by
    rw [hS.slots_eq, Nat.sub_self, replicate_zero, append_nil]
  have hpages := fun p => (loadPageRows_unstored s order capacity freeList entries p).trans
    (hS.page_eq p)
  obtain ⟨directory, dirty, hstore⟩ := storePages_eq (s := s.unstored capacity freeList entries)
    (SparsePages.lay s.rowsPerPage capacity entries).page
    (order.walk (SparsePages.lay s.rowsPerPage capacity entries).pages.keys)
  refine ⟨_, replaceSparse_of_ok order h, hS.toValid.congr ?_ ?_ hpages ?_, ?_, ?_, ?_, ?_⟩
  · rw [hstore, hrpp]
    rfl
  · rw [hstore]
    exact hslots
  · rw [hstore]
    exact hS.freeList_perm hcover
  · rw [hstore]
    exact (congrArg length hslots).trans hS.length_slots
  · rw [hstore]
    rfl
  · rw [hstore]
    rfl
  · rw [get_congr (by rw [hstore]; exact hslots) hpages]
    exact hS.get_eq_some_iff hcover

end Covers

end ReplaceSparse

end PageRowStore

end VertexDB
