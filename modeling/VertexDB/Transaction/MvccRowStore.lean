import VertexDB.Transaction.TransactionManager
import Mathlib.Data.List.Sort

/-!
# Version chains

The version store of a table, as in `src/transaction/mvcc_row_store.cpp`: every row id has a chain
of versions, each with the transactions that created and deleted it. Here a chain is a list with the
latest version first; the source appends at the back of a vector and reads it backwards.
-/

namespace VertexDB

open Std.ExtTreeMap

/-- `RowVersion`. -/
structure RowVersion where
  createdBy : ℕ
  deletedBy : Option ℕ := none
  row : Row
  deriving DecidableEq, Repr

/-- `MVCCRowStore`. -/
structure MvccRowStore where
  versions : Std.ExtTreeMap ℕ (List RowVersion) := ∅

namespace MvccRowStore

/-- The versions of a row id, the latest first. -/
def chain (s : MvccRowStore) (rowId : ℕ) : List RowVersion := s.versions[rowId]?.getD []

/-- `chain.back().deletedBy = transactionId` when the latest version is not deleted yet. -/
def closeLatest (transactionId : ℕ) : List RowVersion → List RowVersion
  | [] => []
  | latest :: older =>
    match latest.deletedBy with
    | none => { latest with deletedBy := some transactionId } :: older
    | some _ => latest :: older

/-- `MVCCRowStore::write`. -/
def write (s : MvccRowStore) (rowId : ℕ) (row : Row) (transactionId : ℕ) : MvccRowStore :=
  { versions := s.versions.insert rowId
      ({ createdBy := transactionId, row := row } :: closeLatest transactionId (s.chain rowId)) }

/-- `MVCCRowStore::erase`. -/
def erase (s : MvccRowStore) (rowId transactionId : ℕ) : MvccRowStore :=
  match s.chain rowId with
  | [] => s
  | latest :: older =>
    { versions := s.versions.insert rowId
        ({ latest with deletedBy := some transactionId } :: older) }

/-- `MVCCRowStore::popLatestVersion`. -/
def popLatestVersion (s : MvccRowStore) (rowId : ℕ) : Bool × MvccRowStore :=
  match s.chain rowId with
  | [] => (false, s)
  | [_] => (true, { versions := s.versions.erase rowId })
  | _ :: prior :: older =>
    (true, { versions := s.versions.insert rowId ({ prior with deletedBy := none } :: older) })

/-- `MVCCRowStore::clearLatestDeletedBy`. -/
def clearLatestDeletedBy (s : MvccRowStore) (rowId : ℕ) : Bool × MvccRowStore :=
  match s.chain rowId with
  | [] => (false, s)
  | latest :: older =>
    match latest.deletedBy with
    | none => (false, s)
    | some _ =>
      (true, { versions := s.versions.insert rowId ({ latest with deletedBy := none } :: older) })

/-- The latest version of a chain that the snapshot sees. -/
def readChain (versions : List RowVersion) (snapshot : ReadSnapshot)
    (transactions : TransactionManager) : Option Row :=
  (versions.find? fun version =>
    transactions.isVisible version.createdBy version.deletedBy snapshot).map RowVersion.row

/-- `MVCCRowStore::read`. -/
def read (s : MvccRowStore) (rowId : ℕ) (snapshot : ReadSnapshot)
    (transactions : TransactionManager) : Option Row :=
  readChain (s.chain rowId) snapshot transactions

/-- `MVCCRowStore::visibleEntriesById`. -/
def visibleEntriesById (s : MvccRowStore) (rowIds : List ℕ) (snapshot : ReadSnapshot)
    (transactions : TransactionManager) : List (ℕ × Row) :=
  rowIds.filterMap fun rowId => (s.read rowId snapshot transactions).map (rowId, ·)

/-- `MVCCRowStore::visibleEntries`. -/
def visibleEntries (s : MvccRowStore) (snapshot : ReadSnapshot)
    (transactions : TransactionManager) : List (ℕ × Row) :=
  s.visibleEntriesById s.versions.keys snapshot transactions

section Chains

variable {versions : List RowVersion}

@[simp] theorem chain_write (s : MvccRowStore) (i j : ℕ) (row : Row) (t : ℕ) :
    (s.write i row t).chain j =
      if i = j then { createdBy := t, row := row } :: closeLatest t (s.chain i) else s.chain j := by
  by_cases h : i = j <;> simp [write, chain, getElem?_insert, h]

/-- The chain with its latest version marked as deleted. -/
def deleteLatest (t : ℕ) : List RowVersion → List RowVersion
  | [] => []
  | latest :: older => { latest with deletedBy := some t } :: older

@[simp] theorem chain_erase (s : MvccRowStore) (i j t : ℕ) :
    (s.erase i t).chain j = if i = j then deleteLatest t (s.chain i) else s.chain j := by
  unfold erase
  by_cases h : i = j
  · subst h
    cases hc : s.chain i with
    | nil => simpa [deleteLatest] using hc
    | cons latest older => simp [chain, deleteLatest]
  · cases hc : s.chain i <;> simp [chain, getElem?_insert, h]

/-- The chain with its latest version not deleted. -/
def openLatest : List RowVersion → List RowVersion
  | [] => []
  | latest :: older => { latest with deletedBy := none } :: older

@[simp] theorem chain_popLatestVersion (s : MvccRowStore) (i j : ℕ) :
    (s.popLatestVersion i).2.chain j =
      if i = j then openLatest (s.chain i).tail else s.chain j := by
  unfold popLatestVersion
  by_cases h : i = j
  · subst h
    rcases hc : s.chain i with _ | ⟨latest, _ | ⟨prior, older⟩⟩
    · simpa [openLatest] using hc
    · simp [chain, openLatest]
    · simp [chain, openLatest]
  · rcases hc : s.chain i with _ | ⟨latest, _ | ⟨prior, older⟩⟩ <;>
      simp [chain, getElem?_insert, getElem?_erase, h]

@[simp] theorem chain_clearLatestDeletedBy (s : MvccRowStore) (i j : ℕ) :
    (s.clearLatestDeletedBy i).2.chain j = if i = j then openLatest (s.chain i) else s.chain j := by
  unfold clearLatestDeletedBy
  by_cases h : i = j
  · subst h
    rcases hc : s.chain i with _ | ⟨⟨c, _ | t, row⟩, older⟩
    · simpa [openLatest] using hc
    · simpa [openLatest] using hc
    · simp [chain, openLatest]
  · rcases hc : s.chain i with _ | ⟨⟨c, _ | t, row⟩, older⟩ <;> simp [chain, getElem?_insert, h]

/-- The transaction that deleted the latest version, if one did. -/
def latestDeletedBy (versions : List RowVersion) :
    Option ℕ := versions.head?.bind RowVersion.deletedBy

theorem openLatest_eq_self (h : latestDeletedBy versions = none) :
    openLatest versions = versions := by
  rcases versions with _ | ⟨⟨c, d, row⟩, older⟩
  · rfl
  · obtain rfl : d = none := h
    rfl

theorem openLatest_closeLatest (h : latestDeletedBy versions = none)
    (t : ℕ) : openLatest (closeLatest t versions) = versions := by
  rcases versions with _ | ⟨⟨c, d, row⟩, older⟩
  · rfl
  · obtain rfl : d = none := h
    rfl

theorem closeLatest_eq_self {d : ℕ}
    (h : latestDeletedBy versions = some d) (t : ℕ) : closeLatest t versions = versions := by
  rcases versions with _ | ⟨⟨c, d', row⟩, older⟩
  · rfl
  · obtain rfl : d' = some d := h
    rfl

theorem openLatest_deleteLatest (versions : List RowVersion) (t : ℕ) :
    openLatest (deleteLatest t versions) = openLatest versions := by
  cases versions <;> rfl

theorem openLatest_openLatest (versions : List RowVersion) :
    openLatest (openLatest versions) = openLatest versions := by
  cases versions <;> rfl

end Chains

theorem mem_visibleEntriesById (s : MvccRowStore) (rowIds : List ℕ) (snapshot : ReadSnapshot)
    (m : TransactionManager) (i : ℕ) (row : Row) :
    (i, row) ∈ s.visibleEntriesById rowIds snapshot m ↔
      i ∈ rowIds ∧ s.read i snapshot m = some row := by
  simp only [visibleEntriesById, List.mem_filterMap, Option.map_eq_some_iff, Prod.mk.injEq]
  constructor
  · rintro ⟨j, hj, r, hr, rfl, rfl⟩
    exact ⟨hj, hr⟩
  · rintro ⟨hi, hread⟩
    exact ⟨i, hi, row, hread, rfl, rfl⟩

theorem mem_visibleEntries (s : MvccRowStore) (snapshot : ReadSnapshot) (m : TransactionManager)
    (i : ℕ) (row : Row) :
    (i, row) ∈ s.visibleEntries snapshot m ↔ s.read i snapshot m = some row := by
  rw [visibleEntries, mem_visibleEntriesById, mem_keys, and_iff_right_iff_imp]
  intro h
  by_contra hmem
  simp [read, chain, getElem?_eq_none hmem, readChain] at h

theorem visibleEntries_sorted (s : MvccRowStore) (snapshot : ReadSnapshot)
    (m : TransactionManager) : (s.visibleEntries snapshot m).Pairwise fun a b => a.1 < b.1 := by
  refine List.Pairwise.filterMap _ ?_ (R := fun a b : ℕ => compare a b = .lt)
    s.versions.ordered_keys
  rintro i j hij ⟨a, ra⟩ ha ⟨b, rb⟩ hb
  simp only [Option.map_eq_some_iff, Prod.mk.injEq] at ha hb
  obtain ⟨_, -, rfl, -⟩ := ha
  obtain ⟨_, -, rfl, -⟩ := hb
  exact compare_lt_iff_lt.mp hij

end MvccRowStore

end VertexDB
