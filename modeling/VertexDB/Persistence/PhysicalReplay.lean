import VertexDB.Storage.TableSteps
import VertexDB.Transaction.Visibility

/-!
# Replaying physical redo records

The row after-images of `RecoveryService::applyPhysicalRedo`, replayed on one table. An upsert
writes the row to the heap and a further version to the chain of its row id; an erase takes the row
off the heap but only the latest version off the chain, and opens the version below it. So the
versions keep showing the rows of the heap exactly as long as every erase finds a single version.
-/

namespace VertexDB

open Exec MvccRowStore PageRowStore Function

/-- A physical redo record, for a table that has been found. -/
inductive RowRedo where
  | upsert (rowId : ℕ) (row : Row)
  | erase (rowId : ℕ)
  deriving DecidableEq, Repr

/-- `RecoveryService::applyPhysicalRedo`, after the table has been found. -/
def applyPhysicalRedo : RowRedo → EStateM Error Table Unit
  | .upsert rowId row => do
    if !(← Table.applyPhysicalUpsert rowId row) then
      throw (.runtimeError "failed to apply physical upsert redo")
  | .erase rowId => do
    if !(← Table.applyPhysicalErase rowId) then
      throw (.runtimeError "failed to apply physical erase redo")

/-- `MVCCRowStore::versionCount`. -/
def MvccRowStore.versionCount (s : MvccRowStore) (rowId : ℕ) : ℕ := (s.chain rowId).length

/-- Every snapshot sees the rows of the heap. -/
def Table.Mirrored (t : Table) : Prop :=
  ∀ snapshot transactions, t.versions.visibleEntries snapshot transactions = t.rowStore.liveEntries

section Chains

variable {snapshot : ReadSnapshot} {m : TransactionManager}

theorem isCreatorVisible_system : m.isCreatorVisible systemTransactionId snapshot = true :=
  if_pos rfl

theorem isCreatorVisible_self (m : TransactionManager) (creator n : ℕ) :
    m.isCreatorVisible creator { self := creator, maxCommitSeq := n } = true := by
  unfold TransactionManager.isCreatorVisible
  split_ifs with hsystem hself
  · rfl
  · rfl
  · exact absurd rfl hself

theorem readChain_cons_open {v : RowVersion} (older : List RowVersion)
    (hv : m.isCreatorVisible v.createdBy snapshot = true) :
    readChain ({ v with deletedBy := none } :: older) snapshot m = some v.row := by
  simp [readChain, TransactionManager.isVisible, hv]

end Chains

variable {t t' : Table}

/-- The visible rows are those of the heap exactly when each row id reads as its row. -/
theorem Table.mirrored_iff (hs : t.rowStore.Valid) :
    t.Mirrored ↔ ∀ i snapshot m, t.versions.read i snapshot m = t.rowStore.get i := by
  constructor
  · intro h i snapshot m
    refine Option.ext fun row => ?_
    rw [← mem_visibleEntries, h, mem_liveEntries hs]
  · intro h snapshot m
    refine entries_eq_of_mem_iff (visibleEntries_sorted _ _ _) (liveEntries_sorted _)
      fun i row => ?_
    rw [mem_visibleEntries, mem_liveEntries hs, h]

section Steps

variable (hs : t.rowStore.Valid) {rowId : ℕ}
include hs

theorem applyPhysicalRedo_upsert_eq_ok {row : Row}
    (h : applyPhysicalRedo (.upsert rowId row) t = .ok () t') :
    Table.SlotChange t rowId (some row) (t.versions.write rowId row systemTransactionId) t' := by
  rw [applyPhysicalRedo, bind_eq_ok] at h
  obtain ⟨done, t₁, hcall, h⟩ := h
  rcases Table.applyPhysicalUpsert_eq_ok hs hcall with ⟨rfl, -⟩ | ⟨rfl, -, hslot⟩
  · cases h
  · obtain ⟨-, rfl⟩ := Table.pure_eq_ok.mp h
    exact hslot

theorem applyPhysicalRedo_erase_eq_ok (h : applyPhysicalRedo (.erase rowId) t = .ok () t') :
    (∃ row, t.rowStore.get rowId = some row) ∧
      Table.SlotChange t rowId none (t.versions.popLatestVersion rowId).2 t' := by
  rw [applyPhysicalRedo, bind_eq_ok] at h
  obtain ⟨done, t₁, hcall, h⟩ := h
  rw [Table.applyPhysicalErase_eq] at hcall
  rcases Table.eraseDiscardingVersion_eq_ok hs hcall with ⟨rfl, -⟩ | ⟨rfl, hrow, hslot⟩
  · cases h
  · obtain ⟨-, rfl⟩ := Table.pure_eq_ok.mp h
    exact ⟨hrow, hslot⟩

theorem valid_of_applyPhysicalRedo {redo : RowRedo} (h : applyPhysicalRedo redo t = .ok () t') :
    t'.rowStore.Valid := by
  cases redo with
  | upsert rowId row => exact (applyPhysicalRedo_upsert_eq_ok hs h).valid
  | erase rowId => exact (applyPhysicalRedo_erase_eq_ok hs h).2.valid

theorem mirrored_of_upsert (hm : t.Mirrored) {row : Row}
    (h : applyPhysicalRedo (.upsert rowId row) t = .ok () t') : t'.Mirrored := by
  have hslot := applyPhysicalRedo_upsert_eq_ok hs h
  rw [Table.mirrored_iff hslot.valid]
  intro i snapshot m
  have hvers : t'.versions = t.versions.write rowId row systemTransactionId := by
    rw [hslot.rest]
  rw [hslot.get, hvers, MvccRowStore.read, MvccRowStore.chain_write]
  by_cases hi : rowId = i
  · subst hi
    rw [if_pos rfl, update_self]
    exact readChain_cons_open (v := { createdBy := systemTransactionId, row := row })
      _ isCreatorVisible_system
  · rw [if_neg hi, update_of_ne (Ne.symm hi)]
    exact (Table.mirrored_iff hs).mp hm i snapshot m

/-- An erase keeps the rows mirrored exactly when its row id has a single version. Otherwise the
version below the latest one is opened, and the snapshot of its creator sees it. -/
theorem mirrored_of_erase_iff (hm : t.Mirrored)
    (h : applyPhysicalRedo (.erase rowId) t = .ok () t') :
    t'.Mirrored ↔ t.versions.versionCount rowId = 1 := by
  obtain ⟨⟨row, hrow⟩, hslot⟩ := applyPhysicalRedo_erase_eq_ok hs h
  have hread := (Table.mirrored_iff hs).mp hm
  have hvers : t'.versions = (t.versions.popLatestVersion rowId).2 := by rw [hslot.rest]
  have hchain : ∀ i, t'.versions.chain i = if rowId = i then
      openLatest (t.versions.chain rowId).tail else t.versions.chain i := by
    rw [hvers]
    exact chain_popLatestVersion t.versions rowId
  rw [Table.mirrored_iff hslot.valid, versionCount]
  rcases hc : t.versions.chain rowId with _ | ⟨latest, _ | ⟨prior, older⟩⟩
  · -- a live row of the heap has a version
    have hnone := hread rowId { self := 0, maxCommitSeq := 0 } {}
    rw [hrow, MvccRowStore.read, hc] at hnone
    cases hnone
  · simp only [List.length_singleton, iff_true]
    intro i snapshot m
    rw [hslot.get, MvccRowStore.read, hchain, hc]
    by_cases hi : rowId = i
    · subst hi
      rw [if_pos rfl, update_self]
      rfl
    · rw [if_neg hi, update_of_ne (Ne.symm hi)]
      exact hread i snapshot m
  · refine iff_of_false (fun hall => ?_) (by simp)
    have hprior := hall rowId { self := prior.createdBy, maxCommitSeq := 0 } {}
    rw [hslot.get, update_self, MvccRowStore.read, hchain, if_pos rfl, hc] at hprior
    have hopen := readChain_cons_open older (isCreatorVisible_self {} prior.createdBy 0)
    rw [List.tail_cons, openLatest, hopen] at hprior
    cases hprior

end Steps

/-- Along a run of accepted records the versions show the rows of the heap after each record exactly
when every erase finds a single version of its row id. -/
theorem mirrored_along_redos_iff (t : Table) (hs : t.rowStore.Valid) (hm : t.Mirrored)
    (redos : List RowRedo) (last : Table) (hrun : forM redos applyPhysicalRedo t = .ok () last) :
    (∀ n t', forM (redos.take n) applyPhysicalRedo t = .ok () t' → t'.Mirrored) ↔
      ∀ n rowId t', redos[n]? = some (.erase rowId) →
        forM (redos.take n) applyPhysicalRedo t = .ok () t' →
          t'.versions.versionCount rowId = 1 := by
  induction redos generalizing t with
  | nil =>
    refine iff_of_true (fun n t' h => ?_) (by simp)
    rw [List.take_nil, forM_nil_run] at h
    obtain ⟨-, rfl⟩ := EStateM.Result.ok.inj h
    exact hm
  | cons redo redos ih =>
    rw [forM_cons_run, bind_eq_ok] at hrun
    obtain ⟨_, t₁, hstep, hrest⟩ := hrun
    have hs₁ := valid_of_applyPhysicalRedo hs hstep
    -- the runs of the longer prefixes go through the state after the first record
    have htaken : ∀ n t', forM ((redo :: redos).take (n + 1)) applyPhysicalRedo t = .ok () t' ↔
        forM (redos.take n) applyPhysicalRedo t₁ = .ok () t' := fun n t' => by
      rw [List.take_succ_cons, forM_cons_run, bind_of_ok hstep]
    have hfirst : ∀ t', forM ((redo :: redos).take 0) applyPhysicalRedo t = .ok () t' ↔ t = t' :=
      fun t' => by simp [forM_nil_run]
    constructor
    · intro hall n rowId t' hredo h
      have hm₁ : t₁.Mirrored := hall 1 t₁ ((htaken 0 t₁).mpr (by simp [forM_nil_run]))
      cases n with
      | zero =>
        obtain rfl : redo = .erase rowId := Option.some.inj hredo
        obtain rfl := (hfirst t').mp h
        exact (mirrored_of_erase_iff hs hm hstep).mp hm₁
      | succ n =>
        exact (ih t₁ hs₁ hm₁ hrest).mp (fun n t' h => hall (n + 1) t' ((htaken n t').mpr h)) n rowId
          t' hredo ((htaken n t').mp h)
    · intro hsingle n t' h
      have hm₁ : t₁.Mirrored := by
        cases redo with
        | upsert rowId row => exact mirrored_of_upsert hs hm hstep
        | erase rowId =>
          exact (mirrored_of_erase_iff hs hm hstep).mpr (hsingle 0 rowId t rfl ((hfirst t).mpr rfl))
      cases n with
      | zero =>
        obtain rfl := (hfirst t').mp h
        exact hm
      | succ n =>
        refine (ih t₁ hs₁ hm₁ hrest).mpr (fun n rowId t' hredo h => ?_) n t' ((htaken n t').mp h)
        exact hsingle (n + 1) rowId t' hredo ((htaken n t').mpr h)

section Examples

/-- A table of one integer column without rows. -/
def replayTable : Table := { name := "t", schema := [{ name := "a", type := .int }] }

theorem replayTable_mirrored : replayTable.Mirrored := fun _ _ => rfl

/-- A row is written, erased and written again under the same id: each state shows the heap. -/
theorem mirrored_along_reuse :
    let redos : List RowRedo := [.upsert 0 [.int 1], .erase 0, .upsert 0 [.int 2]]
    ∃ last, forM redos applyPhysicalRedo replayTable = .ok () last ∧
      ∀ n t', forM (redos.take n) applyPhysicalRedo replayTable = .ok () t' → t'.Mirrored := by
  intro redos
  have hrun : Returns (forM redos applyPhysicalRedo) replayTable fun _ _ => True := by
    decide +kernel
  have hsingle : Returns (forM (redos.take 1) applyPhysicalRedo) replayTable fun _ t =>
      t.versions.versionCount 0 = 1 := by
    decide +kernel
  obtain ⟨_, last, hlast, -⟩ := hrun
  refine ⟨last, hlast, (mirrored_along_redos_iff replayTable (valid_empty (by decide))
    replayTable_mirrored redos last hlast).mpr ?_⟩
  intro n rowId t' hredo h
  obtain ⟨rfl, rfl⟩ : n = 1 ∧ rowId = 0 := by
    rcases n with _ | _ | _ | n <;> simp_all [redos]
  obtain ⟨_, t₁, h₁, hcount⟩ := hsingle
  obtain ⟨-, rfl⟩ := EStateM.Result.ok.inj (h₁.symm.trans h)
  exact hcount

/-- A row is written twice and erased once: the heap is empty, and every snapshot sees the first
row. -/
theorem erased_row_visible :
    Returns (forM [RowRedo.upsert 0 [.int 1], .upsert 0 [.int 2], .erase 0] applyPhysicalRedo)
      replayTable fun _ t => t.rowStore.liveEntries = [] ∧
        t.versions.visibleEntries { self := 0, maxCommitSeq := 0 } {} = [(0, [.int 1])] := by
  decide +kernel

end Examples

end VertexDB
