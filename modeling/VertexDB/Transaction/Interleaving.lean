import VertexDB.Transaction.TableHistory

/-!
# Transactions that share a table

Any number of transactions on one table and one transaction manager, in any order of their steps: a
BEGIN, a row operation of an active transaction, an autocommit statement, a commit and a rollback
mark. What a transaction sees through the snapshot of its BEGIN is changed by its own steps only:
the other writers are not visible to it, so that neither the versions they put on a chain nor the
deletion marks they set count. A mark never replaces another one, because a live row has an open
latest version.
-/

namespace VertexDB

open Exec MvccRowStore TransactionManager Function

variable {snapshot : ReadSnapshot} {W : ℕ}

namespace TransactionManager

variable {m m' m'' : TransactionManager}

/-- The transaction has committed. -/
def IsCommitted (m : TransactionManager) (id : ℕ) : Prop :=
  ∃ t, m.find id = some t ∧ t.state = .committed

/-- The manager `m'` is reached from `m`: what was committed stays, what commits gets a sequence
number above those given out before, and a transaction keeps its snapshot. -/
structure Precedes (m m' : TransactionManager) : Prop where
  nextId_le : m.nextId ≤ m'.nextId
  nextCommitSeq_le : m.nextCommitSeq ≤ m'.nextCommitSeq
  kept : ∀ id t, m.find id = some t → t.state = .committed → m'.find id = some t
  later : ∀ id t seq, m'.find id = some t → t.state = .committed → t.commitSeq = some seq →
    m.find id = some t ∨ m.nextCommitSeq < seq
  snapshot : ∀ id t, m.find id = some t →
    ∃ t', m'.find id = some t' ∧ t'.snapshotMaxCommitSeq = t.snapshotMaxCommitSeq

/-- A snapshot sees the system transaction, its own one and those committed up to its number. -/
theorem isCreatorVisible_iff (m : TransactionManager) (creator : ℕ) (snapshot : ReadSnapshot) :
    m.isCreatorVisible creator snapshot = true ↔
      creator = systemTransactionId ∨ creator = snapshot.self ∨ ∃ t seq, m.find creator = some t ∧
        t.state = .committed ∧ t.commitSeq = some seq ∧ seq ≤ snapshot.maxCommitSeq := by
  unfold isCreatorVisible
  split_ifs with hsystem hself
  · simp [hsystem]
  · simp [hself]
  · rcases hfind : m.find creator with _ | ⟨id, _ | _ | _, _ | seq, snap⟩ <;> simp [hsystem, hself]

namespace Precedes

theorem refl (m : TransactionManager) : m.Precedes m :=
  ⟨le_rfl, le_rfl, fun _ _ h _ => h, fun _ _ _ h _ _ => Or.inl h, fun _ t h => ⟨t, h, rfl⟩⟩

theorem trans (h : m.Precedes m') (h' : m'.Precedes m'') : m.Precedes m'' where
  nextId_le := h.nextId_le.trans h'.nextId_le
  nextCommitSeq_le := h.nextCommitSeq_le.trans h'.nextCommitSeq_le
  kept id t hfind hstate := h'.kept id t (h.kept id t hfind hstate) hstate
  later id t seq hfind hstate hseq := by
    rcases h'.later id t seq hfind hstate hseq with hfind' | hlt
    · exact h.later id t seq hfind' hstate hseq
    · exact Or.inr (h.nextCommitSeq_le.trans_lt hlt)
  snapshot id t hfind := by
    obtain ⟨t', hfind', heq⟩ := h.snapshot id t hfind
    obtain ⟨t'', hfind'', heq'⟩ := h'.snapshot id t' hfind'
    exact ⟨t'', hfind'', heq'.trans heq⟩

theorem isCreatorVisible (h : m.Precedes m') {creator : ℕ}
    (hvis : m.isCreatorVisible creator snapshot = true) :
    m'.isCreatorVisible creator snapshot = true := by
  rw [isCreatorVisible_iff] at hvis ⊢
  refine hvis.imp_right (Or.imp_right ?_)
  rintro ⟨t, seq, hfind, hstate, hseq, hle⟩
  exact ⟨t, seq, h.kept creator t hfind hstate, hstate, hseq, hle⟩

theorem isCreatorVisible_currentSnapshot (h : m.Precedes m') {creator : ℕ}
    (hvis : m.isCreatorVisible creator m.currentSnapshot = true) :
    m'.isCreatorVisible creator m'.currentSnapshot = true := by
  rw [isCreatorVisible_iff] at hvis ⊢
  refine hvis.imp_right (Or.imp_right ?_)
  rintro ⟨t, seq, hfind, hstate, hseq, hle⟩
  exact ⟨t, seq, h.kept creator t hfind hstate, hstate, hseq, hle.trans h.nextCommitSeq_le⟩

theorem of_recorded (h : m.Recorded m') : m.Precedes m' :=
  ⟨h.nextId.ge, h.nextCommitSeq.ge, fun _ _ hfind _ => h.find ▸ hfind,
    fun _ _ _ hfind _ _ => Or.inl (h.find ▸ hfind), fun _ t hfind => ⟨t, h.find ▸ hfind, rfl⟩⟩

theorem begin (hm : m.Valid) : m.Precedes m.begin.2 where
  nextId_le := Nat.le_succ _
  nextCommitSeq_le := le_rfl
  kept id t hfind hstate := by
    rw [find_begin, if_neg, hfind]
    rintro rfl
    rw [hm.find_nextId] at hfind
    cases hfind
  later id t seq hfind hstate hseq := by
    rw [find_begin] at hfind
    split_ifs at hfind with hid
    · obtain rfl := Option.some.inj hfind
      cases hseq
    · exact Or.inl hfind
  snapshot id t hfind := by
    refine ⟨t, ?_, rfl⟩
    rw [find_begin, if_neg, hfind]
    rintro rfl
    rw [hm.find_nextId] at hfind
    cases hfind

theorem of_closes {t t' : Transaction} (h : m.Closes t t' m') (hfind : m.find t.id = some t)
    (hactive : t.state = .active) : m.Precedes m' := by
  refine ⟨h.nextId.ge, h.nextCommitSeq_le, fun id u hu hstate => ?_,
    fun id u seq hu hstate hseq => ?_, fun id u hu => ?_⟩
  · rw [h.find, if_neg, hu]
    rintro rfl
    rw [hfind, Option.some.injEq] at hu
    rw [← hu, hactive] at hstate
    cases hstate
  · rw [h.find] at hu
    split_ifs at hu with hid
    · obtain rfl := Option.some.inj hu
      obtain ⟨hcommit, hlt⟩ := h.committed hstate
      exact Or.inr (hlt.trans_eq (Option.mem_unique hcommit hseq))
    · exact Or.inl hu
  · rw [h.find]
    split_ifs with hid
    · rw [← hid, hfind, Option.some.injEq] at hu
      exact ⟨_, rfl, hu ▸ h.snapshot⟩
    · exact ⟨u, hu, rfl⟩

theorem isCreatorVisible_eq (h : m.Precedes m') (creator : ℕ)
    (hmax : snapshot.maxCommitSeq ≤ m.nextCommitSeq) :
    m'.isCreatorVisible creator snapshot = m.isCreatorVisible creator snapshot := by
  rw [Bool.eq_iff_iff, isCreatorVisible_iff, isCreatorVisible_iff]
  refine or_congr_right (or_congr_right ⟨?_, ?_⟩)
  · rintro ⟨t, seq, hfind, hstate, hseq, hle⟩
    have hold := (h.later creator t seq hfind hstate hseq).resolve_right
      (not_lt.mpr (hle.trans hmax))
    exact ⟨t, seq, hold, hstate, hseq, hle⟩
  · rintro ⟨t, seq, hfind, hrest⟩
    exact ⟨t, seq, h.kept creator t hfind hrest.1, hrest⟩

end Precedes

theorem commit_cases (m : TransactionManager) (id : ℕ) :
    (∃ e, commit id m = .error e m) ∨ ∃ t, m.find id = some t ∧ t.state = .active ∧
      ((∃ e, commit id m = .error e (m.markRolledBack t)) ∨
        m.isSerializable id = true ∧ commit id m = .ok () (m.markCommitted t)) := by
  simp only [commit, get_bind]
  cases hfind : m.find id with
  | none => exact Or.inl ⟨_, rfl⟩
  | some t =>
    by_cases hactive : t.state = .active
    · refine Or.inr ⟨t, rfl, hactive, ?_⟩
      cases hser : m.isSerializable id with
      | false =>
        refine Or.inl ⟨.runtimeError "serialization failure: concurrent read/write conflict", ?_⟩
        simp only [hactive, ne_eq, not_true_eq_false, if_false, Bool.not_false, if_true, ite_run]
        rw [bind_of_ok (rollback_ok hfind hactive)]
        rfl
      | true => exact Or.inr ⟨rfl, by simp [hactive]⟩
    · exact Or.inl ⟨.runtimeError "cannot commit inactive transaction", by simp [hactive]⟩

theorem rollback_cases (m : TransactionManager) (id : ℕ) :
    state (rollback id m) = m ∨ ∃ t, m.find id = some t ∧ t.state = .active ∧
      rollback id m = .ok () (m.markRolledBack t) := by
  cases hfind : m.find id with
  | none => exact Or.inl (by simp [rollback, hfind])
  | some t =>
    by_cases hactive : t.state = .active
    · exact Or.inr ⟨t, rfl, hactive, rollback_ok hfind hactive⟩
    · exact Or.inl (by simp [rollback, hfind, hactive])

end TransactionManager

namespace Table

variable {t : Table}

/-- The heap and the chains after a row operation of the writer `W`, whether or not the indexes
could be maintained. -/
inductive HeapStep (W : ℕ) (t t' : Table) : Prop where
  | same (hstore : t'.rowStore = t.rowStore) (hversions : t'.versions = t.versions)
  | store {r : ℕ} {row : Row} (hvalid : t'.rowStore.Valid)
      (hget : t'.rowStore.get = Function.update t.rowStore.get r (some row))
      (hversions : t'.versions = t.versions.write r row W)
  | erase {r : ℕ} {row : Row} (hrow : t.rowStore.get r = some row) (hvalid : t'.rowStore.Valid)
      (hget : t'.rowStore.get = Function.update t.rowStore.get r none)
      (hversions : t'.versions = t.versions.erase r W)

theorem state_onIndexes {α : Type} (x : Table → EStateM Error IndexManager α) (t : Table) :
    ∃ indexManager, state (onIndexes x t) = { t with indexManager := indexManager } := by
  simp only [onIndexes, get_bind, zoom]
  cases x t t.indexManager with
  | ok a indexManager => exact ⟨indexManager, rfl⟩
  | error e indexManager => exact ⟨indexManager, rfl⟩

theorem HeapStep.onIndexes {t' : Table} (h : HeapStep W t t') {α β : Type}
    (x : Table → EStateM Error IndexManager α) (b : β) :
    HeapStep W t (state ((Table.onIndexes x >>= fun _ => pure b) t')) := by
  have hstate : state ((Table.onIndexes x >>= fun _ => pure b) t') =
      state (Table.onIndexes x t') := by
    rw [bind_apply]
    cases Table.onIndexes x t' <;> rfl
  obtain ⟨indexManager, heq⟩ := state_onIndexes x t'
  rw [hstate, heq]
  cases h with
  | same hstore hvers => exact .same hstore hvers
  | store hvalid hget hvers => exact .store hvalid hget hvers
  | erase hrow hvalid hget hvers => exact .erase hrow hvalid hget hvers

theorem heapStep_insert (hs : t.rowStore.Valid) (row : Row) (W : ℕ) :
    HeapStep W t (state (insert row W t)) := by
  simp only [insert, get_bind]
  cases t.validateRow row with
  | error e => exact .same rfl rfl
  | ok _ =>
    cases t.enforceUniqueConstraintsUnlocked row none with
    | error e => exact .same rfl rfl
    | ok _ =>
      have hget := hs.get_appended row
      simp only [ofExcept_ok_bind]
      rw [bind_of_ok (onRowStore_ok (PageRowStore.append_ok hs row))]
      simp only [writeVersion, onVersions, bind_assoc, get_bind, modify_bind, hget,
        update_self, Option.getD_some]
      exact HeapStep.onIndexes (.store (hs.appended row) hget rfl) _ _

theorem heapStep_update (hs : t.rowStore.Valid) (rowId index : ℕ) (value : Value) (W : ℕ) :
    HeapStep W t (state (update rowId index value W t)) := by
  cases hrow : t.rowStore.get rowId with
  | none =>
    rw [update_eq_false (Or.inl hrow)]
    exact .same rfl rfl
  | some row =>
    cases hcol : t.schema[index]? with
    | none =>
      rw [update_eq_false (Or.inr hcol)]
      exact .same rfl rfl
    | some column =>
      simp only [update, get_bind, hrow, hcol]
      cases t.updatedRow row rowId index column value with
      | error e => exact .same rfl rfl
      | ok updated =>
        have hget := PageRowStore.get_setRow hs updated hrow
        rw [ofExcept_ok_bind, bind_of_ok (onRowStore_ok (PageRowStore.update_ok hs updated hrow))]
        simp only [Bool.not_true, Bool.false_eq_true, if_false, writeVersion, onVersions,
          bind_assoc, get_bind, modify_bind, hget, update_self, Option.getD_some]
        exact HeapStep.onIndexes (.store (hs.setRow updated hrow) hget rfl) _ _

theorem heapStep_erase (hs : t.rowStore.Valid) (rowId W : ℕ) :
    HeapStep W t (state (erase rowId W t)) := by
  cases hrow : t.rowStore.get rowId with
  | none =>
    rw [erase_eq_false hrow]
    exact .same rfl rfl
  | some row =>
    have herase := PageRowStore.erase_ok hs hrow
    have hget : (t.erasedStore rowId).get = Function.update t.rowStore.get rowId none := by
      have hi := ((hs.get_isSome_iff rowId).mp (by simp [hrow])).1
      rw [erasedStore, PageRowStore.get_touched hs.toLayout hi]
      rfl
    simp only [erase, get_bind, hrow, Option.isNone_some, Bool.false_eq_true, if_false, onVersions,
      modify_bind]
    rw [bind_of_ok (onRowStore_ok (t := { t with versions := t.versions.erase rowId W }) herase)]
    simp only [Bool.not_true, Bool.false_eq_true, if_false]
    exact HeapStep.onIndexes (.erase hrow (hs.erase hrow _) hget rfl) _ _

end Table

theorem MvccRowStore.readChain_congr {m m' : TransactionManager}
    (h : ∀ creator, m'.isCreatorVisible creator snapshot = m.isCreatorVisible creator snapshot)
    (versions : List RowVersion) :
    readChain versions snapshot m' = readChain versions snapshot m := by
  simp only [readChain, isVisible, h]

/-- What one step of the writer `W` does to a version chain. -/
inductive ChainStep (W : ℕ) (versions : List RowVersion) : List RowVersion → Prop where
  | same : ChainStep W versions versions
  | write (row : Row) :
      ChainStep W versions ({ createdBy := W, row := row } :: closeLatest W versions)
  | delete (hopen : latestDeletedBy versions = none) :
      ChainStep W versions (deleteLatest W versions)

/-- A snapshot that does not see the writer reads the same version. -/
theorem ChainStep.readChain_eq {versions versions' : List RowVersion}
    (h : ChainStep W versions versions') {m : TransactionManager}
    (hW : m.isCreatorVisible W snapshot = false) :
    readChain versions' snapshot m = readChain versions snapshot m := by
  cases h with
  | same => rfl
  | write row =>
    rcases versions with _ | ⟨⟨c, _ | d, latest⟩, older⟩ <;>
      simp [readChain, closeLatest, isVisible, hW, List.find?_cons]
    cases m.isCreatorVisible c snapshot <;> rfl
  | delete hopen =>
    rcases versions with _ | ⟨⟨c, d, latest⟩, older⟩
    · rfl
    · obtain rfl : d = none := hopen
      simp [readChain, deleteLatest, isVisible, hW, List.find?_cons]
      cases m.isCreatorVisible c snapshot <;> rfl

namespace TableAccess

variable {s s' : TableAccess}

/-- The state after a row operation of the writer `W`. -/
structure WrittenBy (W : ℕ) (s s' : TableAccess) : Prop where
  recorded : s.transactions.Recorded s'.transactions
  heap : s.table.HeapStep W s'.table

/-- A row operation does one heap step and records what it did. -/
theorem writtenBy_call (hs : s.table.rowStore.Valid) (call : RowCall) (W : ℕ) :
    WrittenBy W s (state (call.run W s)) := by
  cases call with
  | insert row =>
    have hheap := Table.heapStep_insert hs row W
    rw [RowCall.run, TableAccess.insert, bind_assoc]
    cases h : Table.insert row W s.table with
    | ok r t =>
      rw [h] at hheap
      rw [bind_of_ok (onTable_ok h)]
      exact ⟨recorded_recordStored .., hheap⟩
    | error e t =>
      rw [h] at hheap
      rw [bind_of_error (onTable_error h)]
      exact ⟨.refl _, hheap⟩
  | update rowId index value =>
    have hheap := Table.heapStep_update hs rowId index value W
    rw [RowCall.run, get_bind, TableAccess.update, bind_assoc]
    rcases h : Table.update rowId index value W s.table with ⟨_ | _, t⟩ | ⟨e, t⟩ <;> rw [h] at hheap
    · rw [bind_of_ok (onTable_ok h)]
      exact ⟨.refl _, hheap⟩
    · rw [bind_of_ok (onTable_ok h)]
      exact ⟨recorded_recordStored .., hheap⟩
    · rw [bind_of_error (onTable_error h)]
      exact ⟨.refl _, hheap⟩
  | erase rowId =>
    have hheap := Table.heapStep_erase hs rowId W
    rw [RowCall.run, get_bind, TableAccess.erase, bind_assoc]
    rcases h : Table.erase rowId W s.table with ⟨_ | _, t⟩ | ⟨e, t⟩ <;> rw [h] at hheap
    · rw [bind_of_ok (onTable_ok h)]
      exact ⟨.refl _, hheap⟩
    · rw [bind_of_ok (onTable_ok h)]
      exact ⟨recorded_recordWrite .., hheap⟩
    · rw [bind_of_error (onTable_error h)]
      exact ⟨.refl _, hheap⟩

/-- What holds in every state of transactions that share a table. -/
structure Shared (s : TableAccess) : Prop where
  store : s.table.rowStore.Valid
  transactions : s.transactions.Valid
  system : s.transactions.find systemTransactionId = none
  /-- the latest version of a live row is not marked as deleted -/
  latest_open : ∀ (r : ℕ) (row : Row), s.table.rowStore.get r = some row →
    latestDeletedBy (s.table.versions.chain r) = none

theorem shared_new {t : Table} (hstore : t.rowStore.Valid) (hempty : ∀ r, t.rowStore.get r = none) :
    Shared ⟨t, {}⟩ where
  store := hstore
  transactions := valid_new
  system := by simp [find]
  latest_open r row h := by simp [hempty r] at h

theorem Shared.written (hs : s.Shared) (h : WrittenBy W s s') : s'.Shared := by
  have hvalid : s'.transactions.Valid := h.recorded.valid hs.transactions
  have hsystem : s'.transactions.find systemTransactionId = none := h.recorded.find ▸ hs.system
  cases h.heap with
  | same hstore hvers =>
    exact ⟨hstore ▸ hs.store, hvalid, hsystem, hstore ▸ hvers ▸ hs.latest_open⟩
  | @store r row hstore hget hvers =>
    refine ⟨hstore, hvalid, hsystem, fun r' row' hrow' => ?_⟩
    rw [hvers, chain_write]
    split_ifs with hr
    · rfl
    · rw [hget, update_of_ne (Ne.symm hr)] at hrow'
      exact hs.latest_open r' row' hrow'
  | @erase r row hrow hstore hget hvers =>
    refine ⟨hstore, hvalid, hsystem, fun r' row' hrow' => ?_⟩
    have hr : r ≠ r' := by
      rintro rfl
      rw [hget, update_self] at hrow'
      cases hrow'
    rw [hget, update_of_ne (Ne.symm hr)] at hrow'
    rw [hvers, chain_erase, if_neg hr]
    exact hs.latest_open r' row' hrow'

theorem WrittenBy.chainStep (hs : s.Shared) (h : WrittenBy W s s') (r : ℕ) :
    ChainStep W (s.table.versions.chain r) (s'.table.versions.chain r) := by
  cases h.heap with
  | same _ hvers =>
    rw [hvers]
    exact .same
  | @store i row _ _ hvers =>
    rw [hvers, chain_write]
    split_ifs with hr
    · exact hr ▸ .write row
    · exact .same
  | @erase i row hrow _ _ hvers =>
    rw [hvers, chain_erase]
    split_ifs with hr
    · exact hr ▸ .delete (hs.latest_open i row hrow)
    · exact .same

/-- A row operation of a writer that the snapshot does not see changes nothing it sees. -/
theorem WrittenBy.read_eq (hs : s.Shared) (h : WrittenBy W s s')
    (hW : s.transactions.isCreatorVisible W snapshot = false) (r : ℕ) :
    s'.table.versions.read r snapshot s'.transactions =
      s.table.versions.read r snapshot s.transactions := by
  rw [MvccRowStore.read, readChain_congr fun creator =>
    h.recorded.isCreatorVisible creator snapshot]
  exact (h.chainStep hs r).readChain_eq hW

end TableAccess

/-- A step of one of the transactions that share a table. -/
inductive SharedStep where
  | begin
  | write (id : ℕ) (call : RowCall)
  | autocommit (calls : List RowCall)
  | commit (id : ℕ)
  | rollback (id : ℕ)
  deriving DecidableEq, Repr

namespace SharedStep

/-- An autocommit statement: its transaction commits first, then it makes its calls up to the first
one that throws. -/
def statement (calls : List RowCall) : EStateM Error TableAccess Unit := do
  let id ← TableAccess.onTransactions TransactionManager.beginCommitted
  forM calls fun call => do let _ ← call.run id

/-- Does the step. A transaction makes row operations while it is active; one that throws keeps what
it had changed, and so does a commit that is refused. -/
def run (s : TableAccess) : SharedStep → TableAccess
  | begin => { s with transactions := s.transactions.begin.2 }
  | write id call => if s.transactions.isActive id then state (call.run id s) else s
  | autocommit calls => state (statement calls s)
  | commit id => state (TableAccess.onTransactions (TransactionManager.commit id) s)
  | rollback id => state (TableAccess.onTransactions (TransactionManager.rollback id) s)

/-- The step is one of the transaction `T`. A BEGIN and an autocommit statement have a new one. -/
def By (T : ℕ) : SharedStep → Prop
  | begin => False
  | write id _ => id = T
  | autocommit _ => False
  | commit id => id = T
  | rollback id => id = T

instance (T : ℕ) (step : SharedStep) : Decidable (step.By T) := by
  cases step <;> unfold By <;> infer_instance

end SharedStep

/-- Does the steps one after another. -/
def runSteps (s : TableAccess) (steps : List SharedStep) : TableAccess :=
  steps.foldl SharedStep.run s

namespace TransactionManager

variable {m : TransactionManager}

/-- What an operation that begins or ends transactions does to a valid manager. -/
structure Step (m m' : TransactionManager) : Prop extends Precedes m m' where
  valid : m'.Valid
  system : m'.find systemTransactionId = none

theorem Step.refl (hm : m.Valid) (hsystem : m.find systemTransactionId = none) : m.Step m :=
  ⟨.refl m, hm, hsystem⟩

theorem Step.trans {m' m'' : TransactionManager} (h : m.Step m') (h' : m'.Step m'') : m.Step m'' :=
  ⟨h.toPrecedes.trans h'.toPrecedes, h'.valid, h'.system⟩

theorem step_begin (hm : m.Valid) (hsystem : m.find systemTransactionId = none) :
    m.Step m.begin.2 := by
  refine ⟨.begin hm, hm.begin, ?_⟩
  rw [find_begin, if_neg hm.nextId_pos.ne', hsystem]

theorem step_of_closes {t t' : Transaction} (h : m.Closes t t' m') (hm : m'.Valid)
    (hsystem : m.find systemTransactionId = none) (hfind : m.find t.id = some t)
    (hactive : t.state = .active) : m.Step m' := by
  refine ⟨.of_closes h hfind hactive, hm, ?_⟩
  rw [h.find, if_neg, hsystem]
  intro hid
  rw [hid, hsystem] at hfind
  cases hfind

section Steps

variable (hm : m.Valid) (hsystem : m.find systemTransactionId = none)
include hm hsystem

theorem step_markCommitted {id : ℕ} {t : Transaction} (hfind : m.find id = some t)
    (hactive : t.state = .active) : m.Step (m.markCommitted t) := by
  obtain ⟨-, rfl⟩ := hm.find_id id t hfind
  exact step_of_closes (closes_markCommitted m t) (hm.markCommitted hfind) hsystem hfind hactive

theorem step_markRolledBack {id : ℕ} {t : Transaction} (hfind : m.find id = some t)
    (hactive : t.state = .active) : m.Step (m.markRolledBack t) := by
  obtain ⟨-, rfl⟩ := hm.find_id id t hfind
  exact step_of_closes (closes_markRolledBack m t) (hm.markRolledBack hfind) hsystem hfind hactive

theorem step_commit (id : ℕ) : m.Step (state (commit id m)) := by
  obtain ⟨e, h⟩ | ⟨t, hfind, hactive, ⟨e, h⟩ | ⟨-, h⟩⟩ := commit_cases m id
  · rw [h]
    exact .refl hm hsystem
  · rw [h]
    exact step_markRolledBack hm hsystem hfind hactive
  · rw [h]
    exact step_markCommitted hm hsystem hfind hactive

theorem step_rollback (id : ℕ) : m.Step (state (rollback id m)) := by
  obtain h | ⟨t, hfind, hactive, h⟩ := rollback_cases m id
  · rw [h]
    exact .refl hm hsystem
  · rw [h]
    exact step_markRolledBack hm hsystem hfind hactive

end Steps

/-- The transaction of an autocommit statement, as `begin` makes it. -/
def autocommitted (m : TransactionManager) : TransactionManager :=
  m.begin.2.markCommitted m.begin.1

theorem find_begin_nextId (m : TransactionManager) : m.begin.2.find m.nextId = some m.begin.1 := by
  rw [find_begin, if_pos rfl]
  rfl

theorem beginCommitted_ok (hm : m.Valid) : beginCommitted m = .ok m.nextId m.autocommitted := by
  have hcommit := commit_ok hm.begin m.find_begin_nextId rfl rfl
  simp only [beginCommitted, get_bind, set_bind]
  exact bind_of_ok hcommit

theorem precedes_autocommitted (hm : m.Valid) : m.Precedes m.autocommitted :=
  (Precedes.begin hm).trans (.of_closes (closes_markCommitted _ _) m.find_begin_nextId rfl)

theorem valid_autocommitted (hm : m.Valid) : m.autocommitted.Valid :=
  hm.begin.markCommitted m.find_begin_nextId

theorem step_autocommitted (hm : m.Valid) (hsystem : m.find systemTransactionId = none) :
    m.Step m.autocommitted := by
  have hbegin := step_begin hm hsystem
  exact hbegin.trans (step_markCommitted hbegin.valid hbegin.system m.find_begin_nextId rfl)

/-- A transaction that commits now is not seen by a snapshot taken before. -/
theorem isCreatorVisible_autocommitted (hm : m.Valid) (hself : snapshot.self < m.nextId)
    (hmax : snapshot.maxCommitSeq ≤ m.nextCommitSeq) :
    m.autocommitted.isCreatorVisible m.nextId snapshot = false := by
  have hfind : m.autocommitted.find m.nextId =
      some { m.begin.1 with state := .committed, commitSeq := some (m.nextCommitSeq + 1) } := by
    rw [autocommitted, find_markCommitted]
    exact if_pos rfl
  rw [Bool.eq_false_iff, ne_eq, isCreatorVisible_iff, hfind]
  rintro (hsystem | hself' | ⟨t, seq, ht, -, hseq, hle⟩)
  · exact hm.nextId_pos.ne' hsystem
  · exact hself.ne' hself'
  · obtain rfl := Option.some.inj ht
    obtain rfl := Option.some.inj hseq
    omega

/-- A transaction that is still active is seen by its own snapshot only. -/
theorem isCreatorVisible_of_isActive {id : ℕ} (hsystem : m.find systemTransactionId = none)
    (hactive : m.isActive id = true) (hself : id ≠ snapshot.self) :
    m.isCreatorVisible id snapshot = false := by
  rw [Bool.eq_false_iff, ne_eq, isCreatorVisible_iff]
  rintro (rfl | hself' | ⟨t, seq, ht, hcom, -⟩)
  · simp [isActive, hsystem] at hactive
  · exact hself hself'
  · simp [isActive, ht, hcom] at hactive

end TransactionManager

namespace TableAccess

variable {s s' : TableAccess}

theorem state_onTransactions {α : Type} (x : EStateM Error TransactionManager α) (s : TableAccess) :
    state (onTransactions x s) = { s with transactions := state (x s.transactions) } := by
  rw [onTransactions, zoom]
  cases x s.transactions <;> rfl

/-- What a step of the transactions does: the invariant and the order of the commits stay, and a
snapshot that does not see the writer reads the same rows. -/
structure StepBy (hidden : ReadSnapshot → Prop) (s s' : TableAccess) : Prop where
  shared : s'.Shared
  precedes : s.transactions.Precedes s'.transactions
  read_eq : ∀ snapshot, snapshot.maxCommitSeq ≤ s.transactions.nextCommitSeq → hidden snapshot →
    ∀ r, s'.table.versions.read r snapshot s'.transactions =
      s.table.versions.read r snapshot s.transactions

theorem StepBy.of_manager (hs : s.Shared) {m : TransactionManager} (h : s.transactions.Step m)
    {hidden : ReadSnapshot → Prop} : StepBy hidden s { s with transactions := m } where
  shared := ⟨hs.store, h.valid, h.system, hs.latest_open⟩
  precedes := h.toPrecedes
  read_eq _ hmax _ _ := readChain_congr (fun creator => h.isCreatorVisible_eq creator hmax) _

theorem StepBy.of_call (hs : s.Shared) (call : RowCall) (W : ℕ) :
    StepBy (fun snapshot => s.transactions.isCreatorVisible W snapshot = false) s
      (state (call.run W s)) := by
  have h := writtenBy_call hs.store call W
  exact ⟨hs.written h, .of_recorded h.recorded, fun _ _ hW => h.read_eq hs hW⟩

theorem StepBy.of_calls (hs : s.Shared) (calls : List RowCall) (W : ℕ) :
    StepBy (fun snapshot => s.transactions.isCreatorVisible W snapshot = false) s
      (state
        ((forM calls fun call => do let _ ← call.run W : EStateM Error TableAccess PUnit) s)) := by
  induction calls generalizing s with
  | nil => exact ⟨hs, .refl _, fun _ _ _ _ => rfl⟩
  | cons call calls ih =>
    have hcall := writtenBy_call hs.store call W
    have hstep := StepBy.of_call hs call W
    rw [forM_cons_run, bind_assoc]
    cases h : call.run W s with
    | error e s' =>
      rw [h] at hstep
      rw [bind_of_error h]
      exact hstep
    | ok u s' =>
      rw [h] at hcall hstep
      rw [bind_of_ok h]
      have hrest := ih hstep.shared
      refine ⟨hrest.shared, hstep.precedes.trans hrest.precedes, fun snapshot hmax hW r => ?_⟩
      have hW' : s'.transactions.isCreatorVisible W snapshot = false :=
        (hcall.recorded.isCreatorVisible W snapshot).trans hW
      exact (hrest.read_eq snapshot (hmax.trans hstep.precedes.nextCommitSeq_le) hW' r).trans
        (hstep.read_eq snapshot hmax hW r)

theorem Shared.stepBy (hs : s.Shared) (step : SharedStep) :
    StepBy (fun snapshot => snapshot.self < s.transactions.nextId ∧ ¬ step.By snapshot.self) s
      (step.run s) := by
  cases step with
  | begin => exact .of_manager hs (step_begin hs.transactions hs.system)
  | write id call =>
    rw [SharedStep.run]
    split_ifs with hactive
    · have hcall := StepBy.of_call hs call id
      exact ⟨hcall.shared, hcall.precedes, fun snapshot hmax hhidden =>
        hcall.read_eq snapshot hmax (isCreatorVisible_of_isActive hs.system hactive hhidden.2)⟩
    · exact ⟨hs, .refl _, fun _ _ _ _ => rfl⟩
  | autocommit calls =>
    have hstep := step_autocommitted hs.transactions hs.system
    have hbegin :
        StepBy (fun _ => True) s { s with transactions := s.transactions.autocommitted } :=
      .of_manager hs hstep
    have hcalls := StepBy.of_calls hbegin.shared calls s.transactions.nextId
    rw [SharedStep.run, SharedStep.statement,
      bind_of_ok (onTransactions_ok (beginCommitted_ok hs.transactions))]
    refine ⟨hcalls.shared, hbegin.precedes.trans hcalls.precedes, fun snapshot hmax hhidden r => ?_⟩
    have hW := isCreatorVisible_autocommitted hs.transactions hhidden.1 hmax
    exact (hcalls.read_eq snapshot (hmax.trans hbegin.precedes.nextCommitSeq_le) hW r).trans
      (hbegin.read_eq snapshot hmax trivial r)
  | commit id =>
    rw [SharedStep.run, state_onTransactions]
    exact .of_manager hs (step_commit hs.transactions hs.system id)
  | rollback id =>
    rw [SharedStep.run, state_onTransactions]
    exact .of_manager hs (step_rollback hs.transactions hs.system id)

theorem Shared.runSteps (hs : s.Shared) (steps : List SharedStep) :
    (runSteps s steps).Shared ∧ s.transactions.Precedes (runSteps s steps).transactions := by
  induction steps generalizing s with
  | nil => exact ⟨hs, .refl _⟩
  | cons step steps ih =>
    have hstep := hs.stepBy step
    obtain ⟨hshared, hprecedes⟩ := ih hstep.shared
    exact ⟨hshared, hstep.precedes.trans hprecedes⟩

end TableAccess

/-- In any run of transactions that share a table, what the transaction of a BEGIN sees through the
snapshot of its BEGIN is changed by no step of another transaction, and every row it sees is a
version of its own, of the system or of a transaction that had committed before the BEGIN. -/
theorem visibleEntries_of_beginSnapshot {s₀ : TableAccess} (hs : s₀.Shared)
    (steps : List SharedStep) :
    let T := s₀.transactions.nextId
    let s₁ := SharedStep.begin.run s₀
    let snapshot := s₁.transactions.currentSnapshot T
    let s := runSteps s₁ steps
    (∀ step : SharedStep, ¬ step.By T →
      (step.run s).table.visibleEntries snapshot (step.run s).transactions =
        s.table.visibleEntries snapshot s.transactions) ∧
    ∀ (r : ℕ) (row : Row), (r, row) ∈ s.table.visibleEntries snapshot s.transactions →
      ∃ v, (s.table.versions.chain r).find?
          (fun v => s.transactions.isVisible v.createdBy v.deletedBy snapshot) = some v ∧
        v.row = row ∧
        (v.createdBy = T ∨ v.createdBy = systemTransactionId ∨
          s₀.transactions.IsCommitted v.createdBy) := by
  intro T s₁ snapshot s
  have hbegin := hs.stepBy .begin
  obtain ⟨hshared, hprecedes⟩ := hbegin.shared.runSteps steps
  have hmax : snapshot.maxCommitSeq ≤ s.transactions.nextCommitSeq := hprecedes.nextCommitSeq_le
  have hself : snapshot.self < s.transactions.nextId :=
    (Nat.lt_succ_self _).trans_le hprecedes.nextId_le
  refine ⟨fun step hby => ?_, fun r row hmem => ?_⟩
  · refine Table.entries_eq_of_mem_iff (visibleEntries_sorted _ _ _) (visibleEntries_sorted _ _ _)
      fun r row => ?_
    rw [Table.visibleEntries, Table.visibleEntries, mem_visibleEntries, mem_visibleEntries,
      (hshared.stepBy step).read_eq snapshot hmax ⟨hself, hby⟩ r]
  · rw [Table.visibleEntries, mem_visibleEntries, MvccRowStore.read, readChain,
      Option.map_eq_some_iff] at hmem
    obtain ⟨v, hv, rfl⟩ := hmem
    have hvis := List.find?_some hv
    refine ⟨v, hv, rfl, ?_⟩
    simp only [isVisible, Bool.and_eq_true, isCreatorVisible_iff] at hvis
    obtain ⟨hsystem | hself | ⟨t, seq, hfind, hstate, hseq, hle⟩, -⟩ := hvis
    · exact Or.inr (Or.inl hsystem)
    · exact Or.inl hself
    · have hold := ((hbegin.precedes.trans hprecedes).later _ t seq hfind hstate hseq).resolve_right
        (not_lt.mpr hle)
      exact Or.inr (Or.inr ⟨t, hold, hstate⟩)

/-- While another transaction changes the row and commits, the transaction that began before it sees
the row as it was. -/
theorem visibleEntries_beside_writer :
    let s₀ := runSteps oneColumnTable [.autocommit [.insert [.int 1]]]
    let s₁ := SharedStep.begin.run s₀
    let snapshot := s₁.transactions.currentSnapshot s₀.transactions.nextId
    let s := runSteps s₁ [.begin, .write 3 (.update 0 0 (.int 2))]
    let s' := (SharedStep.commit 3).run s
    s₀.Shared ∧
      s'.table.visibleEntries snapshot s'.transactions =
        s.table.visibleEntries snapshot s.transactions ∧
      s.table.visibleEntries snapshot s.transactions = [(0, [.int 1])] := by
  intro s₀ s₁ snapshot s s'
  have hnew : oneColumnTable.Shared :=
    TableAccess.shared_new (PageRowStore.valid_empty (by decide)) fun r => by
      simp [PageRowStore.get]
  have hs : s₀.Shared := (hnew.runSteps _).1
  have hby : ¬ (SharedStep.commit 3).By s₀.transactions.nextId := by decide +kernel
  exact ⟨hs, (visibleEntries_of_beginSnapshot hs _).1 (.commit 3) hby, by decide +kernel⟩

end VertexDB
