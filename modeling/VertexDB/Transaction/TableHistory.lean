import VertexDB.Transaction.TableAccess

/-!
# Histories of transactions on one table

Transactions that run one after another on a table. Each is a list of row operations; a commit keeps
them and a rollback applies their undo records in reverse order. A fresh snapshot sees the live rows
after each transaction of a history, unless a transaction that is rolled back inserted a row under
the id of a row that an earlier transaction deleted: taking back the insert also takes back the
deletion mark of the older version.
-/

namespace VertexDB

open Exec MvccRowStore TransactionManager TableAccess

variable {log : List RowUndo}

/-- A row operation of a transaction. -/
inductive RowCall where
  | insert (row : Row)
  | update (rowId index : ℕ) (value : Value)
  | erase (rowId : ℕ)
  deriving DecidableEq, Repr

/-- Runs the operation and gives the undo record of the change it made. -/
def RowCall.run (writerId : ℕ) : RowCall → EStateM Error TableAccess (Option RowUndo)
  | insert row => do
    let rowId ← TableAccess.insert row writerId
    return some (.insert rowId)
  | update rowId index value => do
    let s ← EStateM.get
    let beforeImage := (s.table.rowStore.get rowId).getD []
    if !(← TableAccess.update rowId index value writerId) then return none
    return some (.update rowId beforeImage)
  | erase rowId => do
    let s ← EStateM.get
    let beforeImage := (s.table.rowStore.get rowId).getD []
    if !(← TableAccess.erase rowId writerId) then return none
    return some (.delete rowId beforeImage)

/-- Runs the operations of a transaction. One that throws leaves no undo record; the transaction
goes on. The latest record is the first of the log. -/
def runCalls (writerId : ℕ) :
    List RowCall → List RowUndo → TableAccess → List RowUndo × TableAccess
  | [], log, s => (log, s)
  | call :: calls, log, s =>
    match call.run writerId s with
    | .ok (some u) s' => runCalls writerId calls (u :: log) s'
    | .ok none s' => runCalls writerId calls log s'
    | .error _ s' => runCalls writerId calls log s'

/-- A transaction: its operations, and whether it ends with COMMIT or with ROLLBACK. -/
structure TableTransaction where
  calls : List RowCall
  commits : Bool
  deriving DecidableEq, Repr

/-- The end of a transaction: COMMIT, or the undo log from the latest record on and ROLLBACK. -/
def finish (commits : Bool) (T : ℕ) (log : List RowUndo) : EStateM Error TableAccess Unit :=
  if commits then TableAccess.onTransactions (commit T)
  else do
    TableAccess.onTable (forM log RowUndo.apply)
    TableAccess.onTransactions (rollback T)

/-- Runs a transaction. -/
def TableTransaction.run (x : TableTransaction) : EStateM Error TableAccess Unit := do
  let s ← EStateM.get
  let (transaction, m) := s.transactions.begin
  let (log, s) := runCalls transaction.id x.calls [] { s with transactions := m }
  EStateM.set s
  finish x.commits transaction.id log

/-- Runs the transactions of a history one after another. -/
def runHistory (xs : List TableTransaction) : EStateM Error TableAccess Unit :=
  forM xs TableTransaction.run

/-- The row that the call is about to store, when its checks accept it. -/
def RowCall.rowToStore (s : TableAccess) : RowCall → Option Row
  | insert row => (s.table.assertUniqueRow row none).toOption.map fun _ => row
  | update rowId index value =>
    match s.table.rowStore.get rowId, s.table.schema[index]? with
    | some row, some column => (s.table.updatedRow row rowId index column value).toOption
    | _, _ => none
  | erase _ => none

/-- What a call must meet: the row it is about to store has a key in every index, and an insert of a
transaction that will be rolled back does not take the id of a row that another transaction
deleted. -/
def RowCall.Admissible (T : ℕ) (commits : Bool) (s : TableAccess) (call : RowCall) : Prop :=
  ∀ row ∈ call.rowToStore s, s.table.Indexable row ∧
    (commits = false → call = .insert row →
      s.table.versions.chain s.table.rowStore.nextRowId = [] ∨
        latestDeletedBy (s.table.versions.chain s.table.rowStore.nextRowId) = some T)

/-- Every call meets the condition in the state it runs in. -/
def CallsAdmissible (T : ℕ) (commits : Bool) : List RowCall → TableAccess → Prop
  | [], _ => True
  | call :: calls, s =>
    call.Admissible T commits s ∧ CallsAdmissible T commits calls (Exec.state (call.run T s))

/-- Every call of every transaction meets the condition. -/
def HistoryAdmissible : List TableTransaction → TableAccess → Prop
  | [], _ => True
  | x :: xs, s =>
    CallsAdmissible s.transactions.nextId x.commits x.calls
        { s with transactions := s.transactions.begin.2 } ∧
      HistoryAdmissible xs (Exec.state (x.run s))

instance (T : ℕ) (commits : Bool) (s : TableAccess) (call : RowCall) :
    Decidable (call.Admissible T commits s) :=
  inferInstanceAs (Decidable (∀ row ∈ call.rowToStore s, _))

/-- Evaluates the condition along the calls of a transaction. -/
def decidableCallsAdmissible (T : ℕ) (commits : Bool) :
    (calls : List RowCall) → (s : TableAccess) → Decidable (CallsAdmissible T commits calls s)
  | [], _ => isTrue trivial
  | _ :: calls,
      _ => @instDecidableAnd _ _ inferInstance (decidableCallsAdmissible T commits calls _)

/-- Evaluates the condition along a history. -/
def decidableHistoryAdmissible :
    (xs : List TableTransaction) → (s : TableAccess) → Decidable (HistoryAdmissible xs s)
  | [], _ => isTrue trivial
  | _ :: xs, _ =>
    @instDecidableAnd _ _ (decidableCallsAdmissible _ _ _ _) (decidableHistoryAdmissible xs _)

instance (xs : List TableTransaction) (s : TableAccess) : Decidable (HistoryAdmissible xs s) :=
  decidableHistoryAdmissible xs s

section Calls

variable {T : ℕ} {commits : Bool} {s : TableAccess} {P : ℕ → Prop}

/-- A call changes nothing, or makes a row change and gives its undo record. -/
theorem RowCall.run_cases (hs : s.table.Sound) {call : RowCall} (h : call.Admissible T commits s) :
    ((∃ e, call.run T s = .error e s) ∨ call.run T s = .ok none s) ∨
      ∃ u s', call.run T s = .ok (some u) s' ∧ TableAccess.RowStep T s.table.Stored s u s' ∧
        (commits = false → ∀ r, u = .insert r →
          s.table.versions.chain r = [] ∨ latestDeletedBy (s.table.versions.chain r) = some T) := by
  cases call with
  | insert row =>
    have haccepted : s.table.assertUniqueRow row none = .ok () →
        row ∈ RowCall.rowToStore s (.insert row) := by
      intro hcheck
      simp [rowToStore, hcheck, Except.toOption]
    rcases insert_cases hs (fun hcheck => (h row (haccepted hcheck)).1) T with
      ⟨e, hrun⟩ | ⟨hcheck, hrun⟩
    · exact Or.inl (Or.inl ⟨e, by rw [run, bind_of_error hrun]⟩)
    · refine Or.inr ⟨_, _, by rw [run, bind_of_ok hrun]; rfl,
        rowStep_afterInsert hs hcheck (h row (haccepted hcheck)).1 T _,
        fun hc r hr => ?_⟩
      obtain rfl := RowUndo.insert.inj hr
      exact (h row (haccepted hcheck)).2 hc rfl
  | update rowId index value =>
    have hidxable : ∀ row column updated, s.table.rowStore.get rowId = some row →
        s.table.schema[index]? = some column →
        s.table.updatedRow row rowId index column value = .ok updated →
        s.table.Indexable updated := by
      intro row column updated hget hcol hupd
      exact (h updated (by simp [rowToStore, hget, hcol, hupd, Except.toOption])).1
    rcases update_cases hs hidxable T with
      ⟨e, hrun⟩ | hrun | ⟨row, column, hget, hcol, hupd, hrun⟩
    · exact Or.inl (Or.inl ⟨e, by rw [run, get_bind, bind_of_error hrun]⟩)
    · exact Or.inl (Or.inr (by rw [run, get_bind, bind_of_ok hrun]; rfl))
    · refine Or.inr ⟨.update rowId row, _, ?_, rowStep_afterUpdate hs hget
        ((hs.updatedRow_iff hget hcol).mp hupd).2.2
        (hidxable row column _ hget hcol hupd) T hget, fun _ r hr => by cases hr⟩
      rw [run, get_bind, bind_of_ok hrun, hget]
      rfl
  | erase rowId =>
    rcases erase_cases hs.searchable rowId T with ⟨hrun, -⟩ | ⟨row, hget, hrun⟩
    · exact Or.inl (Or.inr (by rw [run, get_bind, bind_of_ok hrun]; rfl))
    · refine Or.inr ⟨.delete rowId row, _, ?_, rowStep_afterErase hs hget T hget,
        fun _ r hr => by cases hr⟩
      rw [run, get_bind, bind_of_ok hrun, hget]
      rfl

/-- The log takes a table that stands for `o` back to one that stands for `o₀`. -/
def Rewinds (T : ℕ) (o₀ : Table) (log : List RowUndo) (o : Table) : Prop :=
  ∀ a, Table.HeapRestores o.Stored o a → Table.ChainRestores T o a →
    ∃ a', forM log RowUndo.apply a = .ok ⟨⟩ a' ∧
      Table.HeapRestores o₀.Stored o₀ a' ∧ Table.ChainRestores T o₀ a'

/-- A row change and its record extend a log. -/
theorem Rewinds.step {o₀ : Table} {u : RowUndo} {s' : TableAccess}
    (h : Rewinds T o₀ log s.table) (hs : s.table.Sound) (htracked : s.table.Tracked P)
    (hstep : TableAccess.RowStep T s.table.Stored s u s')
    (hreuse : ∀ r, u = .insert r →
      s.table.versions.chain r = [] ∨ latestDeletedBy (s.table.versions.chain r) = some T) :
    Rewinds T o₀ (u :: log) s'.table := by
  intro a hheap hchain
  have hA : ∀ r row, r ≠ u.rowId → s'.table.Stored r row → s.table.Stored r row :=
    fun r row hr h => (hstep.change.get_of_ne hr).symm.trans h
  obtain ⟨hrun, hheap'⟩ := hstep.change.undo hs hs.family hstep.rules hstep.capacity_le hA hheap
  have hchain' := hstep.change.chainRestores_undone (fun _ _ => htracked.latestDeletedBy_eq)
    hreuse hchain
  obtain ⟨a', hrest, h'⟩ := h _ hheap' hchain'
  exact ⟨a', by rw [forM_cons_run, bind_of_ok hrun, hrest], h'⟩

/-- What holds inside a transaction that began with the table `o` and the manager `m`: `log` takes
the table back to `o` when the transaction is to be rolled back. -/
structure InTransaction (T : ℕ) (P : ℕ → Prop) (commits : Bool) (o : Table) (m : TransactionManager)
    (log : List RowUndo) (s : TableAccess) : Prop where
  sound : s.table.Sound
  tracked : s.table.Tracked P
  recorded : m.Recorded s.transactions
  rewinds : commits = false → Rewinds T o log s.table

theorem InTransaction.step {o : Table} {m : TransactionManager}
    (h : InTransaction T P commits o m log s) (hT : P T) {u : RowUndo} {s' : TableAccess}
    (hstep : TableAccess.RowStep T s.table.Stored s u s')
    (hreuse : commits = false → ∀ r, u = .insert r →
      s.table.versions.chain r = [] ∨ latestDeletedBy (s.table.versions.chain r) = some T) :
    InTransaction T P commits o m (u :: log) s' where
  sound := hstep.sound
  tracked := hstep.tracked hT h.tracked
  recorded := h.recorded.trans hstep.recorded
  rewinds hc := (h.rewinds hc).step h.sound h.tracked hstep (hreuse hc)

theorem InTransaction.runCalls {o : Table} {m : TransactionManager} (hT : P T)
    (calls : List RowCall) :
    ∀ (log : List RowUndo) (s : TableAccess), InTransaction T P commits o m log s →
      CallsAdmissible T commits calls s →
      InTransaction T P commits o m (runCalls T calls log s).1 (runCalls T calls log s).2 := by
  induction calls with
  | nil => exact fun log s h _ => h
  | cons call calls ih =>
    intro log s h hadm
    obtain ⟨hcall, hrest⟩ := hadm
    rcases RowCall.run_cases h.sound hcall with
      (⟨e, hrun⟩ | hrun) | ⟨u, s', hrun, hstep, hreuse⟩
    · rw [hrun] at hrest
      simpa only [VertexDB.runCalls, hrun] using ih log s h hrest
    · rw [hrun] at hrest
      simpa only [VertexDB.runCalls, hrun] using ih log s h hrest
    · rw [hrun] at hrest
      simpa only [VertexDB.runCalls, hrun] using ih (u :: log) s' (h.step hT hstep hreuse) hrest

end Calls

section Transactions

variable {s : TableAccess}

/-- What holds between two transactions: the chains follow the heap by transactions that every
fresh snapshot sees. -/
structure TableAccess.Consistent (s : TableAccess) : Prop where
  sound : s.table.Sound
  valid : s.transactions.Valid
  tracked : s.table.Tracked s.transactions.Settled

theorem TableAccess.Consistent.not_settled (h : s.Consistent) :
    ¬ s.transactions.Settled s.transactions.nextId := by
  rintro (hsystem | ⟨t, seq, hfind, -⟩)
  · exact absurd hsystem (ne_of_gt h.valid.nextId_pos)
  · rw [h.valid.find_nextId] at hfind
    cases hfind

/-- A transaction starts with an empty log and the table as it is. -/
theorem TableAccess.Consistent.inTransaction (h : s.Consistent) (commits : Bool) :
    InTransaction s.transactions.nextId
      (fun id => s.transactions.Settled id ∨ id = s.transactions.nextId) commits s.table
      s.transactions.begin.2 [] { s with transactions := s.transactions.begin.2 } where
  sound := h.sound
  tracked := h.tracked.mono fun _ => Or.inl
  recorded := .refl _
  rewinds _ a hheap hchain := ⟨a, rfl, hheap, hchain⟩

theorem TableTransaction.run_eq (x : TableTransaction) (s : TableAccess) :
    x.run s =
      let r := runCalls s.transactions.nextId x.calls []
        { s with transactions := s.transactions.begin.2 }
      finish x.commits s.transactions.nextId r.1 r.2 := by
  simp only [TableTransaction.run, get_bind, set_bind]
  rfl

/-- COMMIT and ROLLBACK keep the invariant. -/
theorem TableAccess.Consistent.finish (h : s.Consistent) {commits : Bool}
    {s₁ : TableAccess}
    (hend : InTransaction s.transactions.nextId
      (fun id => s.transactions.Settled id ∨ id = s.transactions.nextId) commits s.table
      s.transactions.begin.2 log s₁) :
    ∃ s', VertexDB.finish commits s.transactions.nextId log s₁ = .ok () s' ∧ s'.Consistent := by
  set T := s.transactions.nextId
  let transaction : Transaction := { id := T, snapshotMaxCommitSeq := s.transactions.nextCommitSeq }
  have hfind : s₁.transactions.find T = some transaction := by
    rw [hend.recorded.find, find_begin, if_pos rfl]
  have hvalid : s₁.transactions.Valid := hend.recorded.valid h.valid.begin
  have hsettled : ∀ id, s.transactions.Settled id → s₁.transactions.Settled id :=
    fun id hid => hend.recorded.settled.mpr (hid.begin h.valid)
  cases commits with
  | true =>
    have hcommit := commit_ok hvalid hfind rfl hend.recorded.nextCommitSeq.symm
    refine ⟨{ s₁ with transactions := s₁.transactions.markCommitted transaction },
      onTransactions_ok hcommit, hend.sound, hvalid.markCommitted hfind,
      hend.tracked.mono ?_⟩
    rintro id (hid | rfl)
    · exact (hsettled id hid).markCommitted
    · exact settled_markCommitted _ transaction
  | false =>
    obtain ⟨a, hundo, hheap, hchain⟩ := hend.rewinds rfl s₁.table
      (Table.HeapRestores.refl hend.sound) (Table.ChainRestores.refl T s₁.table)
    have hrollback := rollback_ok hfind rfl
    refine ⟨⟨a, s₁.transactions.markRolledBack transaction⟩, ?_, hheap.sound,
      hvalid.markRolledBack hfind, fun r => ?_⟩
    · simp only [VertexDB.finish, Bool.false_eq_true, if_false]
      rw [bind_of_ok (onTable_ok hundo)]
      exact onTransactions_ok hrollback
    · show ChainTracks _ (a.rowStore.get r) (a.versions.chain r)
      rw [hheap.get_eq, hchain.chain_eq h.tracked h.not_settled r]
      exact (h.tracked r).mono fun id hid => (hsettled id hid).markRolledBack rfl hfind

/-- A transaction ends and keeps the invariant, whether it commits or is rolled back. -/
theorem TableAccess.Consistent.run (h : s.Consistent) {x : TableTransaction}
    (hadm : CallsAdmissible s.transactions.nextId x.commits x.calls
      { s with transactions := s.transactions.begin.2 }) :
    ∃ s', x.run s = .ok () s' ∧ s'.Consistent := by
  rw [TableTransaction.run_eq]
  exact h.finish (InTransaction.runCalls (Or.inr rfl) x.calls [] _ (h.inTransaction x.commits) hadm)

theorem TableAccess.Consistent.runHistory (xs : List TableTransaction) :
    ∀ s : TableAccess, s.Consistent → HistoryAdmissible xs s →
      ∃ s', runHistory xs s = .ok () s' ∧ s'.Consistent := by
  induction xs with
  | nil => exact fun s h _ => ⟨s, rfl, h⟩
  | cons x xs ih =>
    intro s h hadm
    obtain ⟨s₁, hrun, h₁⟩ := h.run hadm.1
    have hrest := hadm.2
    rw [hrun] at hrest
    obtain ⟨s', hruns, h'⟩ := ih s₁ h₁ hrest
    exact ⟨s', by rw [VertexDB.runHistory, forM_cons_run, bind_of_ok hrun]; exact hruns, h'⟩

theorem HistoryAdmissible.take (xs : List TableTransaction) :
    ∀ (s : TableAccess) (n : ℕ), HistoryAdmissible xs s → HistoryAdmissible (xs.take n) s := by
  induction xs with
  | nil => exact fun s n h => by rwa [List.take_nil]
  | cons x xs ih =>
    rintro s (_ | n) h
    · trivial
    · exact ⟨h.1, ih _ n h.2⟩

/-- After each transaction of an admissible history a fresh snapshot sees exactly the live rows. -/
theorem visibleEntries_eq_liveEntries_of_history (s : TableAccess) (hs : s.Consistent)
    (xs : List TableTransaction) (hadm : HistoryAdmissible xs s) (n : ℕ) :
    ∃ s', runHistory (xs.take n) s = .ok () s' ∧
      s'.table.visibleEntries s'.transactions.currentSnapshot s'.transactions =
        s'.table.liveEntries := by
  obtain ⟨s', hrun, h'⟩ := TableAccess.Consistent.runHistory (xs.take n) s hs (hadm.take xs s n)
  refine ⟨s', hrun, Table.Tracked.visibleEntries_eq ?_ h'.sound.store⟩
  exact h'.tracked.mono fun id hid => hid.isCreatorVisible

theorem TableAccess.consistent_new (name : String) (schema : List Column)
    (checks : List CheckPredicate) (foreignKeys : List ForeignKeyConstraint)
    (uniques : List UniqueConstraint) :
    TableAccess.Consistent
      { table :=
          { name := name
            schema := schema
            checkConstraints := checks
            foreignKeys := foreignKeys
            uniqueConstraints := uniques }
        transactions := {} } := by
  have hget : ∀ r, ({} : PageRowStore).get r = none := fun r => by simp [PageRowStore.get]
  refine ⟨⟨PageRowStore.valid_empty (by decide), ?_, ?_, ?_⟩, ?_, fun r => ?_⟩
  · refine ⟨⟨by simp, by simp⟩, fun i row h => ?_, by simp⟩
    rw [hget] at h
    cases h
  · intro name indexes h
    simp at h
  · intro r row h
    rw [hget] at h
    cases h
  · exact ⟨Nat.one_pos, by simp [find], by simp [find], by simp, by simp, by simp⟩
  · rw [hget]
    simp [ChainTracks, chain]

/-- The table of one integer column used below. -/
def oneColumnTable : TableAccess := ⟨{ name := "t", schema := [{ name := "a", type := .int }] }, {}⟩

/-- A row is inserted, deleted and its id used again by a transaction that commits; a rolled-back
transaction inserts a row under a new id and deletes the other one. -/
def committedReuse : List TableTransaction :=
  [{ calls := [.insert [.int 1]], commits := true },
    { calls := [.erase 0, .insert [.int 2]], commits := true },
    { calls := [.insert [.int 3], .update 0 0 (.int 4), .erase 0, .insert [.int 5]],
      commits := false }]

theorem visibleEntries_committedReuse :
    HistoryAdmissible committedReuse oneColumnTable ∧
      ∃ s', runHistory (committedReuse.take 3) oneColumnTable = .ok () s' ∧
        s'.table.visibleEntries s'.transactions.currentSnapshot s'.transactions =
          s'.table.liveEntries := by
  have hadm : HistoryAdmissible committedReuse oneColumnTable := by decide +kernel
  exact ⟨hadm, visibleEntries_eq_liveEntries_of_history oneColumnTable
    (consistent_new _ _ _ _ _) committedReuse hadm 3⟩

/-- A row is inserted, deleted, and its id is used again by a transaction that is rolled back. -/
def rolledBackReuse : List TableTransaction :=
  [{ calls := [.insert [.int 1]], commits := true },
    { calls := [.erase 0], commits := true },
    { calls := [.insert [.int 2]], commits := false }]

/-- After the rollback the deleted row is visible again while the heap has no live row. -/
theorem visibleEntries_rolledBackReuse :
    let s' := Exec.state (runHistory rolledBackReuse oneColumnTable)
    s'.table.visibleEntries s'.transactions.currentSnapshot s'.transactions = [(0, [.int 1])] ∧
      s'.table.liveEntries = [] := by
  decide +kernel

end Transactions

end VertexDB
