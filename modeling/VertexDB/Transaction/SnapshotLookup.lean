import VertexDB.Transaction.Interleaving

/-!
# Index lookups of a snapshot

The indexes of a table follow the newest image of a row, committed or not, and a snapshot reads the
version chains. On transactions that share a table, the rows that an index lookup leads a snapshot
to are the rows a scan of the snapshot finds under the same key exactly when each of these rows
still has the key in the heap: a transaction that changed the key or deleted the row hides it from
the others.
-/

namespace VertexDB

open Exec MvccRowStore TransactionManager Std.ExtTreeMap

/-- A step on a shared table: one of a transaction, or the undo of a row change by a rollback. -/
inductive TableStep where
  | shared (step : SharedStep)
  | undo (record : RowUndo)
  deriving DecidableEq, Repr

/-- Does the step. -/
def TableStep.run (s : TableAccess) : TableStep → TableAccess
  | shared step => step.run s
  | undo record => state (TableAccess.onTable record.apply s)

/-- Does the steps one after another. -/
def runTableSteps (s : TableAccess) (steps : List TableStep) : TableAccess :=
  steps.foldl TableStep.run s

/-- The row that the undo of a row change puts back. -/
def RowUndo.image : RowUndo → Option Row
  | insert _ => none
  | update _ beforeImage => some beforeImage
  | delete _ beforeImage => some beforeImage

/-- The rows that the step is about to store have a key in every index. -/
def TableStep.Indexable (s : TableAccess) : TableStep → Prop
  | shared (.write id call) => call.Admissible id true s
  | shared (.autocommit calls) =>
    CallsAdmissible s.transactions.nextId true calls
      { s with transactions := s.transactions.autocommitted }
  | shared _ => True
  | undo record => ∀ row ∈ record.image, s.table.Indexable row

/-- Every step meets the condition in the state it is done in. -/
def StepsIndexable : List TableStep → TableAccess → Prop
  | [], _ => True
  | step :: steps, s => step.Indexable s ∧ StepsIndexable steps (step.run s)

instance (s : TableAccess) : (step : TableStep) → Decidable (step.Indexable s)
  | .shared .begin => isTrue trivial
  | .shared (.write id call) => inferInstanceAs (Decidable (call.Admissible id true s))
  | .shared (.autocommit calls) => decidableCallsAdmissible _ _ calls _
  | .shared (.commit _) => isTrue trivial
  | .shared (.rollback _) => isTrue trivial
  | .undo record => inferInstanceAs (Decidable (∀ row ∈ record.image, s.table.Indexable row))

/-- Evaluates the condition along a run. -/
def decidableStepsIndexable :
    (steps : List TableStep) → (s : TableAccess) → Decidable (StepsIndexable steps s)
  | [], _ => isTrue trivial
  | _ :: steps, _ => @instDecidableAnd _ _ inferInstance (decidableStepsIndexable steps _)

instance (steps : List TableStep) (s : TableAccess) : Decidable (StepsIndexable steps s) :=
  decidableStepsIndexable steps s

namespace Table

variable {t : Table}

theorem Sound.eraseDiscardingVersion (ht : t.Sound) (rowId : ℕ) :
    (state (Table.eraseDiscardingVersion rowId t)).Sound := by
  cases hget : t.rowStore.get rowId with
  | none => simpa [Table.eraseDiscardingVersion, hget] using ht
  | some row =>
    have herased := get_erasedStore ht.store hget
    rw [eraseDiscardingVersion_ok ht hget]
    exact ht.changed (ht.store.erase hget _) (herased ▸ ht.accepted.erase rowId)
      (herased ▸ ht.searchable.indexable_erase rowId)

theorem Sound.replaceRow (ht : t.Sound) (rowId : ℕ) {row : Row} (hrow : t.Indexable row) :
    (state (Table.replaceRow rowId row t)).Sound := by
  cases hvalid : t.validateRow row with
  | error e => simpa [Table.replaceRow, hvalid] using ht
  | ok _ =>
    cases hget : t.rowStore.get rowId with
    | none => simpa [Table.replaceRow, hvalid, hget] using ht
    | some old =>
      cases hunique : t.enforceUniqueConstraintsUnlocked row (some rowId) with
      | error e => simpa [Table.replaceRow, hvalid, hget, hunique] using ht
      | ok _ =>
        have haccepts := (ht.assertUniqueRow_iff row (some rowId)).mp
          (assertUniqueRow_eq_ok.mpr ⟨hvalid, hunique⟩)
        have hset := PageRowStore.get_setRow ht.store row hget
        rw [replaceRow_ok ht hget haccepts hrow]
        exact ht.changed (ht.store.setRow row hget) (hset ▸ ht.accepted.store haccepts)
          (hset ▸ ht.indexable_update hrow)

theorem Sound.revive (ht : t.Sound) (rowId : ℕ) {row : Row} (hrow : t.Indexable row) :
    (state (Table.revive rowId row t)).Sound := by
  cases hvalid : t.validateRow row with
  | error e => simpa [Table.revive, hvalid] using ht
  | ok _ =>
    cases hunique : t.enforceUniqueConstraintsUnlocked row (some rowId) with
    | error e => simpa [Table.revive, hvalid, hunique] using ht
    | ok _ =>
      by_cases hfree : rowId < t.rowStore.capacity ∧ t.rowStore.get rowId = none
      · have haccepts := (ht.assertUniqueRow_iff row (some rowId)).mp
          (assertUniqueRow_eq_ok.mpr ⟨hvalid, hunique⟩)
        have hset := get_revivedStore ht row hfree.1
        rw [revive_ok ht hfree.1 hfree.2 haccepts hrow]
        exact ht.changed (ht.store.revive row hfree.1 _) (hset ▸ ht.accepted.store haccepts)
          (hset ▸ ht.indexable_update hrow)
      · have hnot := PageRowStore.revive_eq_false ht.store row
          (show t.rowStore.slots.length ≤ rowId ∨ (t.rowStore.get rowId).isSome by
            rw [← not_lt, ← Option.ne_none_iff_isSome, ← not_and_or]
            exact hfree)
        simp only [Table.revive, get_bind, hvalid, hunique, ofExcept_ok_bind]
        rw [bind_of_ok (onRowStore_ok hnot)]
        exact ht

/-- The undo of a row change keeps the invariant, whether it succeeds or not. -/
theorem Sound.undo (ht : t.Sound) (record : RowUndo)
    (hrow : ∀ row ∈ record.image, t.Indexable row) : (state (record.apply t)).Sound := by
  have hstate : ∀ (x : EStateM Error Table Bool) (message : String),
      state ((do if !(← x) then throw (.runtimeError message) : EStateM Error Table Unit) t) =
        state (x t) := by
    intro x message
    rw [bind_apply]
    rcases x t with ⟨_ | _, t'⟩ | ⟨e, t'⟩ <;> rfl
  cases record with
  | insert rowId =>
    rw [RowUndo.apply, hstate]
    exact ht.eraseDiscardingVersion rowId
  | update rowId image =>
    rw [RowUndo.apply, hstate]
    exact ht.replaceRow rowId (hrow image rfl)
  | delete rowId image =>
    rw [RowUndo.apply, hstate]
    exact ht.revive rowId (hrow image rfl)

end Table

namespace TableAccess

variable {s : TableAccess}

/-- The indexes agree with the heap, and the manager is valid. -/
structure Indexed (s : TableAccess) : Prop where
  sound : s.table.Sound
  transactions : s.transactions.Valid

theorem Indexed.call (hs : s.Indexed) {call : RowCall} {W : ℕ} (h : call.Admissible W true s) :
    (state (call.run W s)).Indexed := by
  rcases RowCall.run_cases hs.sound h with (⟨e, hrun⟩ | hrun) | ⟨u, s', hrun, hstep, -⟩
  · exact hrun ▸ hs
  · exact hrun ▸ hs
  · exact hrun ▸ ⟨hstep.sound, hstep.recorded.valid hs.transactions⟩

theorem Indexed.calls (hs : s.Indexed) {W : ℕ} (calls : List RowCall)
    (h : CallsAdmissible W true calls s) :
    (state ((forM calls fun call => do let _ ← call.run W : EStateM Error TableAccess PUnit)
      s)).Indexed := by
  induction calls generalizing s with
  | nil => exact hs
  | cons call calls ih =>
    have hcall := hs.call h.1
    have hrest := ih hcall h.2
    rw [forM_cons_run, bind_assoc]
    cases hrun : call.run W s with
    | ok u s' =>
      rw [hrun] at hrest
      rw [bind_of_ok hrun]
      exact hrest
    | error e s' =>
      rw [hrun] at hcall
      rw [bind_of_error hrun]
      exact hcall

theorem Indexed.run (hs : s.Indexed) {step : TableStep} (h : step.Indexable s) :
    (step.run s).Indexed := by
  cases step with
  | undo record =>
    have hundo := hs.sound.undo record h
    rw [TableStep.run]
    cases hrun : record.apply s.table with
    | ok _ t =>
      rw [hrun] at hundo
      rw [onTable_ok hrun]
      exact ⟨hundo, hs.transactions⟩
    | error e t =>
      rw [hrun] at hundo
      rw [onTable_error hrun]
      exact ⟨hundo, hs.transactions⟩
  | shared step =>
    rw [TableStep.run]
    cases step with
    | begin => exact ⟨hs.sound, hs.transactions.begin⟩
    | write id call =>
      rw [SharedStep.run]
      split_ifs
      · exact hs.call h
      · exact hs
    | autocommit calls =>
      have hvalid : s.transactions.autocommitted.Valid :=
        hs.transactions.begin.markCommitted (find_begin _ _ |>.trans (if_pos rfl))
      rw [SharedStep.run, SharedStep.statement,
        bind_of_ok (onTransactions_ok (beginCommitted_ok hs.transactions))]
      have hbegun : Indexed { s with transactions := s.transactions.autocommitted } :=
        ⟨hs.sound, hvalid⟩
      exact hbegun.calls calls h
    | commit id =>
      rw [SharedStep.run, state_onTransactions]
      refine ⟨hs.sound, ?_⟩
      obtain ⟨e, h⟩ | ⟨t, hfind, -, ⟨e, h⟩ | ⟨-, h⟩⟩ := commit_cases s.transactions id
      · rw [h]
        exact hs.transactions
      · rw [h]
        exact hs.transactions.markRolledBack hfind
      · rw [h]
        exact hs.transactions.markCommitted hfind
    | rollback id =>
      rw [SharedStep.run, state_onTransactions]
      refine ⟨hs.sound, ?_⟩
      obtain h | ⟨t, hfind, -, h⟩ := rollback_cases s.transactions id
      · rw [h]
        exact hs.transactions
      · rw [h]
        exact hs.transactions.markRolledBack hfind

theorem Indexed.runTableSteps (hs : s.Indexed) (steps : List TableStep)
    (h : StepsIndexable steps s) : (runTableSteps s steps).Indexed := by
  induction steps generalizing s with
  | nil => exact hs
  | cons step steps ih => exact ih (hs.run h.1) h.2

end TableAccess

/-- An index lookup finds the live rows with the key. -/
theorem Table.Sound.mem_indexedLookup {t : Table} (ht : t.Sound) {column : String} {i : ℕ}
    (hcolumn : t.columnIndex column = some i) {key : Value} {hits : List ℕ}
    (hhits : t.indexedLookup [column] key = some hits) (r : ℕ) :
    r ∈ hits ↔ ∃ row, t.rowStore.get r = some row ∧ (row.at i).beq key = true := by
  obtain ⟨name, hname, rfl⟩ := Option.map_eq_some_iff.mp hhits
  obtain ⟨indexes, hcol, hexpr, hnames⟩ := columnIndexName_eq_some hname
  have hidxs : indexes = [i] := by
    obtain ⟨j, rfl⟩ : ∃ j, indexes = [j] := List.length_eq_one_iff.mp (by
      simpa using congrArg List.length hnames)
    have hj := ht.canonical name [j] hcol j List.mem_cons_self
    rw [List.map_singleton, List.singleton_inj] at hnames
    rw [hnames, hcolumn, Option.some.injEq] at hj
    rw [hj]
  subst hidxs
  have hmem : name ∈ t.indexManager.indexes := by
    rw [ht.indexes.mem_indexes, mem_iff_isSome_getElem?, hcol]
    rfl
  rw [ht.indexes.mem_find name hmem]
  refine exists_congr fun row => and_congr_right fun _ => hasKey_iff hcol hexpr rfl

/-- In every state of a run of transactions on a shared table, and for every snapshot: the rows that
an index lookup on a column finds and the snapshot sees with the key are those that the snapshot
sees with the key if and only if every one of these still has the key in the heap. -/
theorem indexedLookup_visible_iff {s₀ : TableAccess} (hs : s₀.Indexed) (steps : List TableStep)
    (hsteps : StepsIndexable steps s₀) (snapshot : ReadSnapshot) (column : String) (i : ℕ)
    (key : Value) (hits : List ℕ) :
    let s := runTableSteps s₀ steps
    s.table.columnIndex column = some i → s.table.indexedLookup [column] key = some hits →
    ((∀ (r : ℕ) (row : Row),
      (r, row) ∈ s.table.versions.visibleEntriesById hits snapshot s.transactions ∧
          (row.at i).beq key = true ↔
        (r, row) ∈ s.table.visibleEntries snapshot s.transactions ∧ (row.at i).beq key = true) ↔
      ∀ (r : ℕ) (row : Row), s.table.versions.read r snapshot s.transactions = some row →
        (row.at i).beq key = true →
        ∃ live, s.table.rowStore.get r = some live ∧ (live.at i).beq key = true) := by
  intro s hcolumn hhits
  have hsound : s.table.Sound := (hs.runTableSteps steps hsteps).sound
  simp only [Table.visibleEntries, mem_visibleEntriesById, mem_visibleEntries,
    hsound.mem_indexedLookup hcolumn hhits]
  constructor
  · intro h r row hread hkey
    exact ((h r row).mpr ⟨hread, hkey⟩).1.1
  · intro h r row
    constructor
    · rintro ⟨⟨-, hread⟩, hkey⟩
      exact ⟨hread, hkey⟩
    · rintro ⟨hread, hkey⟩
      exact ⟨⟨h r row hread hkey, hread⟩, hkey⟩

/-- A table of one indexed integer column. -/
def indexedColumnTable : TableAccess where
  table :=
    { name := "t"
      schema := [{ name := "a", type := .int }]
      indexManager :=
        { indexColumns := empty.insert "i" [0]
          indexes := empty.insert "i" {}
          orderedIndexes := empty.insert "i" {} } }
  transactions := {}

theorem indexed_indexedColumnTable : indexedColumnTable.Indexed := by
  have hget : ∀ r, indexedColumnTable.table.rowStore.get r = none := fun r => by
    simp [indexedColumnTable, PageRowStore.get]
  refine ⟨⟨PageRowStore.valid_empty (by decide), ⟨⟨fun name => ?_, fun name => ?_⟩,
    fun i row h => ?_, fun name hname r key => ?_⟩, fun name indexes h => ?_, fun r row h => ?_⟩,
      ?_⟩
  · simp [indexedColumnTable]
  · simp [indexedColumnTable]
  · simp [hget] at h
  · obtain rfl : "i" = name := by simpa [indexedColumnTable] using hname
    simp [indexedColumnTable, IndexManager.hashIndex, HashIndex.find,
      HashIndex.lookup, PageRowStore.get]
  · obtain ⟨-, rfl⟩ : "i" = name ∧ [0] = indexes := by
      simpa [indexedColumnTable, getElem?_insert] using h
    decide
  · simp [hget] at h
  · exact ⟨Nat.one_pos, by simp [indexedColumnTable, find],
      by simp [indexedColumnTable, find], by simp [indexedColumnTable],
      by simp [indexedColumnTable], by simp [indexedColumnTable]⟩

/-- A committed row and a transaction that began after it. -/
def readerSteps : List TableStep :=
  [.shared (.autocommit [.insert [.int 1]]), .shared .begin]

/-- The lookup and the scan of a reader agree when no other transaction has touched the row. -/
theorem indexedLookup_visible_reader :
    let s := runTableSteps indexedColumnTable readerSteps
    let snapshot := s.transactions.currentSnapshot 2
    StepsIndexable readerSteps indexedColumnTable ∧
      ∀ (r : ℕ) (row : Row),
        (r, row) ∈ s.table.versions.visibleEntriesById [0] snapshot s.transactions ∧
            (row.at 0).beq (.int 1) = true ↔
          (r, row) ∈ s.table.visibleEntries snapshot s.transactions ∧
            (row.at 0).beq (.int 1) = true := by
  intro s snapshot
  have hsteps : StepsIndexable readerSteps indexedColumnTable := by decide +kernel
  refine ⟨hsteps, (indexedLookup_visible_iff indexed_indexedColumnTable readerSteps hsteps snapshot
    "a" 0 (.int 1) [0] (by decide +kernel) (by decide +kernel)).mpr fun r row hread _ => ?_⟩
  have hmem : (r, row) ∈ s.table.visibleEntries snapshot s.transactions :=
    (mem_visibleEntries _ _ _ r row).mpr hread
  have hentries : s.table.visibleEntries snapshot s.transactions = [(0, [.int 1])] := by
    decide +kernel
  obtain ⟨rfl, rfl⟩ : r = 0 ∧ row = [.int 1] := by simpa [hentries] using hmem
  exact ⟨[.int 1], by decide +kernel, by decide⟩

/-- The second transaction changes the key of the row and has not committed. The lookup of the first
one finds nothing, its scan finds the row. -/
theorem indexedLookup_misses_visible_row :
    let s := runTableSteps indexedColumnTable
      (readerSteps ++ [.shared .begin, .shared (.write 3 (.update 0 0 (.int 2)))])
    let snapshot : ReadSnapshot := { self := 2, maxCommitSeq := 1 }
    s.transactions.find 2 = some { id := 2, snapshotMaxCommitSeq := 1 } ∧
      s.table.indexedLookup ["a"] (.int 1) = some [] ∧
      s.table.visibleEntries snapshot s.transactions = [(0, [.int 1])] := by
  decide +kernel

end VertexDB
