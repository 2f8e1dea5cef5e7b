import VertexDB.Transaction.Visibility

/-!
# Row operations that report to the transaction manager

`Table::insert`, `Table::update` and `Table::erase` with the transaction manager they are given: a
successful call records the row in the write set of its transaction, and the stored row among the
rows that predicate reads are matched against.
-/

namespace VertexDB

open Exec PageRowStore

/-- A table and the transaction manager its row operations report to. -/
structure TableAccess where
  table : Table
  transactions : TransactionManager

namespace TableAccess

/-- A call on the table. -/
def onTable {α : Type} (x : EStateM Error Table α) : EStateM Error TableAccess α :=
  zoom TableAccess.table (fun table s => { s with table := table }) x

/-- A call on the transaction manager. -/
def onTransactions {α : Type} (x : EStateM Error TransactionManager α) :
    EStateM Error TableAccess α :=
  zoom TableAccess.transactions (fun transactions s => { s with transactions := transactions }) x

/-- The row image of `recordInsert`. -/
def ssiImage (t : Table) (row : Row) : SsiInsert :=
  { relation := t.name
    columns := t.schema.zipIdx.map fun entry => (entry.1.name, row.at entry.2) }

/-- What `insert` and `update` record about a stored row. -/
def recordStored (t : Table) (rowId writerId : ℕ) (m : TransactionManager) : TransactionManager :=
  (m.recordWrite writerId t.name rowId).recordInsert writerId
    (ssiImage t ((t.rowStore.get rowId).getD []))

/-- `Table::insert`. -/
def insert (row : Row) (writerId : ℕ) : EStateM Error TableAccess ℕ := do
  let rowId ← onTable (Table.insert row writerId)
  modify fun s => { s with transactions := recordStored s.table rowId writerId s.transactions }
  return rowId

/-- `Table::update`. -/
def update (rowId index : ℕ) (value : Value) (writerId : ℕ) : EStateM Error TableAccess Bool := do
  if !(← onTable (Table.update rowId index value writerId)) then return false
  modify fun s => { s with transactions := recordStored s.table rowId writerId s.transactions }
  return true

/-- `Table::erase`. -/
def erase (rowId writerId : ℕ) : EStateM Error TableAccess Bool := do
  if !(← onTable (Table.erase rowId writerId)) then return false
  modify fun s => { s with transactions := s.transactions.recordWrite writerId s.table.name rowId }
  return true

theorem recorded_recordStored (t : Table) (rowId writerId : ℕ) (m : TransactionManager) :
    m.Recorded (recordStored t rowId writerId m) :=
  (m.recorded_recordWrite writerId t.name rowId).trans (TransactionManager.recorded_recordInsert ..)

variable {s s' : TableAccess} {A : ℕ → Row → Prop} {row : Row}

theorem onTable_ok {α : Type} {x : EStateM Error Table α} {a : α} {t : Table}
    (h : x s.table = .ok a t) : onTable x s = .ok a { s with table := t } :=
  zoom_of_ok h

theorem onTable_error {α : Type} {x : EStateM Error Table α} {e : Error} {t : Table}
    (h : x s.table = .error e t) : onTable x s = .error e { s with table := t } :=
  zoom_of_error h

theorem onTransactions_ok {α : Type} {x : EStateM Error TransactionManager α} {a : α}
    {m : TransactionManager} (h : x s.transactions = .ok a m) :
    onTransactions x s = .ok a { s with transactions := m } :=
  zoom_of_ok h

/-- The state after a row change: the table is sound again and only conflict sets were recorded. -/
structure RowStep (T : ℕ) (A : ℕ → Row → Prop) (s : TableAccess) (u : RowUndo)
    (s' : TableAccess) : Prop where
  sound : s'.table.Sound
  rules : s.table.SameRules s'.table
  capacity_le : s.table.rowStore.capacity ≤ s'.table.rowStore.capacity
  recorded : s.transactions.Recorded s'.transactions
  change : Table.RowChange T A s.table s'.table u

theorem RowStep.tracked {T : ℕ} {u : RowUndo} {P : ℕ → Prop} (h : RowStep T A s u s') (hT : P T)
    (htracked : s.table.Tracked P) : s'.table.Tracked P := by
  cases h.change with
  | insert hdead hget hvers => exact htracked.write hT hget hvers
  | update hrow hget hvers _ => exact htracked.write hT hget hvers
  | delete hrow hget hvers _ => exact htracked.erase hT hrow hget hvers

/-- The state after an insert that was not refused. -/
def afterInsert (s : TableAccess) (row : Row) (T : ℕ) : TableAccess :=
  ⟨s.table.inserted row T,
    recordStored (s.table.inserted row T) s.table.rowStore.nextRowId T s.transactions⟩

/-- The state after an update that found its row and was not refused. -/
def afterUpdate (s : TableAccess) (rowId : ℕ) (updated : Row) (T : ℕ) : TableAccess :=
  let t := s.table.changed (s.table.rowStore.setRow rowId updated)
    (s.table.versions.write rowId updated T)
  ⟨t, recordStored t rowId T s.transactions⟩

/-- The state after an erase that found its row. -/
def afterErase (s : TableAccess) (rowId T : ℕ) : TableAccess :=
  ⟨s.table.changed (s.table.erasedStore rowId) (s.table.versions.erase rowId T),
    s.transactions.recordWrite T s.table.name rowId⟩

theorem insert_cases (hs : s.table.Sound)
    (hrow : s.table.assertUniqueRow row none = .ok () → s.table.Indexable row) (T : ℕ) :
    (∃ e, insert row T s = .error e s) ∨
      s.table.assertUniqueRow row none = .ok () ∧
        insert row T s = .ok s.table.rowStore.nextRowId (s.afterInsert row T) := by
  cases hcheck : s.table.assertUniqueRow row none with
  | error e =>
    refine Or.inl ⟨e, ?_⟩
    rw [insert, bind_of_error (onTable_error (Table.insert_error hcheck T))]
  | ok _ =>
    refine Or.inr ⟨rfl, ?_⟩
    rw [insert, bind_of_ok (onTable_ok (Table.insert_ok hs hcheck (hrow hcheck) T)), modify_bind]
    rfl

theorem rowStep_afterInsert (hs : s.table.Sound)
    (hcheck : s.table.assertUniqueRow row none = .ok ()) (hrow : s.table.Indexable row) (T : ℕ)
    (A : ℕ → Row → Prop) :
    RowStep T A s (.insert s.table.rowStore.nextRowId) (s.afterInsert row T) where
  sound := hs.inserted ((hs.assertUniqueRow_iff _ _).mp hcheck) hrow T
  rules := s.table.sameRules_inserted row T
  capacity_le := capacity_le_appended _ row
  recorded := recorded_recordStored ..
  change := .insert hs.store.get_nextRowId (Table.get_inserted hs row T) rfl

theorem update_ok (hs : s.table.Sound) {rowId index : ℕ} {column : Column} {value : Value}
    (hget : s.table.rowStore.get rowId = some row) (hcol : s.table.schema[index]? = some column)
    (hupd : s.table.updatedRow row rowId index column value = .ok (row.set index value))
    (hidxable : s.table.Indexable (row.set index value)) (T : ℕ) :
    update rowId index value T s = .ok true (s.afterUpdate rowId (row.set index value) T) := by
  rw [update, bind_of_ok (onTable_ok (Table.update_ok hs hget hcol hupd hidxable T))]
  rfl

theorem update_cases (hs : s.table.Sound) {rowId index : ℕ} {value : Value}
    (hrow : ∀ row column updated, s.table.rowStore.get rowId = some row →
      s.table.schema[index]? = some column →
      s.table.updatedRow row rowId index column value = .ok updated → s.table.Indexable updated)
    (T : ℕ) :
    (∃ e, update rowId index value T s = .error e s) ∨ update rowId index value T s = .ok false s ∨
      ∃ row column, s.table.rowStore.get rowId = some row ∧
        s.table.schema[index]? = some column ∧
        s.table.updatedRow row rowId index column value = .ok (row.set index value) ∧
        update rowId index value T s = .ok true (s.afterUpdate rowId (row.set index value) T) := by
  have hfalse : (s.table.rowStore.get rowId = none ∨ s.table.schema[index]? = none) →
      update rowId index value T s = .ok false s := by
    intro h
    rw [update, bind_of_ok (onTable_ok (Table.update_eq_false h value T))]
    rfl
  cases hget : s.table.rowStore.get rowId with
  | none => exact Or.inr (Or.inl (hfalse (Or.inl hget)))
  | some row =>
    cases hcol : s.table.schema[index]? with
    | none => exact Or.inr (Or.inl (hfalse (Or.inr hcol)))
    | some column =>
      cases hupd : s.table.updatedRow row rowId index column value with
      | error e =>
        refine Or.inl ⟨e, ?_⟩
        rw [update, bind_of_error (onTable_error (Table.update_error hget hcol hupd T))]
      | ok updated =>
        have hidxable := hrow row column updated hget hcol hupd
        obtain ⟨rfl, -, -⟩ := (hs.updatedRow_iff hget hcol).mp hupd
        exact Or.inr (Or.inr ⟨row, column, rfl, rfl, hupd, update_ok hs hget hcol hupd hidxable T⟩)

theorem rowStep_afterUpdate (hs : s.table.Sound) {rowId : ℕ} {updated image : Row}
    (hget : s.table.rowStore.get rowId = some row)
    (haccepts : s.table.Accepts s.table.rowStore.get updated (some rowId))
    (hidxable : s.table.Indexable updated) (T : ℕ) (himage : A rowId image) :
    RowStep T A s (.update rowId image) (s.afterUpdate rowId updated T) := by
  have hset := get_setRow hs.store updated hget
  exact {
    sound := hs.changed (hs.store.setRow updated hget)
      (hset ▸ hs.accepted.store haccepts) (hset ▸ hs.indexable_update hidxable)
    rules := s.table.sameRules_changed _ _
    capacity_le := le_rfl
    recorded := recorded_recordStored ..
    change := .update hget hset rfl himage }

theorem erase_cases (hs : s.table.Searchable) (rowId T : ℕ) :
    (erase rowId T s = .ok false s ∧ s.table.rowStore.get rowId = none) ∨
      ∃ row, s.table.rowStore.get rowId = some row ∧
        erase rowId T s = .ok true (s.afterErase rowId T) := by
  cases hget : s.table.rowStore.get rowId with
  | none =>
    refine Or.inl ⟨?_, rfl⟩
    rw [erase, bind_of_ok (onTable_ok (Table.erase_eq_false hget T))]
    rfl
  | some row =>
    refine Or.inr ⟨row, rfl, ?_⟩
    rw [erase, bind_of_ok (onTable_ok (Table.erase_ok hs hget T))]
    rfl

theorem rowStep_afterErase (hs : s.table.Sound) {rowId : ℕ} {image : Row}
    (hget : s.table.rowStore.get rowId = some row) (T : ℕ)
    (himage : A rowId image) : RowStep T A s (.delete rowId image) (s.afterErase rowId T) := by
  have herased := Table.get_erasedStore hs.store hget
  exact {
    sound := hs.changed (hs.store.erase hget _) (herased ▸ hs.accepted.erase rowId)
      (herased ▸ hs.searchable.indexable_erase rowId)
    rules := s.table.sameRules_changed _ _
    capacity_le := (capacity_touched rowId _ _ _ _).ge
    recorded := TransactionManager.recorded_recordWrite ..
    change := .delete hget herased rfl himage }

end TableAccess

end VertexDB
