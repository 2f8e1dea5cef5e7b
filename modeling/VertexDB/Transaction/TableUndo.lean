import VertexDB.Lib.UndoLog
import VertexDB.Storage.ConstraintIndexes
import VertexDB.Transaction.RowUndo

/-!
# Changes of a table and their undo log

The part of `RecoveryService::applyUndoRecord` that works on one table, and a table with its undo
log: every change of the rows or of the schema adds a record, undoing takes the latest record and
applies it. The helpers that undo row changes check what they store. `restoreDroppedColumn` checks
nothing: the rows it restores are acceptable because they are the rows from before the column was
dropped.
-/

namespace VertexDB

open Exec List

/-- The text of an exception, `what()`. -/
def Error.what : Error → String
  | invalidArgument message | runtimeError message => message

/-- A call whose exceptions are thrown again with a text in front. -/
def rethrow {α : Type} (context : String) (x : EStateM Error Table α) : EStateM Error Table α :=
  fun t =>
    match x t with
    | .ok a t' => .ok a t'
    | .error e t' => .error (.runtimeError (context ++ e.what)) t'

/-- The records of `UndoRecord` for the rows and the columns of one table. -/
inductive TableUndo where
  | row (record : RowUndo)
  | alterAddColumn (name : String)
  | alterDropColumn (capture : Table.DroppedColumnCapture)
  | alterRenameColumn (name renameTo : String)

/-- `RecoveryService::applyUndoRecord` on a record for the rows or the columns of a table. -/
def TableUndo.apply (database : Option Database) : TableUndo → EStateM Error Table Unit
  | row record => record.apply
  | alterAddColumn name =>
    rethrow "failed to undo ADD COLUMN: " (discard (Table.dropColumn name database false))
  | alterDropColumn capture =>
    rethrow "failed to undo DROP COLUMN: " (Table.restoreDroppedColumn capture)
  | alterRenameColumn name renameTo =>
    rethrow "failed to undo RENAME COLUMN: " (Table.renameColumn renameTo name)

/-- A table with the records of the changes that have not been committed, the latest first. -/
structure UndoSession where
  table : Table
  undoLog : List TableUndo := []

/-- The calls on a table with its undo log. The indexes come and go without a record: no row depends
on them. -/
inductive SessionOp where
  | insert (row : Row) (writerId : ℕ)
  | update (rowId index : ℕ) (value : Value) (writerId : ℕ)
  | erase (rowId writerId : ℕ)
  | addColumn (column : Column) (fill : Option Value)
  | dropColumn (columnName : String) (database : Option Database) (cascade : Bool)
  | renameColumn (oldName newName : String)
  | createIndex (name : String) (columns : List String)
  | createExpressionIndex (name : String) (expression : IndexExpression)
  | dropIndex (name : String)
  | ensureConstraintIndexes
  | undo (database : Option Database)
  | commit

namespace UndoSession

/-- A call on the table. -/
def onTable {α : Type} (x : EStateM Error Table α) : EStateM Error UndoSession α :=
  zoom UndoSession.table (fun table s => { s with table := table }) x

/-- The record of a change. -/
def record (r : TableUndo) : EStateM Error UndoSession Unit :=
  modify fun s => { s with undoLog := r :: s.undoLog }

end UndoSession

open UndoSession in
/-- The call with the record it leaves. A call that finds no row leaves none. -/
def SessionOp.perform : SessionOp → EStateM Error UndoSession Unit
  | insert row writerId => do
    let rowId ← onTable (Table.insert row writerId)
    record (.row (.insert rowId))
  | update rowId index value writerId => do
    let s ← EStateM.get
    if ← onTable (Table.update rowId index value writerId) then
      record (.row (.update rowId ((s.table.rowStore.get rowId).getD [])))
  | erase rowId writerId => do
    let s ← EStateM.get
    if ← onTable (Table.erase rowId writerId) then
      record (.row (.delete rowId ((s.table.rowStore.get rowId).getD [])))
  | addColumn column fill => do
    onTable (Table.addColumn column fill)
    record (.alterAddColumn column.name)
  | dropColumn columnName database cascade => do
    let capture ← onTable (Table.dropColumn columnName database cascade)
    record (.alterDropColumn capture)
  | renameColumn oldName newName => do
    onTable (Table.renameColumn oldName newName)
    record (.alterRenameColumn oldName newName)
  | createIndex name columns => discard (onTable (Table.createIndex name columns))
  | createExpressionIndex name expression =>
    discard (onTable (Table.createExpressionIndex name expression))
  | dropIndex name => discard (onTable (Table.dropIndex name))
  | ensureConstraintIndexes => onTable Table.ensureConstraintIndexes
  | undo database => do
    let s ← EStateM.get
    match s.undoLog with
    | [] => return ()
    | r :: log =>
      onTable (r.apply database)
      modify fun s => { s with undoLog := log }
  | commit => modify fun s => { s with undoLog := [] }

variable {u : Unit} {database : Option Database} {r : TableUndo} {schema : List Column}

namespace Table

variable {t o o' a a' : Table}

/-- A row of the width `n`, unchanged. -/
def SameRow (n : ℕ) (row row' : Row) : Prop := row.length = n ∧ row' = row

/-- The table `a` has the schema and the rows of `o`, and no constraint that `o` has not. -/
structure Restores (o a : Table) : Prop where
  schema : a.schema = o.schema
  rows : a.rowStore.get = o.rowStore.get
  carries : Carries o a (SameRow o.schema.length)

section Restores

theorem Carries.sameRow (h : Carries o a Eq) (n : ℕ) : Carries o a (SameRow n) :=
  h.mono fun _ _ hrow => hrow.2.symm

theorem Restores.refl (o : Table) : Restores o o :=
  ⟨rfl, rfl, (Carries.of_eq rfl rfl rfl).sameRow _⟩

theorem Restores.trans {o a a' : Table} (h : Restores o a) (h' : Restores a a') :
    Restores o a' where
  schema := h'.schema.trans h.schema
  rows := h'.rows.trans h.rows
  carries := (h.carries.trans h'.carries).mono fun row _ hrow =>
    ⟨row, ⟨hrow.1, rfl⟩, h.schema ▸ hrow.1, hrow.2⟩

theorem Restores.accepted (h : Restores o a) (ho : o.AllAccepted o.rowStore.get) :
    a.AllAccepted a.rowStore.get := by
  refine ho.carry h.carries fun i row hrow => ?_
  rw [h.rows] at hrow
  obtain ⟨hlen, hcells, -⟩ := validateRow_eq_ok.mp (ho i row hrow).valid
  rw [h.schema]
  exact ⟨row, hrow, ⟨hlen, rfl⟩, hlen, hcells⟩

theorem IndexChange.restores (h : IndexChange o a) : Restores o a := by
  have hcarries := h.carries.sameRow o.schema.length
  obtain ⟨m, rfl⟩ := h
  exact ⟨rfl, rfl, hcarries⟩

/-- A change of one slot leaves the schema and the constraints. -/
theorem SlotChange.carries {i : ℕ} {row : Option Row} {versions : MvccRowStore}
    (h : SlotChange o i row versions a) : a.schema = o.schema ∧ Carries o a Eq := by
  have hschema : a.schema = o.schema := by rw [h.rest]
  exact ⟨hschema, Carries.of_eq hschema (by rw [h.rest]) (by rw [h.rest])⟩

/-- A way back to the rows of `o` over changes that carry its constraints. -/
theorem Restores.of_back {R R' : Row → Row → Prop} (hchange : Carries o o' R) (h : Restores o' a)
    (hback : Carries a a' R') (hschema : a'.schema = o.schema)
    (hrows : a'.rowStore.get = o.rowStore.get)
    (hR : ∀ row, row.length = o.schema.length →
      ∃ row', R row row' ∧ row'.length = o'.schema.length ∧ R' row' row) : Restores o a' := by
  refine ⟨hschema, hrows, ((hchange.trans h.carries).trans hback).mono ?_⟩
  rintro row row₂ ⟨hlen, rfl⟩
  obtain ⟨row', hrow', hlen', hback'⟩ := hR row₂ hlen
  exact ⟨row', ⟨row', hrow', hlen', rfl⟩, hback'⟩

end Restores

/-- The changes with the records they leave. -/
inductive Change : Table → TableUndo → Table → Prop
  | insert {t t' : Table} {row : Row} {writerId i : ℕ}
      (h : Table.insert row writerId t = .ok i t') : Change t (.row (.insert i)) t'
  | update {t t' : Table} {rowId index writerId : ℕ} {value : Value}
      (h : Table.update rowId index value writerId t = .ok true t') :
      Change t (.row (.update rowId ((t.rowStore.get rowId).getD []))) t'
  | erase {t t' : Table} {rowId writerId : ℕ}
      (h : Table.erase rowId writerId t = .ok true t') :
      Change t (.row (.delete rowId ((t.rowStore.get rowId).getD []))) t'
  | addColumn {t t' : Table} {column : Column} {fill : Option Value} {u : Unit}
      (h : Table.addColumn column fill t = .ok u t') : Change t (.alterAddColumn column.name) t'
  | dropColumn {t t' : Table} {columnName : String} {database : Option Database} {cascade : Bool}
      {capture : DroppedColumnCapture}
      (h : Table.dropColumn columnName database cascade t = .ok capture t') :
      Change t (.alterDropColumn capture) t'
  | renameColumn {t t' : Table} {oldName newName : String} {u : Unit}
      (h : Table.renameColumn oldName newName t = .ok u t') :
      Change t (.alterRenameColumn oldName newName) t'

theorem Change.consistent (h : Change o r o') (ho : o.Consistent) : o'.Consistent := by
  cases h with
  | insert h => exact ho.insert h
  | update h => exact ho.update h
  | erase h => exact ho.erase h
  | addColumn h => exact ho.addColumn h
  | dropColumn h => exact ho.dropColumn h
  | renameColumn h => exact ho.renameColumn h

section Rows

theorem ifFalse_throw_eq_ok {x : EStateM Error Table Bool} {failed : Error}
    (h : (x >>= fun done => if !done then throw failed else pure ()) a = .ok u a') :
    x a = .ok true a' := by
  rw [bind_eq_ok] at h
  obtain ⟨done, a₁, hx, h⟩ := h
  simp only [ite_run, throw_apply, ite_error_eq_ok] at h
  obtain ⟨hdone, h⟩ := h
  obtain ⟨-, rfl⟩ := pure_eq_ok.mp h
  cases done with
  | true => exact hx
  | false => exact absurd rfl hdone

theorem SlotChange.restores {i : ℕ} {row row' : Option Row} {versions versions' : MvccRowStore}
    (hchange : SlotChange o i row versions o') (h : Restores o' a)
    (hback : SlotChange a i row' versions' a') (hrow : row' = o.rowStore.get i) :
    Restores o a' := by
  obtain ⟨hschema, hcarries⟩ := hchange.carries
  obtain ⟨hschema', hcarries'⟩ := hback.carries
  refine Restores.of_back hcarries h hcarries' (hschema'.trans (h.schema.trans hschema)) ?_
    fun row hlen => ⟨row, rfl, hschema ▸ hlen, rfl⟩
  rw [hback.get, h.rows, hchange.get, Function.update_idem, hrow, Function.update_eq_self]

/-- What the records of row changes restore. -/
theorem Change.undo_row (ho : o.Consistent) (ha : a.Consistent) {record : RowUndo}
    (hchange : Change o (.row record) o') (h : Restores o' a) (hundo : record.apply a = .ok u a') :
    Restores o a' ∧ a'.Current ∧ a'.versions.HasWidth a'.schema.length := by
  have hs := ha.current.rows.valid
  cases hchange with
  | insert hinsert =>
    obtain ⟨-, -, hfree, hslot⟩ := insert_eq_ok ho.current.rows.valid hinsert
    have hback := ifFalse_throw_eq_ok hundo
    rcases eraseDiscardingVersion_eq_ok hs hback with ⟨hfalse, -⟩ | ⟨-, -, hslot'⟩
    · cases hfalse
    refine ⟨hslot.restores h hslot' hfree.symm, ?_, ?_⟩
    · exact ha.current.slotChange (by simp) hslot'
    · rw [hslot'.carries.1, hslot'.rest]
      exact ha.versions.popLatestVersion _
  | update hupdate =>
    rcases update_eq_ok ho.current.rows.valid hupdate with
      ⟨hfalse, -⟩ | ⟨-, row, column, updated, hrow, -, -, hslot⟩
    · cases hfalse
    rw [hrow] at hundo
    have hback := ifFalse_throw_eq_ok hundo
    rcases replaceRow_eq_ok hs hback with ⟨hfalse, -⟩ | ⟨-, hvalid, -, -, hslot'⟩
    · cases hfalse
    refine ⟨hslot.restores h hslot' hrow.symm, ?_, ?_⟩
    · exact ha.current.slotChange (fun _ hstored =>
        Option.some.inj hstored ▸ length_of_validateRow hvalid) hslot'
    · rw [hslot'.carries.1, hslot'.rest]
      exact ha.versions.popLatestVersion _
  | erase herase =>
    rcases erase_eq_ok ho.current.rows.valid herase with ⟨hfalse, -⟩ | ⟨-, ⟨row, hrow⟩, hslot⟩
    · cases hfalse
    rw [hrow] at hundo
    have hback := ifFalse_throw_eq_ok hundo
    rcases revive_eq_ok hs hback with ⟨hfalse, -⟩ | ⟨-, hvalid, -, -, hslot'⟩
    · cases hfalse
    refine ⟨hslot.restores h hslot' hrow.symm, ?_, ?_⟩
    · exact ha.current.slotChange (fun _ hstored =>
        Option.some.inj hstored ▸ length_of_validateRow hvalid) hslot'
    · rw [hslot'.carries.1, hslot'.rest]
      exact ha.versions.clearLatestDeletedBy _

end Rows

section Columns

variable {column : Column}

theorem Rewritten.back {f g : ℕ × Row → Except Error Row} {s s₁ s₂ s₃ : PageRowStore}
    (h : Rewritten f s s₁) (heq : s₂.get = s₁.get) (h' : Rewritten g s₂ s₃)
    (hback : ∀ i row row₁ row₂, s.get i = some row → f (i, row) = .ok row₁ →
      g (i, row₁) = .ok row₂ → row₂ = row) : s₃.get = s.get := by
  funext i
  rcases hrow : s.get i with _ | row
  · exact h'.dead i (by rw [heq, h.dead i hrow])
  · obtain ⟨row₁, hok, hget⟩ := h.live i row hrow
    obtain ⟨row₂, hok', hget'⟩ := h'.live i row₁ (by rw [heq, hget])
    rw [hget', hback i row row₁ row₂ hrow hok hok']

theorem findColumn_append_self (hnew : findColumn schema column.name = none) :
    findColumn (schema ++ [column]) column.name = some schema.length := by
  refine findColumn_eq_some.mpr ⟨⟨column, by simp, rfl⟩, fun j hj other hother => ?_⟩
  rw [getElem?_append_left hj] at hother
  exact findColumn_eq_none.mp hnew other (mem_of_getElem? hother)

private theorem eraseIdx_append_singleton {α : Type} (l : List α) (a : α) :
    (l ++ [a]).eraseIdx l.length = l := by
  rw [eraseIdx_append_of_length_le le_rfl, Nat.sub_self, eraseIdx_cons_zero, append_nil]

variable {capture : DroppedColumnCapture}

/-- Dropping the column that was added restores the rows and the schema. -/
theorem restores_addColumn (ho : o.Consistent) (ha : a.Consistent)
    {fill : Option Value} (hchange : Table.addColumn column fill o = .ok u o') (h : Restores o' a)
    {cascade : Bool} (hundo : Table.dropColumn column.name database cascade a = .ok capture a') :
    Restores o a' := by
  obtain ⟨hvalid, hnew, -, s, hrows, ho'⟩ := addColumn_eq_ok ho.current.rows.valid hchange
  obtain ⟨hflag, -⟩ := validateNewColumn_eq_ok hvalid
  have hs := ha.current.rows.valid
  obtain ⟨index, _, _, _, hidx, -, -, -, s', _, _, _, _, hrows', -, -, -, -, ha'⟩ :=
    dropColumn_eq_ok hs hundo
  have hschema : o'.schema = o.schema ++ [column] := by rw [ho']
  have hschema' : a'.schema = a.schema.eraseIdx index := by rw [ha']
  obtain rfl : o.schema.length = index := by
    rw [columnIndex, h.schema, hschema, findColumn_append_self hnew] at hidx
    exact Option.some.inj hidx
  refine Restores.of_back
    (Carries.of_addColumn hflag hschema (by rw [ho']) (by rw [ho']) (fill.getD .null)) h
    (Carries.of_dropColumn ha.names hs hundo hidx hschema') ?_ ?_ fun row hlen => ?_
  · rw [hschema', h.schema, hschema, eraseIdx_append_singleton]
  · rw [ha']
    refine hrows.back ?_ hrows' fun i row row₁ row₂ hrow hok hok' => ?_
    · rw [h.rows, ho']
    · obtain rfl := Except.ok.inj hok
      rw [narrowRow_eq_ok hok', ← ho.current.rows.width i row hrow, eraseIdx_append_singleton]
  · refine ⟨_, ⟨hlen, rfl⟩, ?_, ?_⟩
    · rw [hschema, length_append, length_append, hlen]
      rfl
    · rw [← hlen, eraseIdx_append_singleton]

/-- What `restoreDroppedColumn` has done, up to the indexes and the foreign keys. -/
theorem restoreDroppedColumn_constraints (hs : a.rowStore.Valid)
    (h : restoreDroppedColumn capture a = .ok u a') :
    capture.columnIndex ≤ a.schema.length ∧ a.columnIndex capture.column.name = none ∧
      a'.schema = a.schema.insertIdx capture.columnIndex capture.column ∧
      a.versions.insertColumn capture.columnIndex capture.versionValues = .ok a'.versions ∧
      Rewritten (widenRow capture) a.rowStore a'.rowStore ∧
      (∀ check ∈ a'.checkConstraints,
        check ∈ a.checkConstraints ∨ check ∈ capture.droppedChecks) ∧
      ∀ key ∈ a'.uniqueConstraints, key ∈ a.uniqueConstraints ∨ key ∈ capture.droppedUniques := by
  obtain ⟨hrange, hnew, s, versions, a₁, a₂, m, hvers, hrows, ha₁, hdeps, -, rfl⟩ :=
    restoreDroppedColumn_eq_ok hs h
  refine ⟨hrange, hnew, ?_⟩
  cases hcascaded : capture.cascaded with
  | false =>
    rw [hcascaded] at hdeps
    obtain rfl : a₂ = a₁ := hdeps
    rw [ha₁]
    exact ⟨rfl, hvers, hrows, fun _ hcheck => Or.inl hcheck, fun _ hkey => Or.inl hkey⟩
  | true =>
    rw [hcascaded, if_pos rfl] at hdeps
    obtain ⟨a₃, a₄, ha₃, huser, hunique⟩ := restoreDependents_eq_ok hdeps
    obtain ⟨m₄, rfl⟩ : IndexChange a₃ a₄ := forM_ok_induction (fun _ _ _ _ _ hchange hstep =>
      hchange.trans (indexChange_restoreUserIndex hstep)) (IndexChange.refl a₃) huser
    obtain ⟨m₂, rfl⟩ : IndexChange _ a₂ := forM_ok_induction (fun _ _ _ _ _ hchange hstep =>
      hchange.trans (indexChange_ensureConstraintIndex hstep)) (IndexChange.refl _) hunique
    rw [ha₃, ha₁]
    exact ⟨rfl, hvers, hrows, fun _ hcheck => mem_append.mp hcheck, fun _ hkey =>
      (mem_append.mp hkey).imp_right fun hmem => (mem_filter.mp hmem).1⟩

/-- The values that `dropColumn` captured from the rows are put back. -/
theorem widenRow_narrowRow (hs : o.rowStore.Valid) {i index : ℕ}
    (hidx : capture.columnIndex = index)
    (hvalues : capture.heapValues =
      o.rowStore.liveEntries.map fun entry => (entry.1, entry.2.at index)) {row row₁ row₂ : Row}
    (hrow : o.rowStore.get i = some row) (hlt : index < row.length)
    (hnarrow : narrowRow index (i, row) = .ok row₁)
    (hwiden : widenRow capture (i, row₁) = .ok row₂) :
    row₂ = row := by
  obtain rfl := narrowRow_eq_ok hnarrow
  rw [widenRow] at hwiden
  split at hwiden
  · cases hwiden
  rename_i value hfind
  split_ifs at hwiden
  obtain rfl := Except.ok.inj hwiden
  have hid : value.1 = i := by simpa using find?_some hfind
  have hmem := mem_of_find?_eq_some hfind
  rw [hvalues] at hmem
  obtain ⟨⟨j, stored⟩, hentry, rfl⟩ := mem_map.mp hmem
  obtain rfl : j = i := hid
  obtain rfl : row = stored := by
    rw [PageRowStore.mem_liveEntries hs, hrow] at hentry
    exact Option.some.inj hentry
  have hat : row.at index = row[index] := by
    simp [Row.at, getD, getElem?_eq_getElem hlt]
  rw [hidx, hat]
  exact insertIdx_eraseIdx_getElem hlt

/-- The keys that go with a column were keys of the table. -/
theorem exists_key_of_mem_uniquesOn {key : UniqueConstraint}
    (hcol : column ∈ o.schema) (h : key ∈ o.uniquesOn column column.name) :
    ∃ key' ∈ o.allUniqueConstraints, key'.columns = key.columns := by
  have hdropped : key ∈ o.uniqueConstraints.filter (uniqueReferencesColumn · column.name) →
      ∃ key' ∈ o.allUniqueConstraints, key'.columns = key.columns := fun hmem =>
    ⟨key, mem_append_left _ (mem_filter.mp hmem).1, rfl⟩
  simp only [uniquesOn] at h
  split_ifs at h with hflag
  · rcases mem_append.mp h with hmem | hmem
    · exact hdropped hmem
    · obtain rfl := mem_singleton.mp hmem
      rw [Bool.and_eq_true, Bool.or_comm] at hflag
      exact exists_key_of_flag hcol hflag.1
  · exact hdropped h

/-- The constraints that stayed while a column was gone read in a row with the column back what they
read in the row before, and those that come back are constraints from before. -/
theorem Carries.of_restored {index : ℕ}
    (hgone : Carries o a fun row row' => row.length = o.schema.length ∧ row' = row.eraseIdx index)
    (hnew : a.columnIndex column.name = none)
    (hback : a'.schema = a.schema.insertIdx index column) (hschema : a'.schema = o.schema)
    (hchecks : ∀ check ∈ a'.checkConstraints,
      check ∈ a.checkConstraints ∨ check ∈ o.checkConstraints)
    (huniques : ∀ key ∈ a'.uniqueConstraints, key ∈ a.uniqueConstraints ∨
      ∃ key' ∈ o.allUniqueConstraints, key'.columns = key.columns) :
    Carries o a' (SameRow o.schema.length) := by
  have hlookup : a'.columnIndex = o.columnIndex := funext fun name => by
    rw [columnIndex, hschema, columnIndex]
  have hkept : ∀ name, ColumnKept a a' (fun row row' => row = row'.eraseIdx index) name name := by
    intro name
    by_cases hname : column.name = name
    · intro i hi
      rw [← hname, hnew] at hi
      cases hi
    · exact columnKept_insertIdx hback hname
  -- a key of `o` on the columns of a key of `a'` has the same places
  have hsame : ∀ key' : UniqueConstraint,
      (∃ key ∈ o.allUniqueConstraints, key.columns = key'.columns) →
      ∃ key ∈ o.allUniqueConstraints, ∀ indexes, o.Resolves key indexes →
        ∃ indexes', a'.Resolves key' indexes' ∧ ∀ row row', SameRow o.schema.length row row' →
          indexes'.map row'.at = indexes.map row.at := by
    rintro key' ⟨key, hkey, hcols⟩
    refine ⟨key, hkey, fun indexes hidxs => ⟨indexes, ⟨hidxs.1, ?_⟩, ?_⟩⟩
    · rw [hlookup, ← hcols]
      exact hidxs.2
    · rintro row _ ⟨-, rfl⟩
      rfl
  refine ⟨fun check' hcheck' => ?_, fun key' hkey' => ?_⟩
  · rcases hchecks check' hcheck' with hmem | hmem
    · obtain ⟨check, hcheck, htruth⟩ := hgone.checks check' hmem
      refine ⟨check, hcheck, ?_⟩
      rintro _ row ⟨hlen, rfl⟩ truth hok
      exact check_of_kept (fun name _ => hkept name) rfl (htruth _ _ ⟨hlen, rfl⟩ truth hok)
    · refine ⟨check', hmem, ?_⟩
      rintro row _ ⟨-, rfl⟩ truth hok
      rwa [hlookup]
  · rcases mem_allUniqueConstraints hkey' with hmem | ⟨column, hmem, hflag, hcols⟩
    · rcases huniques key' hmem with hmem | hmem
      · obtain ⟨key, hkey, hresolves⟩ := hgone.keys key' (mem_append_left _ hmem)
        refine ⟨key, hkey, fun indexes hidxs => ?_⟩
        obtain ⟨indexes₁, hidxs₁, hat₁⟩ := hresolves indexes hidxs
        obtain ⟨indexes₂, hidxs₂, hat₂⟩ :=
          resolves_of_kept (rfl : key'.columns = key'.columns) (fun name _ => hkept name) hidxs₁
        refine ⟨indexes₂, hidxs₂, ?_⟩
        rintro _ row ⟨hlen, rfl⟩
        rw [hat₂ _ _ rfl, hat₁ _ _ ⟨hlen, rfl⟩]
      · exact hsame key' hmem
    · rw [hschema] at hmem
      obtain ⟨key, hkey, hcols'⟩ := exists_key_of_flag hmem hflag
      exact hsame key' ⟨key, hkey, hcols'.trans hcols.symm⟩

/-- Restoring the column that was dropped restores the rows and the schema. -/
theorem restores_dropColumn (ho : o.Consistent) (ha : a.Consistent) {columnName : String}
    {cascade : Bool} (hchange : Table.dropColumn columnName database cascade o = .ok capture o')
    (h : Restores o' a) (hundo : restoreDroppedColumn capture a = .ok u a') : Restores o a' := by
  have hs := ho.current.rows.valid
  obtain ⟨index, column, dependents, _, hidx, hcol, hdeps, -, s, values, versions, _, _,
    hrows, -, -, -, hcapt, ho'⟩ := dropColumn_eq_ok hs hchange
  obtain ⟨-, hcapturedColumn, hcapturedIndex, -, hchecks, huniques⟩ := captureDependents_eq_ok hdeps
  obtain ⟨-, hnew, hback, -, hrows', hchecks', huniques'⟩ :=
    restoreDroppedColumn_constraints ha.current.rows.valid hundo
  have hvalues : capture.heapValues =
      o.rowStore.liveEntries.map fun entry => (entry.1, entry.2.at index) := by rw [hcapt]
  have hcaptureColumn : capture.column = column := by rw [hcapt, ← hcapturedColumn]
  have hcaptureIndex : capture.columnIndex = index := by rw [hcapt, ← hcapturedIndex]
  have hcaptureChecks : capture.droppedChecks = dependents.droppedChecks := by rw [hcapt]
  have hcaptureUniques : capture.droppedUniques = dependents.droppedUniques := by rw [hcapt]
  rw [hcaptureColumn, hcaptureIndex] at hback
  rw [hcaptureColumn] at hnew
  have hlt : index < o.schema.length := lt_length_of_findColumn hidx
  obtain rfl : o.schema[index] = column := by
    rw [hcol, getD_eq_getElem?_getD, getElem?_eq_getElem hlt, Option.getD_some]
  have hname : columnName = o.schema[index].name := by
    obtain ⟨⟨found, hfound, hname⟩, -⟩ := findColumn_eq_some.mp hidx
    rw [getElem?_eq_getElem hlt, Option.some.injEq] at hfound
    rw [hfound, hname]
  have hgone : o'.schema = o.schema.eraseIdx index := by rw [ho']
  have hschema : a'.schema = o.schema := by
    rw [hback, h.schema, hgone, insertIdx_eraseIdx_getElem hlt]
  refine ⟨hschema, hrows.back ?_ hrows' fun i row row₁ row₂ hrow hok hok' => ?_,
    Carries.of_restored ?_ hnew hback hschema (fun check hcheck => ?_) fun key hkey => ?_⟩
  · rw [h.rows, ho']
  · exact widenRow_narrowRow hs hcaptureIndex hvalues hrow
      (ho.current.rows.width i row hrow ▸ hlt) hok hok'
  · refine ((Carries.of_dropColumn ho.names hs hchange hidx hgone).trans h.carries).mono ?_
    rintro row _ ⟨hlen, rfl⟩
    refine ⟨row.eraseIdx index, rfl, ?_, rfl⟩
    rw [hgone, length_eraseIdx_of_lt hlt, length_eraseIdx_of_lt (hlen ▸ hlt), hlen]
  · refine (hchecks' check hcheck).imp_right fun hmem => ?_
    rw [hcaptureChecks, hchecks] at hmem
    exact (mem_filter.mp hmem).1
  · refine (huniques' key hkey).imp_right fun hmem => ?_
    rw [hcaptureUniques, huniques, hname] at hmem
    exact exists_key_of_mem_uniquesOn (getElem_mem hlt) hmem

theorem renameColumn_carries (ho : o.Consistent) {oldName newName : String}
    (hne : oldName ≠ newName) (h : Table.renameColumn oldName newName o = .ok u o') :
    ∃ index, o.columnIndex oldName = some index ∧ o.columnIndex newName = none ∧
      o'.schema = (o.schema.modify index fun column => { column with name := newName }) ∧
      o'.rowStore = o.rowStore ∧ Carries o o' Eq := by
  rcases renameColumn_eq_ok h with ⟨heq, -⟩ | ⟨index, -, hold, hnew, hrename⟩
  · exact absurd heq hne
  have hidxs : IndexChange (o.withRenamedColumn index oldName newName) o' :=
    forM_ok_induction (fun _ _ _ _ _ hchange hstep =>
      hchange.trans (indexChange_renameConstraintIndex hstep)) (IndexChange.refl _) hrename
  have hcarries := (Carries.of_withRenamedColumn ho.names hold hnew).trans hidxs.carries
  obtain ⟨m, rfl⟩ := hidxs
  exact ⟨index, hold, hnew, rfl, rfl, hcarries.mono fun row _ hrow => ⟨row, rfl, hrow⟩⟩

theorem modify_name_modify {index : ℕ} {oldName : String}
    (hold : findColumn schema oldName = some index) (newName : String) :
    ((schema.modify index fun column => { column with name := newName }).modify index
      fun column => { column with name := oldName }) = schema := by
  obtain ⟨⟨column, hcol, rfl⟩, -⟩ := findColumn_eq_some.mp hold
  refine ext_getElem? fun i => ?_
  rw [getElem?_modify, getElem?_modify]
  by_cases hi : index = i
  · subst hi
    simp [hcol]
  · simp [hi]

/-- Renaming the column back restores the rows and the schema. -/
theorem restores_renameColumn (ho : o.Consistent) (ha : a.Consistent) {oldName newName : String}
    {v : Unit} (hchange : Table.renameColumn oldName newName o = .ok u o') (h : Restores o' a)
    (hundo : Table.renameColumn newName oldName a = .ok v a') : Restores o a' := by
  by_cases hne : oldName = newName
  · -- both calls do nothing
    rcases renameColumn_eq_ok hchange with ⟨-, rfl⟩ | ⟨_, hne', -⟩
    · rcases renameColumn_eq_ok hundo with ⟨-, rfl⟩ | ⟨_, hne', -⟩
      · exact h
      · exact absurd hne.symm hne'
    · exact absurd hne hne'
  obtain ⟨index, hold, hnew, hschema, hstore, hcarries⟩ := renameColumn_carries ho hne hchange
  obtain ⟨index', hold', -, hschema', hstore', hcarries'⟩ :=
    renameColumn_carries ha (Ne.symm hne) hundo
  obtain rfl : index = index' := by
    have hfind := findColumn_modify hold hnew hold
    rw [renameName, if_pos rfl, ← hschema, ← h.schema] at hfind
    exact Option.mem_unique hfind hold'
  refine Restores.of_back hcarries h hcarries' ?_ ?_ fun row hlen => ⟨row, rfl, ?_, rfl⟩
  · rw [hschema', h.schema, hschema, modify_name_modify hold]
  · rw [hstore', h.rows, hstore]
  · rw [hschema, length_modify, hlen]

theorem rethrow_eq_ok {α : Type} {context : String} {x : EStateM Error Table α} {b : α}
    (h : rethrow context x a = .ok b a') : x a = .ok b a' := by
  rw [rethrow] at h
  split at h
  · rename_i hx
    rw [hx]
    exact h
  · cases h

end Columns

/-- Applied where the table after the change is restored, a record restores the table before it. -/
theorem Change.undo (ho : o.Consistent) (ha : a.Consistent) (hchange : Change o r o')
    (h : Restores o' a) (hundo : r.apply database a = .ok u a') :
    Restores o a' ∧ a'.Current ∧ a'.versions.HasWidth a'.schema.length := by
  cases r with
  | row record => exact hchange.undo_row ho ha h hundo
  | alterAddColumn name =>
    cases hchange with
    | addColumn hadd =>
      obtain ⟨capture, hdrop⟩ := discard_eq_ok.mp (rethrow_eq_ok hundo)
      have ha' := ha.dropColumn hdrop
      exact ⟨restores_addColumn ho ha hadd h hdrop, ha'.current, ha'.versions⟩
  | alterDropColumn capture =>
    cases hchange with
    | dropColumn hdrop =>
      have hrestore := rethrow_eq_ok hundo
      obtain ⟨hrange, -, hschema, hvers, -⟩ :=
        restoreDroppedColumn_constraints ha.current.rows.valid hrestore
      refine ⟨restores_dropColumn ho ha hdrop h hrestore, ha.current.restoreDroppedColumn hrestore,
        ?_⟩
      rw [hschema, length_insertIdx_of_le_length hrange]
      exact ha.versions.insertColumn hvers
  | alterRenameColumn name renameTo =>
    cases hchange with
    | renameColumn hrename =>
      have hback := rethrow_eq_ok hundo
      have ha' := ha.renameColumn hback
      exact ⟨restores_renameColumn ho ha hrename h hback, ha'.current, ha'.versions⟩

end Table

namespace UndoSession

variable {s s' : UndoSession} {t : Table}

/-- The table is consistent, and its log leads back through consistent tables. -/
structure Kept (s : UndoSession) : Prop where
  consistent : s.table.Consistent
  log : UndoLog.Undoes (fun o r o' => o.Consistent ∧ Table.Change o r o')
    Table.Restores s.table s.undoLog

theorem onTable_eq_ok {α : Type} {x : EStateM Error Table α} {b : α} :
    onTable x s = .ok b s' ↔ ∃ t, x s.table = .ok b t ∧ s' = { s with table := t } :=
  zoom_eq_ok

theorem Kept.change (hs : s.Kept) (h : Table.Change s.table r t) :
    Kept { table := t, undoLog := r :: s.undoLog } :=
  ⟨h.consistent hs.consistent, hs.log.push Table.Restores.refl ⟨hs.consistent, h⟩⟩

theorem Kept.indexChange (hs : s.Kept) (h : Table.IndexChange s.table t)
    (hcur : t.Current) : Kept { s with table := t } :=
  ⟨h.consistent hs.consistent hcur, hs.log.restores (fun _ _ _ => Table.Restores.trans) h.restores⟩

theorem Kept.undo (hs : s.Kept) {log : List TableUndo} (hlog : s.undoLog = r :: log)
    (h : r.apply database s.table = .ok u t) :
    Kept { table := t, undoLog := log } := by
  have hundoes := hs.log
  rw [hlog] at hundoes
  obtain ⟨o, o', ⟨ho, hchange⟩, hrestored, hrest⟩ := hundoes.pop fun _ _ _ => Table.Restores.trans
  obtain ⟨hback, hcur, hvers⟩ := hchange.undo ho hs.consistent hrestored h
  exact ⟨⟨hcur, hback.schema ▸ ho.names, hback.accepted ho.accepted, hvers⟩, hrest hback⟩

/-- Every call that returns keeps the table consistent and its log good. -/
theorem Kept.perform (hs : s.Kept) {op : SessionOp} (h : op.perform s = .ok u s') :
    s'.Kept := by
  cases op with
  | insert row writerId =>
    obtain ⟨i, _, hcall, h⟩ := bind_eq_ok.mp h
    obtain ⟨t, hinsert, rfl⟩ := onTable_eq_ok.mp hcall
    exact (EStateM.Result.ok.inj h).2 ▸ hs.change (.insert hinsert)
  | update rowId index value writerId =>
    rw [SessionOp.perform, get_bind] at h
    obtain ⟨done, _, hcall, h⟩ := bind_eq_ok.mp h
    obtain ⟨t, hupdate, rfl⟩ := onTable_eq_ok.mp hcall
    cases done with
    | true => exact (EStateM.Result.ok.inj h).2 ▸ hs.change (.update hupdate)
    | false =>
      obtain rfl := (EStateM.Result.ok.inj h).2
      rcases Table.update_eq_ok hs.consistent.current.rows.valid hupdate with
        ⟨-, rfl⟩ | ⟨htrue, -⟩
      · exact hs
      · cases htrue
  | erase rowId writerId =>
    rw [SessionOp.perform, get_bind] at h
    obtain ⟨done, _, hcall, h⟩ := bind_eq_ok.mp h
    obtain ⟨t, herase, rfl⟩ := onTable_eq_ok.mp hcall
    cases done with
    | true => exact (EStateM.Result.ok.inj h).2 ▸ hs.change (.erase herase)
    | false =>
      obtain rfl := (EStateM.Result.ok.inj h).2
      rcases Table.erase_eq_ok hs.consistent.current.rows.valid herase with ⟨-, rfl⟩ | ⟨htrue, -⟩
      · exact hs
      · cases htrue
  | addColumn column fill =>
    obtain ⟨_, _, hcall, h⟩ := bind_eq_ok.mp h
    obtain ⟨t, hadd, rfl⟩ := onTable_eq_ok.mp hcall
    exact (EStateM.Result.ok.inj h).2 ▸ hs.change (.addColumn hadd)
  | dropColumn columnName database cascade =>
    obtain ⟨capture, _, hcall, h⟩ := bind_eq_ok.mp h
    obtain ⟨t, hdrop, rfl⟩ := onTable_eq_ok.mp hcall
    exact (EStateM.Result.ok.inj h).2 ▸ hs.change (.dropColumn hdrop)
  | renameColumn oldName newName =>
    obtain ⟨_, _, hcall, h⟩ := bind_eq_ok.mp h
    obtain ⟨t, hrename, rfl⟩ := onTable_eq_ok.mp hcall
    exact (EStateM.Result.ok.inj h).2 ▸ hs.change (.renameColumn hrename)
  | createIndex name columns =>
    obtain ⟨done, hcall⟩ := discard_eq_ok.mp h
    obtain ⟨t, hcreate, rfl⟩ := onTable_eq_ok.mp hcall
    exact hs.indexChange (Table.indexChange_createIndex hcreate)
      (hs.consistent.current.createIndex hcreate)
  | createExpressionIndex name expression =>
    obtain ⟨done, hcall⟩ := discard_eq_ok.mp h
    obtain ⟨t, hcreate, rfl⟩ := onTable_eq_ok.mp hcall
    exact hs.indexChange (Table.indexChange_createExpressionIndex hcreate)
      (hs.consistent.current.createExpressionIndex hcreate)
  | dropIndex name =>
    obtain ⟨done, hcall⟩ := discard_eq_ok.mp h
    obtain ⟨t, hdrop, rfl⟩ := onTable_eq_ok.mp hcall
    exact hs.indexChange (Table.indexChange_dropIndex hdrop) (hs.consistent.current.perform
      (show TableOp.perform (.dropIndex name) s.table = .ok ⟨⟩ t from discard_eq_ok.mpr ⟨_, hdrop⟩))
  | ensureConstraintIndexes =>
    obtain ⟨t, hensure, rfl⟩ := onTable_eq_ok.mp h
    exact hs.indexChange (Table.indexChange_ensureConstraintIndexes hensure)
      (hs.consistent.current.perform
        (show TableOp.perform .ensureConstraintIndexes s.table = .ok ⟨⟩ t from hensure))
  | undo database =>
    rw [SessionOp.perform, get_bind] at h
    rcases hlog : s.undoLog with _ | ⟨r, log⟩
    · rw [hlog] at h
      exact (EStateM.Result.ok.inj h).2 ▸ hs
    · rw [hlog] at h
      obtain ⟨_, _, hcall, h⟩ := bind_eq_ok.mp h
      obtain ⟨t, happly, rfl⟩ := onTable_eq_ok.mp hcall
      exact (EStateM.Result.ok.inj h).2 ▸ hs.undo hlog happly
  | commit => exact (EStateM.Result.ok.inj h).2 ▸ ⟨hs.consistent, .nil _⟩

theorem kept_of_construct {name : String} {checks : List CheckPredicate}
    {foreignKeys : List ForeignKeyConstraint} {uniques : List UniqueConstraint}
    (h : Table.construct name schema checks foreignKeys uniques = .ok t)
    (hnames : (schema.map Column.name).Nodup) : Kept { table := t } := by
  have hcur := Table.current_of_construct h
  obtain ⟨_, schema', -, happly, -, rfl⟩ := Table.construct_eq_ok h
  refine ⟨⟨hcur, ?_, fun i row hrow => ?_, fun i version hver => ?_⟩, .nil _⟩
  · rw [Table.DistinctNames, (Table.applyUniqueConstraints_eq_ok happly).1]
    exact hnames
  · simp [PageRowStore.get] at hrow
  · simp [MvccRowStore.chain] at hver

end UndoSession

/-- In a run from a new table whose columns have distinct names, the live rows keep the constraints
of the table and the versions its width. -/
theorem keepsConstraints_of_run {name : String} {schema : List Column}
    {checks : List CheckPredicate} {foreignKeys : List ForeignKeyConstraint}
    {uniques : List UniqueConstraint} {t₀ : Table}
    (hnew : Table.construct name schema checks foreignKeys uniques = .ok t₀)
    (hnames : (schema.map Column.name).Nodup) {ops : List SessionOp} {u : PUnit} {s : UndoSession}
    (hrun : forM ops SessionOp.perform { table := t₀ } = .ok u s) : s.table.KeepsConstraints :=
  (forM_ok_induction (P := UndoSession.Kept) (fun _ _ _ _ _ hs hstep => hs.perform hstep)
    (UndoSession.kept_of_construct hnew hnames) hrun).consistent.keepsConstraints

/-- A table with two columns of the type INT, the second one UNIQUE. -/
def uniqueTable (first second : String) (checks : List CheckPredicate) : Table where
  name := "t"
  schema := [{ name := first, type := .int }, { name := second, type := .int, unique := true }]
  checkConstraints := checks

/-- The column `b` is greater than 0. -/
def positiveB : CheckPredicate := .comparison { column := "b", op := .greater, value := .int 0 }

/-- The column `b` is dropped with its key and its CHECK while the table has a row, and comes
back. -/
def dropAndUndo : List SessionOp :=
  [.ensureConstraintIndexes, .insert [.int 1, .int 5] 0, .dropColumn "b" none true,
    .insert [.int 2] 0, .undo none, .undo none, .insert [.int 2, .int 6] 0]

theorem keepsConstraints_dropAndUndo : ∃ s : UndoSession,
    Table.construct "t" (uniqueTable "a" "b" []).schema [positiveB] [] [] =
      .ok (uniqueTable "a" "b" [positiveB]) ∧
    ((uniqueTable "a" "b" []).schema.map Column.name).Nodup ∧
    forM dropAndUndo SessionOp.perform { table := uniqueTable "a" "b" [positiveB] } = .ok ⟨⟩ s ∧
    s.table.KeepsConstraints := by
  have hruns : Returns (forM dropAndUndo SessionOp.perform)
      { table := uniqueTable "a" "b" [positiveB] } fun _ _ => True := by
    decide +kernel
  obtain ⟨_, s, hrun, -⟩ := hruns
  have hnew : Table.construct "t" (uniqueTable "a" "b" []).schema [positiveB] [] [] =
      .ok (uniqueTable "a" "b" [positiveB]) := rfl
  have hnames : ((uniqueTable "a" "b" []).schema.map Column.name).Nodup := by decide
  exact ⟨s, hnew, hnames, hrun, keepsConstraints_of_run hnew hnames hrun⟩

/-- Two rows that differ in the first column, which is dropped. -/
def dropFirst : List SessionOp :=
  [.insert [.int 1, .int 5] 0, .insert [.int 2, .int 5] 0, .dropColumn "a" none false]

/-- With two columns of one name the key of the second is checked on the first: once that is gone,
the rows agree on the key. -/
theorem not_keepsConstraints_dropFirst : ∃ s : UndoSession,
    Table.construct "t" (uniqueTable "a" "a" []).schema [] [] [] = .ok (uniqueTable "a" "a" []) ∧
    forM dropFirst SessionOp.perform { table := uniqueTable "a" "a" [] } = .ok ⟨⟩ s ∧
    ¬s.table.KeepsConstraints := by
  have hruns : Returns (forM dropFirst SessionOp.perform) { table := uniqueTable "a" "a" [] }
      fun _ s => s.table.rowStore.get 0 = some [.int 5] ∧ s.table.rowStore.get 1 = some [.int 5] ∧
        { columns := ["a"], primaryKey := false } ∈ s.table.allUniqueConstraints ∧
        s.table.columnIndex "a" = some 0 := by
    decide +kernel
  obtain ⟨_, s, hrun, hfirst, hsecond, hkey, hcol⟩ := hruns
  refine ⟨s, rfl, hrun, fun h => ?_⟩
  obtain ⟨j, hj, hdiffers⟩ := h.keys 0 [.int 5] 1 [.int 5] hfirst hsecond (by decide) _ hkey [0]
    ⟨by decide, by simp [hcol]⟩
  obtain rfl := mem_singleton.mp hj
  revert hdiffers
  decide

end VertexDB
