import VertexDB.Execution.LoggedChanges
import VertexDB.Execution.ScanCorrect
import VertexDB.Lib.PostOrder
import VertexDB.Transaction.Interleaving

/-!
# DELETE along CASCADE keys

`eraseRowWithReferentialActions` erases a row after the rows that refer to it. Its sets `visiting`
and `deleted` are the marks of a removal in post-order over the relation of reference between rows,
and a run of it is such a removal: every level reads the rows that are still there, by an index or
by a scan, and what was erased before is missing there. So a DELETE whose rows are referred to by
CASCADE keys only erases what refers to its targets, directly or through others, and nothing else.

## Main definitions

* `Database.References`: a row refers to another one.
* `Engine.Edited`, `Engine.Without`: the rows in `removed` are gone from the tables.
* `Engine.RemovesOrStops`: a run is a removal in post-order, or throws at the depth limit.

## Main results

* `Engine.removesOrStops_eraseRow`: `eraseRowWithReferentialActions` is such a run.
* `Engine.executeDelete_removes`: what the DELETE leaves.
-/

namespace VertexDB

open Exec TransactionManager Database List MvccRowStore

/-! ### The rows that refer to a key -/

section Children

variable {t t' : Table}

theorem keyFromRow_congr (h : t.SameRules t') : keyFromRow t' = keyFromRow t := by
  funext row columns
  rw [keyFromRow, h.columnIndex, keyFromRow]

theorem rowMatchesKey_congr (h : t.SameRules t') : rowMatchesKey t' = rowMatchesKey t := by
  funext row columns key
  rw [rowMatchesKey, keyFromRow_congr h, rowMatchesKey]

/-- The key of a row in the columns of an index. -/
theorem keyFromRow_eq (row : Row) {columns : List String} {indexes : List ℕ} {key : Value}
    (hcols : columns.map t.columnIndex = indexes.map some)
    (hkey : Value.makeComposite (indexes.map row.at) = .ok key) :
    keyFromRow t row columns = some key := by
  rw [keyFromRow, mapM_eq_some.mpr hcols, Option.map_some]
  rcases indexes with _ | ⟨i, _ | ⟨j, indexes⟩⟩
  · cases hkey
  · exact congrArg some (Except.ok.inj hkey)
  · exact congrArg some (Except.ok.inj hkey)

/-- The rows of the heap are the ones that the snapshot sees. -/
def Table.Mirrors (t : Table) (snapshot : ReadSnapshot) (transactions : TransactionManager) :
    Prop :=
  ∀ r, t.versions.read r snapshot transactions = t.rowStore.get r

theorem Table.Tracked.mirrors {snapshot : ReadSnapshot} {transactions : TransactionManager}
    (h : t.Tracked fun id => transactions.isCreatorVisible id snapshot = true) :
    t.Mirrors snapshot transactions :=
  fun r => (h r).readChain_eq

/-- The children of a key are the rows with this key, whether an index finds them or a scan. -/
theorem mem_visibleChildrenForKey_iff (ht : t.Searchable) {snapshot : ReadSnapshot}
    {transactions : TransactionManager} (hmirrors : t.Mirrors snapshot transactions)
    {columns : List String} {key : Value} (hnull : keyHasNullPart key = false) {r : ℕ} {row : Row} :
    (r, row) ∈ visibleChildrenForKey snapshot transactions t columns key ↔
      t.rowStore.get r = some row ∧ rowMatchesKey t row columns key = true := by
  unfold visibleChildrenForKey Table.indexedLookup IndexManager.indexedLookup
  cases hname : t.indexManager.columnIndexName columns t.schema with
  | none =>
    simp only [Option.map_none, mem_filter, Table.visibleEntries,
      mem_visibleEntries, hmirrors r, hnull]
    simp
  | some name =>
    obtain ⟨indexes, hcol, hexpr, hnames⟩ := Table.columnIndexName_eq_some hname
    have hcols : columns.map t.columnIndex = indexes.map some := by
      rw [← hnames, map_map]
      exact map_congr_left fun i hi => ht.canonical name indexes hcol i hi
    have hkeys : name ∈ t.indexManager.indexColumns := by
      rw [Std.ExtTreeMap.mem_iff_isSome_getElem?, hcol]
      rfl
    have hmem : name ∈ t.indexManager.indexes := (ht.indexes.mem_indexes name).mpr hkeys
    simp only [Option.map_some, mem_visibleEntriesById, hmirrors r,
      ht.indexes.mem_find name hmem]
    have hiff : ∀ row, t.rowStore.get r = some row →
        (t.indexManager.HasKey name row t.schema key ↔ rowMatchesKey t row columns key = true) := by
      intro row hrow
      have hok := ht.indexes.indexable r row hrow name (Std.ExtTreeMap.mem_keys.mpr hkeys)
      rw [IndexManager.indexKeyForRow, hexpr, hcol] at hok
      cases hk : Value.makeComposite (indexes.map row.at) with
      | error e => simp [hk, Except.isOk, Except.toBool] at hok
      | ok k => rw [Table.hasKey_iff hcol hexpr hk, rowMatchesKey, keyFromRow_eq row hcols hk]
    constructor
    · rintro ⟨⟨other, hother, hhas⟩, hrow⟩
      obtain rfl := Option.mem_unique hother hrow
      exact ⟨hrow, (hiff _ hrow).mp hhas⟩
    · rintro ⟨hrow, hmatch⟩
      exact ⟨⟨row, hrow, (hiff row hrow).mpr hmatch⟩, hrow⟩

theorem affectedKey_none_eq_some {row : Row} {fk : ForeignKeyConstraint} {key : Value} :
    affectedKey t row none fk = some key ↔ fk.parentTable = t.name ∧
      keyFromRow t row fk.parentColumns = some key ∧ keyHasNullPart key = false := by
  unfold affectedKey
  by_cases hname : fk.parentTable = t.name
  · rw [if_neg (not_not_intro hname)]
    cases hkey : keyFromRow t row fk.parentColumns with
    | none => simp
    | some old =>
      cases hnull : keyHasNullPart old
      · simp only [hnull, Bool.false_eq_true, if_false, Option.some.injEq]
        exact ⟨fun h => ⟨hname, h, h ▸ hnull⟩, fun h => h.2.1⟩
      · simp only [hnull, if_true, reduceCtorEq, Option.some.injEq, false_iff, not_and]
        rintro - rfl
        simp [hnull]
  · simp [hname]

end Children

namespace Database

/-- The row `child` refers to the row `parent` by the foreign key `fk` of its table: the key of the
parent row has no NULL and is the key of the child row. -/
def RefersBy (db : Database) (fk : ForeignKeyConstraint) (parent child : String × ℕ) : Prop :=
  ∃ (i j : ℕ) (p c : Table) (row row' : Row) (key : Value), db.table parent.1 = some (i, p) ∧
    db.table child.1 = some (j, c) ∧ p.rowStore.get parent.2 = some row ∧
    c.rowStore.get child.2 = some row' ∧ fk ∈ c.foreignKeys ∧ fk.parentTable = parent.1 ∧
    keyFromRow p row fk.parentColumns = some key ∧ keyHasNullPart key = false ∧
    rowMatchesKey c row' fk.childColumns key = true

/-- The row `child` refers to the row `parent`. -/
def References (db : Database) (parent child : String × ℕ) : Prop :=
  ∃ fk, db.RefersBy fk parent child

/-- The row of a node, when it is one of a table of the database. -/
def Entry (db : Database) (node : String × ℕ) (id : ℕ) (row : Row) : Prop :=
  ∃ t : Table, db.table node.1 = some (id, t) ∧ t.rowStore.get node.2 = some row

end Database

/-! ### The state during a DELETE -/

namespace Engine

variable {s s₀ s' : Engine}

/-- The transactions whose writes the statement sees. -/
def Sees (s : Engine) (id : ℕ) : Prop := s.transactions.isCreatorVisible id s.readSnapshot = true

/-- The records of the write-ahead log that the statement appends to. -/
def redoLog (s : Engine) : List PendingWalRecord :=
  if s.transactionActive then s.session.pendingWal else s.wal

/-- The tables are in the catalog under their own names, their indexes answer for the heap, and the
rows of the heap are those that the statement sees. -/
structure Steady (s : Engine) : Prop where
  transactions : s.transactions.Valid
  session : (s.session.activeTransaction = none ∧ s.session.activeSnapshot = none) ∨
    ∃ snapshot : ReadSnapshot, s.session.activeTransaction = some snapshot.self ∧
      s.session.activeSnapshot = some snapshot
  named : ∀ name id, s.database.catalog[name]? = some id →
    ∃ t : Table, s.database.objects[id]? = some t ∧ t.name = name
  searchable : ∀ name id t, s.database.table name = some (id, t) → t.Searchable
  tracked : ∀ name id t, s.database.table name = some (id, t) → t.Tracked s.Sees

theorem Steady.name_eq (hs : s.Steady) {name : String} {id : ℕ} {t : Table}
    (h : s.database.table name = some (id, t)) : t.name = name := by
  obtain ⟨hcatalog, hobject⟩ := table_eq_some.mp h
  obtain ⟨t', hobject', hname⟩ := hs.named name id hcatalog
  rw [hobject, Option.some.injEq] at hobject'
  exact hobject' ▸ hname

theorem Steady.mem_tables (hs : s.Steady) {id : ℕ} {t : Table} :
    (id, t) ∈ s.database.tables ↔ s.database.table t.name = some (id, t) := by
  rw [Database.mem_tables, Database.table_eq_some]
  refine and_congr_left fun hobject => ⟨?_, fun h => ⟨t.name, h⟩⟩
  rintro ⟨name, hcatalog⟩
  rwa [hs.name_eq (Database.table_eq_some.mpr ⟨hcatalog, hobject⟩)]

/-- A statement gets the id of a transaction that it sees from then on. It goes on seeing what it
saw, also by the snapshot it took before. -/
theorem Steady.writeTransactionId (hs : s.Steady) :
    ∃ writerId m, Engine.writeTransactionId s = .ok writerId { s with transactions := m } ∧
      ({ s with transactions := m } : Engine).Steady ∧
      ({ s with transactions := m } : Engine).Sees writerId ∧
      (∀ id, s.Sees id → ({ s with transactions := m } : Engine).Sees id) ∧
      ∀ id, s.Sees id → m.isCreatorVisible id s.readSnapshot = true := by
  rcases hs.session with ⟨hnone, hsnap⟩ | ⟨snapshot, hsome, hsnap⟩
  · have hprecedes := precedes_autocommitted hs.transactions
    have hread : s.readSnapshot = s.transactions.currentSnapshot := by
      rw [readSnapshot, hsnap, Option.getD_none]
    have hread' : ({ s with transactions := s.transactions.autocommitted } : Engine).readSnapshot =
        s.transactions.autocommitted.currentSnapshot := by
      rw [readSnapshot, hsnap, Option.getD_none]
    have hsees : ∀ id, s.Sees id →
        ({ s with transactions := s.transactions.autocommitted } : Engine).Sees id :=
          fun id hid => by
      rw [Sees, hread] at hid
      rw [Sees, hread']
      exact hprecedes.isCreatorVisible_currentSnapshot hid
    refine ⟨s.transactions.nextId, s.transactions.autocommitted, ?_,
      ⟨valid_autocommitted hs.transactions, hs.session, hs.named, hs.searchable,
        fun name id t ht => (hs.tracked name id t ht).mono hsees⟩, ?_, hsees,
      fun id hid => hprecedes.isCreatorVisible hid⟩
    · rw [Engine.writeTransactionId, get_bind, hnone]
      exact zoom_of_ok (beginCommitted_ok hs.transactions)
    · rw [Sees, hread']
      exact (settled_markCommitted _ s.transactions.begin.1).isCreatorVisible
  · refine ⟨snapshot.self, s.transactions, ?_, hs, ?_, fun id hid => hid, fun id hid => hid⟩
    · rw [Engine.writeTransactionId, get_bind, hsome]
      rfl
    · have hread : s.readSnapshot = snapshot := by
        rw [readSnapshot, hsnap, Option.getD_some]
      show s.Sees _
      rw [Sees, hread, isCreatorVisible_iff]
      exact Or.inr (Or.inl rfl)

/-- Every table is sound. -/
def AllSound (s : Engine) : Prop :=
  ∀ name id t, s.database.table name = some (id, t) → t.Sound

/-- The state `s` has the tables of `s₀` without the rows `removed` and with the other rows
edited. -/
structure Edited (s₀ s : Engine) (removed : List (String × ℕ)) (edit : String × ℕ → Row → Row) :
    Prop where
  steady : s.Steady
  catalog : s.database.catalog = s₀.database.catalog
  session : s₀.SameSession s
  tables : ∀ name id t₀, s₀.database.table name = some (id, t₀) →
    ∃ t : Table, s.database.table name = some (id, t) ∧ t₀.SameDefinition t ∧
      ∀ r, t.rowStore.get r =
        if (name, r) ∈ removed then none else (t₀.rowStore.get r).map (edit (name, r))

/-- The state `s` has the tables of `s₀` without the rows `removed`, and the log has one redo record
more for each of them. -/
structure Without (s₀ s : Engine) (removed : List (String × ℕ)) : Prop
    extends Edited s₀ s removed fun _ row => row where
  redo : s.redoLog.length = s₀.redoLog.length + removed.length

theorem Edited.exists_table (hs₀ : s₀.Steady) {removed : List (String × ℕ)}
    {edit : String × ℕ → Row → Row} (h : s₀.Edited s removed edit) {name : String} {id : ℕ}
    {t : Table} (ht : s.database.table name = some (id, t)) :
    ∃ t₀ : Table, s₀.database.table name = some (id, t₀) ∧ t₀.SameDefinition t ∧
      ∀ r, t.rowStore.get r =
        if (name, r) ∈ removed then none else (t₀.rowStore.get r).map (edit (name, r)) := by
  obtain ⟨hcatalog, -⟩ := table_eq_some.mp ht
  rw [h.catalog] at hcatalog
  obtain ⟨t₀, hobject₀, -⟩ := hs₀.named _ _ hcatalog
  have ht₀ := table_eq_some.mpr ⟨hcatalog, hobject₀⟩
  obtain ⟨t', ht', hsame, hrows⟩ := h.tables _ _ t₀ ht₀
  obtain ⟨-, rfl⟩ := table_unique ht' ht
  exact ⟨t₀, ht₀, hsame, hrows⟩

theorem Edited.refl (hs : s.Steady) : s.Edited s [] fun _ row => row :=
  ⟨hs, rfl, ⟨rfl, rfl⟩, fun _ _ t h => ⟨t, h, .refl t, fun _ => by simp⟩⟩

theorem Without.refl (hs : s.Steady) : s.Without s [] := ⟨.refl hs, rfl⟩

theorem length_redoLog_logged {id : ℕ} {t : Table} (hobject : s.database.objects[id]? = some t)
    (access : TableAccess) (undo : UndoRecord) (redoName : String) :
    (s.logged id access undo redoName).redoLog.length = s.redoLog.length + 1 := by
  rw [logged_eq hobject, appendWal_eq, withUndo_eq]
  cases hactive : s.session.activeTransaction <;> simp [redoLog, transactionActive, hactive]

/-- What a statement sees does not depend on the records of conflicts. -/
theorem sees_of_recorded (hsnap : s'.session.activeSnapshot = s.session.activeSnapshot)
    (hrecorded : s.transactions.Recorded s'.transactions) : s'.Sees = s.Sees := by
  have hread : s'.readSnapshot = s.readSnapshot := by
    rw [readSnapshot, readSnapshot, hsnap, currentSnapshot, hrecorded.nextCommitSeq]
    rfl
  funext id
  rw [Sees, Sees, hread, hrecorded.isCreatorVisible]

theorem sees_logged {id : ℕ} {t : Table} (hobject : s.database.objects[id]? = some t)
    {access : TableAccess} (hrecorded : s.transactions.Recorded access.transactions)
    (undo : UndoRecord) (redoName : String) : (s.logged id access undo redoName).Sees = s.Sees :=
  sees_of_recorded (sameSession_logged hobject access undo redoName).2
    (transactions_logged hobject access undo redoName ▸ hrecorded)

variable {removed : List (String × ℕ)} {name : String} {id r : ℕ} {t₀ : Table} {row : Row}

theorem table_setObject {db : Database} {t t' : Table} (hobject : db.objects[id]? = some t)
    (name : String) : (db.setObject id t').table name =
      (db.table name).map fun entry => if id = entry.1 then (id, t') else entry := by
  cases hcatalog : db.catalog[name]? with
  | none => simp [table, hcatalog]
  | some j =>
    have hset := getElem?_setObject hobject t' j
    simp only [table, catalog_setObject, hcatalog, hset, bind, Option.bind]
    by_cases hj : id = j
    · subst hj
      simp [hobject]
    · cases db.objects[j]? <;> simp [hj]

/-- A property of the tables of a database, after an object was replaced. -/
theorem forall_table_setObject {db db' : Database} {t t' : Table}
    (hobject : db.objects[id]? = some t)
    (hdb : db' = db.setObject id t') {P : Table → Prop} (hnew : P t')
    (hold : ∀ (name : String) (j : ℕ) (u : Table), db.table name = some (j, u) → P u)
    (name : String) (j : ℕ) (u : Table) (hu : db'.table name = some (j, u)) : P u := by
  rw [hdb, table_setObject hobject, Option.map_eq_some_iff] at hu
  obtain ⟨⟨i, u'⟩, hu', heq⟩ := hu
  split_ifs at heq
  · obtain ⟨-, rfl⟩ := Prod.mk.inj heq
    exact hnew
  · obtain ⟨-, rfl⟩ := Prod.mk.inj heq
    exact hold name i u' hu'

/-- An object is replaced by a table of the same name. -/
theorem Steady.of_setObject (hs : s.Steady) {t t' : Table}
    (hobject : s.database.objects[id]? = some t) (hdb : s'.database = s.database.setObject id t')
    (hname : t'.name = t.name) (hsession : s.SameSession s') (htxns : s'.transactions.Valid)
    (hsees : s'.Sees = s.Sees) (hsearchable : t'.Searchable) (htracked : t'.Tracked s.Sees) :
    s'.Steady := by
  refine ⟨htxns, ?_, fun name j hcatalog => ?_,
    forall_table_setObject hobject hdb hsearchable hs.searchable,
    forall_table_setObject hobject hdb (hsees ▸ htracked)
      fun name j u hu => hsees ▸ hs.tracked name j u hu⟩
  · rw [hsession.1, hsession.2]
    exact hs.session
  · rw [hdb] at hcatalog ⊢
    obtain ⟨u, hu, huname⟩ := hs.named name j hcatalog
    rw [getElem?_setObject hobject]
    split_ifs with hj
    · subst hj
      rw [hobject, Option.some.injEq] at hu
      exact ⟨t', rfl, by rw [hname, hu, huname]⟩
    · exact ⟨u, hu, huname⟩

variable {edit : String × ℕ → Row → Row}

/-- A table is replaced by one with the same definition, in which other rows are removed or
edited. -/
theorem Edited.of_setObject (hs₀ : s₀.Steady) {edit' : String × ℕ → Row → Row}
    {removed' : List (String × ℕ)} (h : s₀.Edited s removed edit)
    (htable : s₀.database.table name = some (id, t₀)) {t t' : Table}
    (ht : s.database.table name = some (id, t)) (hdb : s'.database = s.database.setObject id t')
    (hdef : t.SameDefinition t') (hsession : s.SameSession s') (htxns : s'.transactions.Valid)
    (hsees : s'.Sees = s.Sees) (hsearchable : t'.Searchable) (htracked : t'.Tracked s.Sees)
    (hrows : ∀ r, t'.rowStore.get r =
      if (name, r) ∈ removed' then none else (t₀.rowStore.get r).map (edit' (name, r)))
    (hothers : ∀ node : String × ℕ, node.1 ≠ name →
      (node ∈ removed' ↔ node ∈ removed) ∧ edit' node = edit node) :
        s₀.Edited s' removed' edit' := by
  have hobject := getElem?_of_table ht
  refine ⟨h.steady.of_setObject hobject hdb hdef.name hsession htxns hsees
    hsearchable htracked, ?_, ?_, fun name' id' t₀' htable₀' => ?_⟩
  · rw [hdb]
    exact h.catalog
  · exact ⟨hsession.1.trans h.session.1, hsession.2.trans h.session.2⟩
  · obtain ⟨u, hu, hsame, hold⟩ := h.tables name' id' t₀' htable₀'
    rw [hdb, table_setObject hobject, hu, Option.map_some]
    by_cases hname : name' = name
    · subst hname
      obtain ⟨rfl, rfl⟩ := table_unique htable₀' htable
      obtain ⟨-, rfl⟩ := table_unique hu ht
      exact ⟨_, if_pos rfl ▸ rfl, hsame.trans hdef, hrows⟩
    · -- tables of different names are different objects
      have hne : id ≠ id' := fun heq => hname (by
        rw [← hs₀.name_eq htable₀', ← hs₀.name_eq htable]
        have h₀ := getElem?_of_table htable₀'
        rw [← heq, getElem?_of_table htable, Option.some.injEq] at h₀
        rw [h₀])
      refine ⟨u, by rw [if_neg hne], hsame, fun r => ?_⟩
      obtain ⟨hremoved, hedit⟩ := hothers (name', r) hname
      simp only [hold, hremoved, hedit]

/-- One more row is erased. -/
theorem Edited.eraseTarget (hs₀ : s₀.Steady) (h : s₀.Edited s removed edit)
    (htable : s₀.database.table name = some (id, t₀)) (hrow : t₀.rowStore.get r = some row)
    (hnew : (name, r) ∉ removed) (image : Row) {writerId : ℕ} (hwriter : s.Sees writerId)
    {marks : DeleteMarks} (hmarks : marks.deleted = removed) :
    ∃ s', Engine.eraseTarget id name r image writerId marks s =
        .ok { marks with deleted := (name, r) :: marks.deleted } s' ∧
      s₀.Edited s' ((name, r) :: removed) edit ∧ s'.Sees = s.Sees ∧
      s'.redoLog.length = s.redoLog.length + 1 ∧ (s.AllSound → s'.AllSound) := by
  obtain ⟨t, htable', hdef, hget⟩ := h.tables name id t₀ htable
  have hobject := getElem?_of_table htable'
  have hsearchable := h.steady.searchable name id t htable'
  have hlive : t.rowStore.get r = some (edit (name, r) row) := by
    rw [hget, if_neg hnew, hrow, Option.map_some]
  refine ⟨_, eraseTarget_ok hobject hsearchable name hlive image writerId (hmarks ▸ hnew), ?_⟩
  set access :=
    TableAccess.afterErase ⟨t.clearDirtyTracking, s.transactions⟩ r writerId with haccess
  set undo : UndoRecord := .row name (.delete r image)
  have hrecorded : s.transactions.Recorded access.transactions := recorded_recordWrite ..
  have herased : access.table.clearDirtyTracking.rowStore.get =
      Function.update t.rowStore.get r none :=
    Table.get_erasedStore hsearchable.clearDirtyTracking.store hlive
  have hdef' : t.SameDefinition access.table.clearDirtyTracking :=
    ((t.sameDefinition_clearDirtyTracking).trans
      ⟨t.clearDirtyTracking.sameRules_changed _ _, rfl, rfl⟩).trans
      (Table.sameDefinition_clearDirtyTracking _)
  have hsees := sees_logged hobject hrecorded undo t.name
  refine ⟨h.of_setObject hs₀ htable htable' (database_logged hobject access undo t.name) hdef'
    (sameSession_logged hobject access undo t.name) ?_ hsees
    (hsearchable.clearDirtyTracking.erased hlive _).clearDirtyTracking
    ((h.steady.tracked name id t htable').erase hwriter hlive herased rfl) (fun r' => ?_)
    (fun node hnode => ⟨?_, rfl⟩), hsees, length_redoLog_logged hobject access undo t.name,
    fun hsound => ?_⟩
  · rw [transactions_logged hobject]
    exact hrecorded.valid h.steady.transactions
  · rw [herased, Function.update_apply]
    by_cases hr : r' = r
    · simp [hr]
    · rw [if_neg hr, hget]
      simp [hr]
  · refine ⟨fun hmem => (mem_cons.mp hmem).resolve_left ?_, mem_cons_of_mem _⟩
    rintro rfl
    exact hnode rfl
  · have hstep : TableAccess.RowStep writerId (fun _ _ => True)
      ⟨t.clearDirtyTracking, s.transactions⟩ (.delete r image) access :=
      TableAccess.rowStep_afterErase (hsound name id t htable').clearDirtyTracking hlive
        writerId trivial
    exact forall_table_setObject hobject (database_logged hobject access undo t.name)
      hstep.sound.clearDirtyTracking hsound

/-- The heaps have the rows that a snapshot sees. -/
def Mirrored (s : Engine) (snapshot : ReadSnapshot) : Prop :=
  ∀ name id t, s.database.table name = some (id, t) → t.Mirrors snapshot s.transactions

/-- The rows that refer to a row by its image and are still there. -/
theorem Edited.mem_collectReferencingChildren (hs₀ : s₀.Steady) (h : s₀.Edited s removed edit)
    {snapshot : ReadSnapshot} (hmirrors : s.Mirrored snapshot)
    (htable : s₀.database.table name = some (id, t₀)) {t : Table}
    (ht : s.database.table name = some (id, t)) (image : Row) {hit : ForeignKeyChildHit} :
    hit ∈ collectReferencingChildren snapshot s.transactions s.database t image none ↔
      ∃ (c₀ : Table) (row : Row) (key : Value),
        s₀.database.table hit.tableName = some (hit.table, c₀) ∧
        c₀.rowStore.get hit.rowId = some row ∧ hit.row = edit (hit.tableName, hit.rowId) row ∧
        (hit.tableName, hit.rowId) ∉ removed ∧ hit.fk ∈ c₀.foreignKeys ∧ hit.fk.parentTable = name ∧
        keyFromRow t₀ image hit.fk.parentColumns = some key ∧ keyHasNullPart key = false ∧
        rowMatchesKey c₀ hit.row hit.fk.childColumns key = true := by
  obtain ⟨t', ht', hsame, -⟩ := h.tables name id t₀ htable
  obtain ⟨-, rfl⟩ := table_unique ht ht'
  have hname : t.name = name := h.steady.name_eq ht
  have hkey := keyFromRow_congr hsame.rules
  rw [VertexDB.mem_collectReferencingChildren]
  constructor
  · rintro ⟨c, key, hmem, hcname, hfk, haffected, hchild⟩
    rw [h.steady.mem_tables, ← hcname] at hmem
    obtain ⟨hparent, hkeyrow, hnull⟩ := affectedKey_none_eq_some.mp haffected
    rw [mem_visibleChildrenForKey_iff (h.steady.searchable _ _ c hmem) (hmirrors _ _ c hmem) hnull]
      at hchild
    -- the child table has the rows of the first state, apart from the erased ones
    obtain ⟨c₀, hc₀, hcsame, hcrows⟩ := h.exists_table hs₀ hmem
    obtain ⟨hget, hmatch⟩ := hchild
    rw [hcrows] at hget
    split_ifs at hget with hremoved
    obtain ⟨row, hrow, hedited⟩ := Option.map_eq_some_iff.mp hget
    refine ⟨c₀, row, key, hc₀, hrow, hedited.symm, hremoved, hcsame.foreignKeys ▸ hfk,
      hparent.trans hname, hkey ▸ hkeyrow, hnull, ?_⟩
    rw [← rowMatchesKey_congr hcsame.rules]
    exact hmatch
  · rintro ⟨c₀, row, key, hc₀, hrow, hedited, hremoved, hfk, hparent, hkeyrow, hnull, hmatch⟩
    obtain ⟨c, hc, hcsame, hcrows⟩ := h.tables _ _ c₀ hc₀
    have hcname := h.steady.name_eq hc
    refine ⟨c, key, h.steady.mem_tables.mpr (hcname.symm ▸ hc), hcname.symm,
      hcsame.foreignKeys ▸ hfk,
      affectedKey_none_eq_some.mpr ⟨hparent.trans hname.symm, hkey ▸ hkeyrow, hnull⟩, ?_⟩
    rw [mem_visibleChildrenForKey_iff (h.steady.searchable _ _ c hc) (hmirrors _ _ c hc) hnull,
      hcrows, if_neg hremoved, rowMatchesKey_congr hcsame.rules, hrow, Option.map_some, hedited]
    exact ⟨rfl, hedited ▸ hmatch⟩

/-- The rows that refer to a row and are still there, when no other row was edited. -/
theorem Without.mem_collectReferencingChildren (hs₀ : s₀.Steady) (h : s₀.Without s removed)
    {snapshot : ReadSnapshot} (hmirrors : s.Mirrored snapshot)
    (htable : s₀.database.table name = some (id, t₀)) (hrow : t₀.rowStore.get r = some row)
    {t : Table} (ht : s.database.table name = some (id, t)) {hit : ForeignKeyChildHit} :
    hit ∈ collectReferencingChildren snapshot s.transactions s.database t row none ↔
      ∃ c₀ : Table, s₀.database.table hit.tableName = some (hit.table, c₀) ∧
        c₀.rowStore.get hit.rowId = some hit.row ∧ (hit.tableName, hit.rowId) ∉ removed ∧
        s₀.database.RefersBy hit.fk (name, r) (hit.tableName, hit.rowId) := by
  rw [h.toEdited.mem_collectReferencingChildren hs₀ hmirrors htable ht]
  constructor
  · rintro ⟨c₀, _, key, hc₀, hget, rfl, hremoved, hfk, hparent, hkeyrow, hnull, hmatch⟩
    exact ⟨c₀, hc₀, hget, hremoved, id, hit.table, t₀, c₀, row, hit.row, key, htable,
      hc₀, hrow, hget, hfk, hparent, hkeyrow, hnull, hmatch⟩
  · rintro ⟨c₀, hc₀, hget, hremoved, i, j, p, c₁, prow, crow, key, hp, hc₁, hprow, hcrow,
      hfk, hparent, hkeyrow, hnull, hmatch⟩
    obtain ⟨rfl, rfl⟩ := table_unique hp htable
    obtain ⟨rfl, rfl⟩ := table_unique hc₁ hc₀
    obtain rfl := Option.mem_unique hprow hrow
    obtain rfl := Option.mem_unique hcrow hget
    exact ⟨c₁, _, key, hc₁, hcrow, rfl, hremoved, hfk, hparent, hkeyrow, hnull, hmatch⟩

end Engine

/-- The sets of a DELETE as marks of a removal. -/
def DeleteMarks.toMarks (marks : DeleteMarks) : PostOrder.Marks (String × ℕ) :=
  ⟨marks.visiting, marks.deleted⟩

namespace Engine

variable {s s₀ s' : Engine} {name : String} {id r : ℕ} {t₀ : Table} {row : Row}
  {marks : DeleteMarks}

/-- The error of a recursion that goes too deep. -/
def depthExceeded : Error := .invalidArgument "FOREIGN KEY CASCADE depth exceeded"

/-- The rows `visiting`, the latest first, are different, each refers to the one before it, and the
first of them is a target of the statement. -/
structure ChainFrom (db : Database) (targets visiting : List (String × ℕ)) : Prop where
  nodup : visiting.Nodup
  chain : visiting.IsChain fun child parent => db.References parent child
  start : ∀ node ∈ visiting.getLast?, node ∈ targets

/-- A row that refers to the end of a chain, or is a target, makes it longer. -/
theorem ChainFrom.cons {db : Database} {targets visiting : List (String × ℕ)} {node : String × ℕ}
    (h : ChainFrom db targets visiting) (hnew : node ∉ visiting)
    (hrefers : ∀ parent ∈ visiting.head?, db.References parent node)
    (hstart : visiting = [] → node ∈ targets) : ChainFrom db targets (node :: visiting) := by
  have hnodup := nodup_cons.mpr ⟨hnew, h.nodup⟩
  cases visiting with
  | nil =>
    refine ⟨hnodup, .singleton _, ?_⟩
    rintro _ ⟨⟩
    exact hstart rfl
  | cons parent visiting =>
    refine ⟨hnodup, .cons_cons (hrefers parent rfl) h.chain, ?_⟩
    rw [getLast?_cons_cons]
    exact h.start

/-- A row refers to the end of a chain of as many rows as the recursion may be deep. -/
def Overlong (db : Database) (targets : List (String × ℕ)) : Prop :=
  ∃ node child visiting, ChainFrom db targets (node :: visiting) ∧ visiting.length = 63 ∧
    db.References node child

theorem assertNoAction_of_forall {refs : List ForeignKeyChildHit}
    (h : ∀ hit ∈ refs, hit.fk.onDelete ≠ .noAction) :
    assertNoActionParentKeyNotReferenced refs false = .ok () := by
  rw [assertNoActionParentKeyNotReferenced, if_neg]
  · rfl
  · simp only [any_eq_true, not_exists, not_and]
    intro hit hhit
    simp [h hit hhit]

/-! ### A removal in post-order -/

section Removal

variable {Refers : String × ℕ → String × ℕ → Prop} {Holds : Engine → List (String × ℕ) → Prop}
  {stop : Prop}

/-- The outcome of a part of a DELETE: the recursion goes too deep, or the nodes were removed in
post-order along a relation, and what is to hold of the state and the removed rows holds again. -/
def RemovesOrStops (Refers : String × ℕ → String × ℕ → Prop)
    (Holds : Engine → List (String × ℕ) → Prop) (stop : Prop) (nodes : List (String × ℕ))
    (marks : DeleteMarks) (s : Engine) (x : EStateM Error Engine DeleteMarks) : Prop :=
  (∃ s', x s = .error depthExceeded s' ∧ stop) ∨
    ∃ marks' s', x s = .ok marks' s' ∧ Holds s' marks'.deleted ∧ (∀ id, s.Sees id → s'.Sees id) ∧
      PostOrder.Removes Refers nodes marks.toMarks marks'.toMarks

/-- A loop that removes nodes, when each round removes its nodes or the recursion stops. -/
theorem removesOrStops_foldlM {α : Type} {nodes : α → List (String × ℕ)}
    (visiting : List (String × ℕ)) {f : DeleteMarks → α → EStateM Error Engine DeleteMarks}
    {items : List α}
    (hf : ∀ item ∈ items, ∀ marks s, Holds s marks.deleted → marks.toMarks.Proper Refers →
      marks.visiting = visiting →
      RemovesOrStops Refers Holds stop (nodes item) marks s (f marks item))
    (h : Holds s marks.deleted) (hproper : marks.toMarks.Proper Refers)
    (hvisiting : marks.visiting = visiting) :
    RemovesOrStops Refers Holds stop (items.flatMap nodes) marks s (items.foldlM f marks) := by
  induction items generalizing marks s with
  | nil => exact Or.inr ⟨marks, s, rfl, h, fun _ hid => hid, .nil _⟩
  | cons item items ih =>
    obtain ⟨hitem, hitems⟩ := forall_mem_cons.mp hf
    rw [foldlM_cons, flatMap_cons]
    rcases hitem marks s h hproper hvisiting with
      ⟨s', hrun, hlong⟩ | ⟨marks₁, s₁, hrun, h₁, hsees₁, hremoves⟩
    · exact Or.inl ⟨s', bind_of_error hrun, hlong⟩
    obtain ⟨hproper₁, hvisiting₁, -⟩ := hremoves.proper hproper
    rcases ih hitems h₁ hproper₁ (Eq.trans hvisiting₁ hvisiting) with
      ⟨s', hrest, hlong⟩ | ⟨marks', s', hrest, h', hsees', hremoves'⟩
    · exact Or.inl ⟨s', by rw [bind_of_ok hrun, hrest], hlong⟩
    · exact Or.inr ⟨marks', s', by rw [bind_of_ok hrun, hrest], h',
        fun id hid => hsees' id (hsees₁ id hid), hremoves.append hremoves'⟩

/-- The loop of `executeDelete` over its targets, when each of them is removed or the recursion
stops. -/
theorem deleteTargets_removes {W : Type} {command : Delete W} (count : ℕ) {entries : List (ℕ × Row)}
    (herase : ∀ entry ∈ entries, ∀ marks s, Holds s marks.deleted → marks.toMarks.Proper Refers →
      marks.visiting = [] → RemovesOrStops Refers Holds stop [(command.table, entry.1)] marks s
        (eraseRowWithReferentialActions 64 id command.table entry.1 entry.2 marks))
    (h : Holds s marks.deleted) (hproper : marks.toMarks.Proper Refers)
    (hvisiting : marks.visiting = []) :
    (∃ s', entries.foldlM (deleteTarget id command) (count, marks) s = .error depthExceeded s' ∧
      stop) ∨
      ∃ count' marks' s', entries.foldlM (deleteTarget id command) (count, marks) s =
          .ok (count', marks') s' ∧ Holds s' marks'.deleted ∧
        PostOrder.Removes Refers (entries.map fun entry => (command.table, entry.1))
          marks.toMarks marks'.toMarks := by
  induction entries generalizing marks s count with
  | nil => exact Or.inr ⟨count, marks, s, rfl, h, .nil _⟩
  | cons entry entries ih =>
    obtain ⟨hentry, hentries⟩ := forall_mem_cons.mp herase
    rw [foldlM_cons]
    by_cases hdeleted : (command.table, entry.1) ∈ marks.deleted
    · have hskip : deleteTarget id command (count, marks) entry s = .ok (count, marks) s := by
        simp only [deleteTarget, ite_run, if_pos hdeleted]
        rfl
      rw [bind_of_ok hskip]
      rcases ih count hentries h hproper hvisiting with
        hstop | ⟨count', marks', s', hrest, h', hremoves⟩
      · exact Or.inl hstop
      · exact Or.inr ⟨count', marks', s', hrest, h', .seen (Or.inl hdeleted) hremoves⟩
    rcases hentry marks s h hproper hvisiting with
      ⟨s', hrun, hlong⟩ | ⟨marks₁, s₁, hrun, h₁, -, hremoves⟩
    · refine Or.inl ⟨s', bind_of_error ?_, hlong⟩
      simp only [deleteTarget, ite_run, if_neg hdeleted]
      exact bind_of_error hrun
    · obtain ⟨hproper₁, hvisiting₁, -⟩ := hremoves.proper hproper
      have hstep : deleteTarget id command (count, marks) entry s =
          .ok (if (command.table, entry.1) ∈ marks₁.deleted then count + 1 else count,
            marks₁) s₁ := by
        simp only [deleteTarget, ite_run, if_neg hdeleted]
        rw [bind_of_ok hrun, pure_apply]
      rw [bind_of_ok hstep]
      rcases ih _ hentries h₁ hproper₁ (Eq.trans hvisiting₁ hvisiting) with
        hstop | ⟨count', marks', s', hrest, h', hremoves'⟩
      · exact Or.inl hstop
      · exact Or.inr ⟨count', marks', s', hrest, h', hremoves.append hremoves'⟩

/-- What a call of `eraseRowWithReferentialActions` finds before it enters a row: a writer, and the
rows that refer to the row. Those that go with it are among them, and after they were removed it can
set the other references to NULL and erase the row. -/
inductive Ready (Refers : String × ℕ → String × ℕ → Prop)
    (Holds : Engine → List (String × ℕ) → Prop)
    (Admits : String × ℕ → ℕ → Row → Prop) (visiting removed : List (String × ℕ)) (s : Engine)
    (id : ℕ) (node : String × ℕ) (row : Row) : Prop
  | intro (writerId : ℕ) (m : TransactionManager) (t : Table) (refs : List ForeignKeyChildHit)
      (writer : writeTransactionId s = .ok writerId { s with transactions := m })
      (table : s.database.objects[id]? = some t)
      (children : collectReferencingChildren s.readSnapshot m s.database t row none = refs)
      (holds : Holds { s with transactions := m } removed)
      (sees : ∀ i, s.Sees i → ({ s with transactions := m } : Engine).Sees i)
      (allowed : ∀ hit ∈ refs, hit.fk.onDelete ≠ .noAction)
      (refers : ∀ hit ∈ refs, hit.fk.onDelete = .cascade →
        Refers node (hit.tableName, hit.rowId) ∧
          Admits (hit.tableName, hit.rowId) hit.table hit.row)
      (complete : ∀ c, Refers node c → c ∉ removed →
        ∃ hit ∈ refs, hit.fk.onDelete = .cascade ∧ (hit.tableName, hit.rowId) = c)
      (finish : ∀ (marks : DeleteMarks) (s₁ : Engine), Holds s₁ marks.deleted →
        (∀ i, ({ s with transactions := m } : Engine).Sees i → s₁.Sees i) →
        marks.toMarks.Proper Refers → marks.visiting = node :: visiting → node ∉ marks.deleted →
        (∀ other ∈ removed, other ∈ marks.deleted) →
        (∀ other ∈ marks.deleted, other ∈ removed ∨ Relation.TransGen Refers node other) →
        ∃ s₂ s₃, (refs.forM fun hit =>
            if hit.fk.onDelete ≠ .setNull ∨ (hit.tableName, hit.rowId) ∈ marks.deleted then pure ()
            else setNullChild hit s.readSnapshot writerId) s₁ = .ok ⟨⟩ s₂ ∧
          eraseTarget id node.1 node.2 row writerId marks s₂ =
            .ok { marks with deleted := node :: marks.deleted } s₃ ∧
          Holds s₃ (node :: marks.deleted) ∧ ∀ i, s₁.Sees i → s₃.Sees i)

variable {Admits : String × ℕ → ℕ → Row → Prop} {targets : List (String × ℕ)}
  (hrefer : ∀ node child, Refers node child → s₀.database.References node child)
  (hready : ∀ {s : Engine} {id : ℕ} {node : String × ℕ} {row : Row} {marks : DeleteMarks},
    Holds s marks.deleted → Admits node id row → node ∉ marks.deleted →
    ChainFrom s₀.database targets (node :: marks.visiting) →
    Ready Refers Holds Admits marks.visiting marks.deleted s id node row)
include hrefer hready

/-- A run of `eraseRowWithReferentialActions` on a row that is a target, or goes with the row
entered last, is a removal in post-order. -/
theorem removesOrStops_eraseRow (depthLeft : ℕ) :
    ∀ {s : Engine} {id : ℕ} {node : String × ℕ} {row : Row} {marks : DeleteMarks},
      Holds s marks.deleted → marks.toMarks.Proper Refers → Admits node id row →
      ChainFrom s₀.database targets marks.visiting → marks.visiting.length + depthLeft = 64 →
      (∀ parent ∈ marks.visiting.head?, Refers parent node) →
        (marks.visiting = [] → node ∈ targets) →
      RemovesOrStops Refers Holds (Overlong s₀.database targets) [node] marks s
        (eraseRowWithReferentialActions depthLeft id node.1 node.2 row marks) := by
  induction depthLeft with
  | zero =>
    intro s _ node _ marks _ _ _ hchain hlen hrefers _
    refine Or.inl ⟨s, rfl, ?_⟩
    cases hvisiting : marks.visiting with
    | nil => simp [hvisiting] at hlen
    | cons parent visiting =>
      rw [hvisiting] at hchain hlen hrefers
      exact ⟨parent, node, visiting, hchain, by simpa using hlen, hrefer _ _ (hrefers parent rfl)⟩
  | succ depthLeft ih =>
    intro s id node row marks h hproper hadmits hchain hlen hrefers hstart
    rw [RemovesOrStops]
    simp only [eraseRowWithReferentialActions]
    by_cases hdeleted : node ∈ marks.deleted
    · rw [ite_run, if_pos hdeleted]
      exact Or.inr ⟨marks, s, rfl, h, fun _ hid => hid, .seen (Or.inl hdeleted) (.nil _)⟩
    by_cases hvisiting : node ∈ marks.visiting
    · rw [ite_run, if_neg hdeleted, ite_run, if_pos hvisiting]
      exact Or.inr ⟨marks, s, rfl, h, fun _ hid => hid, .seen (Or.inr hvisiting) (.nil _)⟩
    have hchain' : ChainFrom s₀.database targets (node :: marks.visiting) :=
      hchain.cons hvisiting (fun parent hparent => hrefer _ _ (hrefers parent hparent)) hstart
    obtain ⟨writerId, m, t, refs, hwriter, hobject, hrefs, h₁, hmore, haction, hgo,
        hall, hfinish⟩ :=
      hready h hadmits hdeleted hchain'
    simp only [ite_run, if_neg hdeleted, if_neg hvisiting, get_bind]
    have hobject' : ({ s with transactions := m } : Engine).database.objects[id]? = some t :=
      hobject
    rw [bind_of_ok hwriter, bind_of_ok (object_ok hobject'), get_bind]
    simp only [hrefs]
    rw [assertNoAction_of_forall haction, ofExcept_ok_bind]
    -- the row is entered, and the rows that go with it are removed
    have hentered : (marks.toMarks.enter node).Proper Refers := hproper.enter hdeleted
    set nodes : ForeignKeyChildHit → List (String × ℕ) := fun hit =>
      if hit.fk.onDelete = .cascade then [(hit.tableName, hit.rowId)] else [] with hnodes
    have hmem : ∀ c, c ∈ refs.flatMap nodes ↔
        ∃ hit ∈ refs, hit.fk.onDelete = .cascade ∧ (hit.tableName, hit.rowId) = c := fun c => by
      simp only [mem_flatMap, hnodes, mem_ite_nil_right, mem_singleton, eq_comm]
    have hsound : ∀ c ∈ refs.flatMap nodes, Refers node c := fun c hc => by
      obtain ⟨hit, hhit, hcascade, rfl⟩ := (hmem c).mp hc
      exact (hgo hit hhit hcascade).1
    have hloop : RemovesOrStops Refers Holds (Overlong s₀.database targets) (refs.flatMap nodes)
        { marks with visiting := node :: marks.visiting } { s with transactions := m }
        (refs.foldlM (fun marks hit => if hit.fk.onDelete ≠ .cascade then pure marks
          else eraseRowWithReferentialActions depthLeft hit.table hit.tableName hit.rowId
            hit.row marks)
          { marks with visiting := node :: marks.visiting }) := by
      refine removesOrStops_foldlM (node :: marks.visiting)
        (fun hit hhit marks' s h hproper hsame => ?_) h₁ hentered rfl
      by_cases hcascade : hit.fk.onDelete = .cascade
      · obtain ⟨hrefers', hadmits'⟩ := hgo hit hhit hcascade
        simp only [hnodes]
        rw [if_neg (not_not_intro hcascade), if_pos hcascade]
        refine ih h hproper hadmits' (hsame ▸ hchain') ?_ ?_ ?_
        · rw [hsame, length_cons]
          omega
        · rintro parent hparent
          rw [hsame] at hparent
          obtain rfl := Option.some.inj hparent
          exact hrefers'
        · intro hnil
          rw [hsame] at hnil
          cases hnil
      · simp only [hnodes]
        rw [if_pos hcascade, if_neg hcascade]
        exact Or.inr ⟨marks', s, rfl, h, fun _ hid => hid, .nil _⟩
    rcases hloop with ⟨s', hrun, hlong⟩ | ⟨marks₂, s₂, hrun, h₂, hsees₂, hremoves⟩
    · exact Or.inl ⟨s', bind_of_error hrun, hlong⟩
    obtain ⟨hproper₂, hvisiting₂, -, hmono, hreach⟩ := hremoves.proper hentered
    have hpath : ∀ other ∈ marks₂.deleted, other ∈ marks.deleted ∨
        Relation.TransGen Refers node other :=
      fun other hother => (hreach other hother).imp_right fun hpath =>
        hpath.elim fun v h => .head' (hsound v h.1) h.2
    -- the row itself is erased and left
    obtain ⟨s₃, s₄, hnulls, herase, h₄, hsees₄⟩ :=
      hfinish marks₂ s₂ h₂ hsees₂ hproper₂ hvisiting₂
        (hproper₂.disjoint _ (hvisiting₂ ▸ mem_cons_self)) hmono hpath
    rw [bind_of_ok hrun, bind_of_ok hnulls, bind_of_ok herase, pure_apply]
    refine Or.inr ⟨_, s₄, rfl, h₄, fun i hi => hsees₄ i (hsees₂ i (hmore i hi)),
      .remove hdeleted hvisiting _ hsound (fun c hc => ?_) hremoves (.nil _)⟩
    by_cases hcdeleted : c ∈ marks.deleted
    · exact Or.inl hcdeleted
    · exact Or.inr ((hmem c).mpr (hall c hc hcdeleted))

/-- A DELETE removes the rows that go with its targets, or the recursion goes too deep. -/
theorem executeDelete_removes {W : Type} (scan : TargetScan W) (command : Delete W) {t : Table}
    (htable : s.database.table command.table = some (id, t)) {entries : List (ℕ × Row)}
    (hentries : scan.targets command.filter t s.readSnapshot s.transactions = .ok entries)
    (htargets : targets = entries.map fun entry => (command.table, entry.1))
    (hadmits : ∀ entry ∈ entries, Admits (command.table, entry.1) id entry.2) (h : Holds s []) :
    (∃ s', executeDelete scan command s = .error depthExceeded s' ∧ Overlong s₀.database targets) ∨
      ∃ count deleted s', executeDelete scan command s =
          .ok ⟨true, "deleted " ++ toString (count : ℕ) ++ " row(s)"⟩ s' ∧
        Holds s' deleted ∧ deleted.Nodup ∧
        ∀ node, node ∈ deleted ↔ ∃ target ∈ targets, Relation.ReflTransGen Refers target node := by
  have hempty : (({} : DeleteMarks).toMarks).Proper Refers :=
    ⟨nodup_nil, by simp [DeleteMarks.toMarks], by simp [DeleteMarks.toMarks]⟩
  have herase : ∀ entry ∈ entries, ∀ marks s, Holds s marks.deleted → marks.toMarks.Proper Refers →
      marks.visiting = [] →
      RemovesOrStops Refers Holds (Overlong s₀.database targets) [(command.table, entry.1)] marks s
        (eraseRowWithReferentialActions 64 id command.table entry.1 entry.2 marks) := by
    intro entry hentry marks s h hproper hvisiting
    refine removesOrStops_eraseRow hrefer hready 64 h hproper (hadmits entry hentry) ?_
      (by simp [hvisiting]) (by simp [hvisiting]) fun _ => htargets ▸ mem_map_of_mem hentry
    rw [hvisiting]
    exact ⟨nodup_nil, .nil, by simp⟩
  rcases deleteTargets_removes 0 herase h hempty rfl with
    ⟨s', hrun, hlong⟩ | ⟨count, marks, s', hrun, h', hremoves⟩
  · refine Or.inl ⟨s', ?_, hlong⟩
    rw [executeDelete, bind_of_ok (requireTable_ok htable)]
    simp only [get_bind, hentries, ofExcept_ok_bind]
    exact bind_of_error hrun
  · obtain ⟨hnodup, hclosure⟩ := hremoves.mem_removed_iff
    refine Or.inr ⟨count, marks.deleted, s', ?_, h', hnodup, fun node => htargets ▸ hclosure node⟩
    rw [executeDelete, bind_of_ok (requireTable_ok htable)]
    simp only [get_bind, hentries, ofExcept_ok_bind]
    rw [bind_of_ok hrun]
    rfl

end Removal

/-- All foreign keys are ON DELETE CASCADE. -/
def AllCascade (s : Engine) : Prop :=
  ∀ name id t, s.database.table name = some (id, t) → ∀ fk ∈ t.foreignKeys, fk.onDelete = .cascade

/-- A row can be erased when all foreign keys are ON DELETE CASCADE. -/
theorem Without.ready (hs₀ : s₀.Steady) (hcascade : s₀.AllCascade)
    {removed visiting : List (String × ℕ)} {node : String × ℕ} (h : s₀.Without s removed)
    (hentry : s₀.database.Entry node id row) :
    Ready s₀.database.References s₀.Without s₀.database.Entry visiting removed s id node row := by
  obtain ⟨t₀, htable, hrow⟩ := hentry
  obtain ⟨writerId, m, hwriter, hsteady, hsees, hmore, hold⟩ := h.steady.writeTransactionId
  have h₁ : s₀.Without { s with transactions := m } removed :=
    ⟨⟨hsteady, h.catalog, h.session, h.tables⟩, h.redo⟩
  obtain ⟨t, ht, -, -⟩ := h.tables node.1 id t₀ htable
  have hmem := @Without.mem_collectReferencingChildren _ _ _ _ _ _ _ _ hs₀ h₁ s.readSnapshot
    (fun name id t ht => ((h.steady.tracked name id t ht).mono hold).mirrors) htable hrow t ht
  generalize hrefs : collectReferencingChildren s.readSnapshot m s.database t row
    none = refs at hmem
  have haction : ∀ hit ∈ refs, hit.fk.onDelete = .cascade := fun hit hhit => by
    obtain ⟨c₀, hc₀, -, -, _, _, _, c, _, _, _, -, hc, -, -, hfk, -⟩ := hmem.mp hhit
    obtain ⟨-, rfl⟩ := table_unique hc hc₀
    exact hcascade _ _ _ hc₀ _ hfk
  refine ⟨writerId, m, t, refs, hwriter, getElem?_of_table ht, hrefs, h₁, hmore,
    fun hit hhit => by simp [haction hit hhit], fun hit hhit _ => ?_, fun c hc hnew => ?_,
    fun marks s₁ h' hsees' _ _ hnew _ _ => ?_⟩
  · obtain ⟨c₀, hc₀, hget, -, hby⟩ := hmem.mp hhit
    exact ⟨⟨_, hby⟩, c₀, hc₀, hget⟩
  · obtain ⟨fk, hby⟩ := hc
    have hall := hby
    obtain ⟨i, j, p, c₀, prow, crow, key, -, hc₀, -, hget, -⟩ := hall
    have hhit : ⟨j, c.1, fk, c.2, crow⟩ ∈ refs := hmem.mpr ⟨c₀, hc₀, hget, hnew, hby⟩
    exact ⟨_, hhit, haction _ hhit, rfl⟩
  · have hnulls : ∀ f : ForeignKeyChildHit → EStateM Error Engine Unit,
        (refs.forM fun hit => if hit.fk.onDelete ≠ .setNull ∨
          (hit.tableName, hit.rowId) ∈ marks.deleted then pure () else f hit) s₁ = .ok ⟨⟩ s₁ := by
      intro f
      refine forM_unchanged fun hit hhit => ?_
      rw [if_pos (Or.inl (by simp [haction hit hhit]))]
      rfl
    obtain ⟨s₃, herase, h₃, hsees₃, hredo, -⟩ := h'.toEdited.eraseTarget hs₀ htable hrow hnew row
      (hsees' writerId hsees) rfl
    refine ⟨s₁, s₃, hnulls _, herase, ⟨h₃, ?_⟩, fun i hi => hsees₃ ▸ hi⟩
    rw [hredo, h'.redo, length_cons, Nat.add_assoc]

theorem Steady.entry_of_targets (hs : s.Steady) {W : Type} (scan : TargetScan W)
    {command : Delete W} {t : Table} (htable : s.database.table command.table = some (id, t))
    {entries : List (ℕ × Row)}
    (hentries : scan.targets command.filter t s.readSnapshot s.transactions = .ok entries) :
    ∀ entry ∈ entries, s.database.Entry (command.table, entry.1) id entry.2 := fun entry hentry =>
  ⟨t, htable, (hs.tracked _ _ t htable).mirrors entry.1 ▸
    scan.visible _ _ _ _ _ hentries _ _ hentry⟩

/-- A DELETE on a database whose foreign keys are all ON DELETE CASCADE erases the rows that can be
reached from its targets along references, each of them once. It throws only when it exceeds the
depth limit, and then a chain of references from a target is that long. -/
theorem executeDelete_closure {W : Type} (scan : TargetScan W) (command : Delete W) (s : Engine)
    (hs : s.Steady) (hcascade : s.AllCascade) (id : ℕ) (t : Table)
    (htable : s.database.table command.table = some (id, t)) (entries : List (ℕ × Row))
    (hentries : scan.targets command.filter t s.readSnapshot s.transactions = .ok entries) :
    (∃ s', executeDelete scan command s = .error depthExceeded s' ∧
        Overlong s.database (entries.map fun entry => (command.table, entry.1))) ∨
      ∃ count deleted s', executeDelete scan command s =
          .ok ⟨true, "deleted " ++ toString (count : ℕ) ++ " row(s)"⟩ s' ∧
        s.Without s' deleted ∧ deleted.Nodup ∧
        ∀ node, node ∈ deleted ↔ ∃ entry ∈ entries,
          Relation.ReflTransGen s.database.References (command.table, entry.1) node := by
  have hrun := executeDelete_removes (fun _ _ h => h)
    (fun h hentry _ _ => h.ready hs hcascade hentry)
    scan command htable hentries rfl (hs.entry_of_targets scan htable hentries) (Without.refl hs)
  simpa only [mem_map, exists_exists_and_eq_and] using hrun

/-! ### Statements before the DELETE -/

section Statements

variable {t : Table}

theorem requireTable_error (h : s.database.table name = none) :
    requireTable name s = .error (.runtimeError "unknown table") s := by
  rw [requireTable, get_bind, h]
  rfl

theorem insertRow_eq_ok (hobject : s.database.objects[id]? = some t) {tableName : String}
    {writerId : ℕ} {row : Row} {u : Unit} (h : insertRow id tableName writerId row s = .ok u s') :
    ∃ rowId t', Table.insert row writerId t.clearDirtyTracking = .ok rowId t' ∧
      s' = s.logged id ⟨t', TableAccess.recordStored t' rowId writerId s.transactions⟩
        (.row tableName (.insert rowId)) tableName := by
  rw [insertRow, clearDirtyTracking, modify_bind] at h
  obtain ⟨rowId, s₁, hrun, h⟩ := bind_eq_ok.mp h
  cases hx : TableAccess.insert row writerId ⟨t.clearDirtyTracking, s.transactions⟩ with
  | error e access =>
    rw [(onTable_cleared _ hobject).2 e access hx] at hrun
    cases hrun
  | ok a access =>
    rw [onTable_cleared_ok hobject hx] at hrun
    cases hrun
    obtain ⟨rowId, _, hcall, hrest⟩ := bind_eq_ok.mp hx
    obtain ⟨t', hinsert, rfl⟩ := zoom_eq_ok.mp hcall
    cases hrest
    cases h
    exact ⟨rowId, t', hinsert, rfl⟩

/-- A property that a table keeps when a row is inserted. -/
structure KeptByInsert (P : Table → Prop) : Prop where
  insert : ∀ {t t' : Table} {row : Row} {writerId i : ℕ}, t.rowStore.Valid → P t →
    Table.insert row writerId t = .ok i t' → P t'
  cleared : ∀ {t : Table}, P t → P t.clearDirtyTracking

variable {P : Table → Prop} (hP : KeptByInsert P)
include hP

theorem Steady.insertRow (hs : s.Steady) (htable : s.database.table name = some (id, t))
    {tableName : String} {writerId : ℕ} (hwriter : s.Sees writerId) {row : Row} {u : Unit}
    (h : Engine.insertRow id tableName writerId row s = .ok u s')
    (hall : ∀ name id t, s.database.table name = some (id, t) → P t) :
    s'.Steady ∧ s'.Sees = s.Sees ∧ (∀ name id t, s'.database.table name = some (id, t) → P t) ∧
      ∃ t', s'.database.table name = some (id, t') := by
  have hobject := getElem?_of_table htable
  have hsearchable := (hs.searchable name id t htable).clearDirtyTracking
  obtain ⟨rowId, t', hinsert, rfl⟩ := insertRow_eq_ok hobject h
  obtain ⟨-, -, -, hslot⟩ := Table.insert_eq_ok hsearchable.store hinsert
  have hname : t'.name = t.name := by rw [hslot.rest]; rfl
  have hversions : t'.versions = t.versions.write rowId row writerId := by rw [hslot.rest]; rfl
  set access : TableAccess := ⟨t', TableAccess.recordStored t' rowId writerId s.transactions⟩
  have hrecorded : s.transactions.Recorded access.transactions :=
    TableAccess.recorded_recordStored ..
  have hdb := database_logged hobject access (.row tableName (.insert rowId)) tableName
  have hsees := sees_logged hobject hrecorded (.row tableName (.insert rowId)) tableName
  refine ⟨hs.of_setObject hobject hdb hname (sameSession_logged hobject ..) ?_ hsees
    (hsearchable.slotChange hslot).clearDirtyTracking ((hs.tracked name id t htable).write hwriter
      hslot.get hversions), hsees, forall_table_setObject hobject hdb (hP.cleared
      (hP.insert hsearchable.store (hP.cleared (hall name id t htable)) hinsert)) hall,
    t'.clearDirtyTracking, ?_⟩
  · rw [transactions_logged hobject]
    exact hrecorded.valid hs.transactions
  · rw [hdb, table_setObject hobject, htable]
    simp [access]

theorem Steady.executeInsert (hs : s.Steady)
    (hall : ∀ name id t, s.database.table name = some (id, t) → P t) {command : Insert}
    {result : QueryResult} (h : Engine.executeInsert command s = .ok result s') :
    s'.Steady ∧ ∀ name id t, s'.database.table name = some (id, t) → P t := by
  rcases htable : s.database.table command.table with _ | ⟨id, t⟩
  · rw [Engine.executeInsert, bind_of_error (requireTable_error htable)] at h
    cases h
  rw [Engine.executeInsert, bind_of_ok (requireTable_ok htable)] at h
  simp only [get_bind] at h
  obtain ⟨_, -, h⟩ := ofExcept_bind_eq_ok.mp h
  obtain ⟨writerId, m, hwriter, hsteady, hsees, -⟩ := hs.writeTransactionId
  rw [bind_of_ok hwriter] at h
  obtain ⟨_, s₁, hloop, h⟩ := bind_eq_ok.mp h
  cases h
  have hrun := forM_ok_induction (P := fun s => (s.Steady ∧ ∀ name id t,
    s.database.table name = some (id, t) → P t) ∧ s.Sees writerId ∧
    ∃ t, s.database.table command.table = some (id, t)) (fun row _ s₂ _ s₃ hs₂ hstep => by
      obtain ⟨⟨hs₂, hall₂⟩, hsees₂, t₂, ht₂⟩ := hs₂
      obtain ⟨hs₃, hsees₃, hall₃, ht₃⟩ := hs₂.insertRow hP ht₂ hsees₂ hstep hall₂
      exact ⟨⟨hs₃, hall₃⟩, hsees₃ ▸ hsees₂, ht₃⟩)
    ⟨⟨hsteady, hall⟩, hsees, t, htable⟩ hloop
  exact hrun.1

omit hP

theorem keptByInsert_cascade :
    KeptByInsert fun t => ∀ fk ∈ t.foreignKeys, fk.onDelete = .cascade where
  insert hstore ht hinsert := by
    obtain ⟨-, -, -, hslot⟩ := Table.insert_eq_ok hstore hinsert
    rw [hslot.rest]
    exact ht
  cleared ht := ht

/-- A DELETE that returned keeps a state steady whose foreign keys are all ON DELETE CASCADE. -/
theorem Steady.executeDelete (hs : s.Steady) (hcascade : s.AllCascade) {W : Type}
    {scan : TargetScan W} {command : Delete W} {result : QueryResult}
    (h : Engine.executeDelete scan command s = .ok result s') : s'.Steady ∧ s'.AllCascade := by
  rcases htable : s.database.table command.table with _ | ⟨id, t⟩
  · rw [Engine.executeDelete, bind_of_error (requireTable_error htable)] at h
    cases h
  have htargets := h
  rw [Engine.executeDelete, bind_of_ok (requireTable_ok htable)] at htargets
  simp only [get_bind] at htargets
  obtain ⟨entries, hentries, -⟩ := ofExcept_bind_eq_ok.mp htargets
  rcases executeDelete_removes (fun _ _ h => h) (fun h hentry _ _ => h.ready hs hcascade hentry)
    scan command htable hentries rfl (hs.entry_of_targets scan htable hentries)
      (Without.refl hs) with
    ⟨_, herror, -⟩ | ⟨_, _, s₁, hok, hwithout, -⟩
  · rw [herror] at h
    cases h
  · rw [hok] at h
    cases h
    refine ⟨hwithout.steady, fun name id t ht => ?_⟩
    obtain ⟨t₀, ht₀, hsame, -⟩ := hwithout.exists_table hs ht
    exact hsame.foreignKeys ▸ hcascade name id t₀ ht₀

/-- The INSERT and DELETE statements. -/
inductive Statement (W : Type) where
  | insert (command : Insert)
  | delete (command : Delete W)

/-- A statement without its result. -/
def Statement.run {W : Type} (scan : TargetScan W) : Statement W → EStateM Error Engine PUnit
  | .insert command => discard (Engine.executeInsert command)
  | .delete command => discard (Engine.executeDelete scan command)

/-- A run of statements that return keeps a state steady whose foreign keys are all ON DELETE
CASCADE. -/
theorem Steady.run (hs : s.Steady) (hcascade : s.AllCascade) {W : Type} {scan : TargetScan W}
    {statements : List (Statement W)} {u : PUnit}
    (h : forM statements (Statement.run scan) s = .ok u s') : s'.Steady ∧ s'.AllCascade := by
  refine forM_ok_induction (P := fun s => s.Steady ∧ s.AllCascade)
    (fun statement _ s₁ _ s₂ hs₁ hstep => ?_)
    ⟨hs, hcascade⟩ h
  cases statement with
  | insert command =>
    obtain ⟨_, hstep⟩ := discard_eq_ok.mp hstep
    exact hs₁.1.executeInsert keptByInsert_cascade hs₁.2 hstep
  | delete command =>
    obtain ⟨_, hstep⟩ := discard_eq_ok.mp hstep
    exact hs₁.1.executeDelete hs₁.2 hstep

end Statements

/-- The scan of UPDATE and DELETE: `planSelect` and `collectVisibleEntries`. -/
def mutationScan {σ C : Type} [CostArith C] (runtime : PredicateRuntime σ) (scope : String)
    (stats : Table → RelationStats C) : TargetScan (Option (Predicate σ)) where
  targets filter t snapshot transactions :=
    collectVisibleEntries runtime t scope snapshot transactions filter
      (Planner.planSelect filter (stats t) t.catalog)
  visible _ _ _ _ _ hok _ _ hmem := read_of_collectVisibleEntries hok hmem

/-- The table of the example: a row names another row of the table as its parent, and goes with
it. -/
def parentTable : Table where
  name := "t"
  schema := [{ name := "id", type := .int, unique := true }, { name := "parent", type := .int }]
  foreignKeys :=
    [{ childColumns := ["parent"], parentTable := "t", parentColumns := ["id"],
       onDelete := .cascade }]

/-- Two rows that refer to each other, a row that refers to the second of them, and another one that
refers to itself. -/
def parentRows : List Row :=
  [[.int 1, .int 2], [.int 2, .int 1], [.int 3, .int 2], [.int 4, .int 4]]

/-- Rows that the system transaction inserts are on the heap and on the chains. -/
theorem tracked_of_inserts {P : ℕ → Prop} (hP : P systemTransactionId) {rows : List Row}
    {t t' : Table} (ht : t.Current) (htracked : t.Tracked P) {u : PUnit}
    (hrun : forM (rows.map (TableOp.insert · systemTransactionId)) TableOp.perform t = .ok u t') :
    t'.Current ∧ t'.Tracked P := by
  refine forM_ok_induction (P := fun t => t.Current ∧ t.Tracked P) (fun op hop t _ t' h hstep => ?_)
    ⟨ht, htracked⟩ hrun
  refine ⟨h.1.perform hstep, ?_⟩
  obtain ⟨row, -, rfl⟩ := mem_map.mp hop
  obtain ⟨i, hinsert⟩ := discard_eq_ok.mp hstep
  obtain ⟨-, -, -, hslot⟩ := Table.insert_eq_ok h.1.rows.valid hinsert
  exact h.2.write hP hslot.get (by rw [hslot.rest])

/-- The state with one table and no transaction. -/
def onlyTable (t : Table) : Engine := { database := { objects := [t], catalog := {("t", 0)} } }

theorem table_onlyTable {t u : Table} {name : String} {id : ℕ}
    (h : (onlyTable t).database.table name = some (id, u)) : name = "t" ∧ id = 0 ∧ u = t := by
  obtain ⟨hcatalog, hobject⟩ := table_eq_some.mp h
  obtain ⟨rfl, rfl⟩ : "t" = name ∧ 0 = id := by
    simpa [onlyTable, Std.ExtTreeMap.getElem?_insert] using hcatalog
  exact ⟨rfl, rfl, (Option.some.inj hobject).symm⟩

theorem steady_onlyTable {t : Table} (hname : t.name = "t") (ht : t.Current)
    (htracked : t.Tracked (onlyTable t).Sees) : (onlyTable t).Steady where
  transactions := valid_new
  session := Or.inl ⟨rfl, rfl⟩
  named name id hcatalog := by
    obtain ⟨rfl, rfl⟩ : "t" = name ∧ 0 = id := by
      simpa [onlyTable, Std.ExtTreeMap.getElem?_insert] using hcatalog
    exact ⟨t, rfl, hname⟩
  searchable name id u hu := by
    obtain ⟨-, -, rfl⟩ := table_onlyTable hu
    exact ⟨ht.rows.valid, ht.built.agrees, ht.fits.positions⟩
  tracked name id u hu := by
    obtain ⟨-, -, rfl⟩ := table_onlyTable hu
    exact htracked

/-- `DELETE FROM t WHERE id = 1`. -/
def deleteFirst : Delete (Option (Predicate Empty)) where
  table := "t"
  filter := some (.comparison { column := "id", op := .equal, value := .int 1 })

/-- The scan of the example, with statistics that count the rows. -/
def exampleScan : TargetScan (Option (Predicate Empty)) :=
  mutationScan plainRuntime "t" fun t =>
    ({ rowCount := t.rowStore.liveCount, columnHistogram := fun _ => none } : RelationStats ℚ)

/-- The DELETE takes the two rows of the cycle and the row that refers to one of them. -/
theorem executeDelete_cycle : ∃ t,
    forM (parentRows.map (TableOp.insert · systemTransactionId))
      TableOp.perform parentTable = .ok ⟨⟩ t ∧
    ∃ count deleted s', executeDelete exampleScan deleteFirst (onlyTable t) =
        .ok ⟨true, "deleted " ++ toString (count : ℕ) ++ " row(s)"⟩ s' ∧
      (onlyTable t).Without s' deleted ∧ deleted.Nodup ∧
      ∀ node, node ∈ deleted ↔
        Relation.ReflTransGen (onlyTable t).database.References ("t", 0) node := by
  have hret : Returns
      (forM (parentRows.map (TableOp.insert · systemTransactionId)) TableOp.perform) parentTable
      fun _ t => t.name = "t" ∧ t.foreignKeys = parentTable.foreignKeys ∧
        exampleScan.targets deleteFirst.filter t (onlyTable t).readSnapshot {} =
          .ok [(0, [.int 1, .int 2])] ∧
        Returns (executeDelete exampleScan deleteFirst) (onlyTable t) fun _ _ => True := by
    decide +kernel
  obtain ⟨_, t, hrun, hname, hkeys, hscan, _, s', hdelete, -⟩ := hret
  have hnew : Table.construct "t" parentTable.schema [] parentTable.foreignKeys [] =
      .ok parentTable :=
    rfl
  obtain ⟨hcur, htracked⟩ := tracked_of_inserts (P := (onlyTable t).Sees) (by rfl)
    (Table.current_of_construct hnew) (fun r => by simp [ChainTracks, PageRowStore.get, parentTable,
      chain]) hrun
  refine ⟨t, hrun, ?_⟩
  have htable : (onlyTable t).database.table "t" = some (0, t) :=
    table_eq_some.mpr ⟨by simp [onlyTable], rfl⟩
  have hcascade : (onlyTable t).AllCascade := by
    intro name id u hu
    obtain ⟨-, -, rfl⟩ := table_onlyTable hu
    rw [hkeys]
    decide
  rcases executeDelete_closure exampleScan deleteFirst (onlyTable t)
    (steady_onlyTable hname hcur htracked) hcascade 0 t htable _ hscan with ⟨_, herror, -⟩ | hok
  · rw [hdelete] at herror
    cases herror
  · simpa [deleteFirst] using hok

/-- Two tables: the rows of `c` go with those of `p`. -/
def family : Engine where
  database :=
    { objects :=
        [{ name := "p", schema := [{ name := "id", type := .int, unique := true }] },
          { name := "c"
            schema :=
              [{ name := "p", type := .int }, { name := "x", type := .int, nullable := true }]
            foreignKeys := [{ childColumns := ["p"], parentTable := "p", parentColumns := ["id"],
                              onDelete := .cascade }] }]
      catalog := {("p", 0), ("c", 1)} }

/-- The table `c` gets an index `a` on `-x` and an index `b` on its key, and `p` a row. -/
def fillFamily : EStateM Error Engine Unit := do
  onTable 1 (TableAccess.onTable do
    TableOp.perform (.createExpressionIndex "a" { kind := .negate, column := "x" })
    TableOp.perform (.createIndex "b" ["p"]))
  let _ ← executeInsert { table := "p", rows := [[.int 1]] }

/-- The INSERT of a row that refers to the row of `p` and has a NULL under the index `a` throws
after the row is stored and before it is in the index `b`. `DELETE FROM p` does not find it there
and leaves it. -/
theorem executeDelete_leaves_child : ∃ s s₁ s₂, fillFamily family = .ok ⟨⟩ s ∧
    (∃ e, executeInsert { table := "c", rows := [[.int 1, .null]] } s = .error e s₁) ∧
    s₁.AllCascade ∧ s₁.database.References ("p", 0) ("c", 0) ∧
    (∃ result, executeDelete exampleScan { table := "p", filter := none } s₁ = .ok result s₂) ∧
    (s₂.database.table "c").map (fun entry =>
      entry.2.versions.read 0 s₂.readSnapshot s₂.transactions) = some (some [.int 1, .null]) := by
  have hrefers : Returns fillFamily family fun _ s =>
      Throws (executeInsert { table := "c", rows := [[.int 1, .null]] }) s fun _ s₁ =>
        (∀ entry ∈ s₁.database.tables, ∀ fk ∈ entry.2.foreignKeys, fk.onDelete = .cascade) ∧
        (s₁.database.table "p").any (fun entry => entry.2.rowStore.get 0 = some [.int 1] ∧
          keyFromRow entry.2 [.int 1] ["id"] = some (.int 1)) = true ∧
        (s₁.database.table "c").any (fun entry => entry.2.rowStore.get 0 = some [.int 1, .null] ∧
          rowMatchesKey entry.2 [.int 1, .null] ["p"] (.int 1) = true ∧
          ∃ fk ∈ entry.2.foreignKeys, fk.childColumns = ["p"] ∧ fk.parentTable = "p" ∧
            fk.parentColumns = ["id"]) = true := by
    decide +kernel
  have hdeletes : Returns fillFamily family fun _ s =>
      Throws (executeInsert { table := "c", rows := [[.int 1, .null]] }) s fun _ s₁ =>
        Returns (executeDelete exampleScan { table := "p", filter := none }) s₁ fun _ s₂ =>
          (s₂.database.table "c").map (fun entry =>
            entry.2.versions.read 0 s₂.readSnapshot s₂.transactions) =
              some (some [.int 1, .null]) := by
    decide +kernel
  obtain ⟨_, s, hfill, ⟨e, s₁, hinsert, hcascade, hp, hc⟩, _, _, hinsert', _, s₂, hdelete, hleft⟩ :=
    hrefers.and hdeletes
  obtain ⟨rfl, rfl⟩ := EStateM.Result.error.inj (hinsert.symm.trans hinsert')
  simp only [Option.any_eq_true, decide_eq_true_eq] at hp hc
  obtain ⟨⟨i, p⟩, hp, hprow, hpkey⟩ := hp
  obtain ⟨⟨j, c⟩, hc, hcrow, hmatch, fk, hfk, hchild, hparent, hcols⟩ := hc
  exact ⟨s, s₁, s₂, hfill, ⟨e, hinsert⟩, fun _ _ _ ht => hcascade _ (mem_tables_of_table ht),
    ⟨fk, i, j, p, c, _, _, _, hp, hc, hprow, hcrow, hfk, hparent, hcols ▸ hpkey, rfl,
      hchild ▸ hmatch⟩, ⟨_, hdelete⟩, hleft⟩

end Engine

end VertexDB
