import VertexDB.Execution.LoggedChanges
import VertexDB.Storage.IndexedTable
import VertexDB.Transaction.Interleaving

/-!
# The rows of one INSERT

`executeInsert` checks every row of a statement against the table and against the rows before it,
and then inserts them one after another; each insertion checks its row once more, now beside the
rows that were inserted before. The second check cannot fail: what it sees in addition, in the heap
as in the indexes, are rows of the same statement, and with those the row was compared. A row has a
key in every index on columns and in every trigram index, so that no index refuses it either.
-/

namespace VertexDB

open Exec IndexManager Table Std.ExtTreeMap List MvccRowStore

namespace Table

variable {t t' : Table} {writerId : ℕ} {entries : List (ℕ × Row)}

/-- The indexes are on one or more columns of the table, or on the trigrams of a column of it. -/
structure PlainIndexes (t : Table) : Prop extends t.indexManager.Fits t.schema where
  columns : ∀ (name : String) positions, t.indexManager.indexColumns[name]? = some positions →
    positions ≠ []
  kinds : ∀ (name : String) e, t.indexManager.indexExpressions[name]? = some e →
    e.kind = .column ∨ e.kind = .trigram

theorem PlainIndexes.indexable (h : t.PlainIndexes) (row : Row) : t.Indexable row := by
  intro name hname
  rw [indexKeyForRow]
  cases hexpr : t.indexManager.indexExpressions[name]? with
  | some e =>
    obtain ⟨i, -, hcolumn⟩ := h.expressions name e hexpr
    rcases h.kinds name e hexpr with hkind | hkind <;>
      simp [evaluateIndexExpression, hcolumn, hkind, Except.isOk, Except.toBool, pure, Except.pure]
  | none =>
    obtain ⟨positions, hpos⟩ := Option.isSome_iff_exists.mp
      (mem_iff_isSome_getElem?.mp (mem_keys.mp hname))
    obtain ⟨key, hkey⟩ := Value.makeComposite_ok
      (by simpa using h.columns name positions hpos : positions.map row.at ≠ [])
    simp [hpos, hkey, Except.isOk, Except.toBool]

/-- The table `t'` is `t` with the rows `entries` added by a writer under ids that were free. -/
structure Extends (t t' : Table) (writerId : ℕ) (entries : List (ℕ × Row)) : Prop where
  definition : t.SameDefinition t'
  free : ∀ entry ∈ entries, t.rowStore.get entry.1 = none
  nodup : (entries.map Prod.fst).Nodup
  get : ∀ r row, t'.rowStore.get r = some row ↔ t.rowStore.get r = some row ∨ (r, row) ∈ entries
  chain_of_mem : ∀ entry ∈ entries, t'.versions.chain entry.1 =
    { createdBy := writerId, row := entry.2 } ::
      closeLatest writerId (t.versions.chain entry.1)
  chain_of_not_mem : ∀ r ∉ entries.map Prod.fst, t'.versions.chain r = t.versions.chain r
  mem_find : ∀ name ∈ t.indexManager.indexes, ∀ key r,
    r ∈ (t'.indexManager.hashIndex name).find key ↔ r ∈ (t.indexManager.hashIndex name).find key ∨
      ∃ row, (r, row) ∈ entries ∧ t.indexManager.HasKey name row t.schema key

theorem Extends.refl (t : Table) (writerId : ℕ) : t.Extends t writerId [] :=
  ⟨.refl t, by simp, by simp, by simp, by simp, by simp, by simp⟩

theorem Extends.clearDirtyTracking (h : t.Extends t' writerId entries) :
    t.Extends t'.clearDirtyTracking writerId entries :=
  ⟨h.definition.trans t'.sameDefinition_clearDirtyTracking, h.free, h.nodup, h.get, h.chain_of_mem,
    h.chain_of_not_mem, h.mem_find⟩

/-- The second check of a row: beside the added rows it is accepted when it was accepted before and
has no conflict with one of them. -/
theorem Extends.assertUniqueRow (h : t.Extends t' writerId entries) (hstore' : t'.rowStore.Valid)
    (hstore : t.rowStore.Valid) (hfits : t.indexManager.Fits t.schema) {row : Row}
    (hrow : t.assertUniqueRow row none = .ok ())
    (hbatch : ∀ entry ∈ entries, t.rowsConflictOnUnique row entry.2 = false) :
    t'.assertUniqueRow row none = .ok () := by
  have hrules := h.definition.rules
  obtain ⟨hvalid, hunique⟩ := assertUniqueRow_eq_ok.mp hrow
  refine assertUniqueRow_eq_ok.mpr ⟨hrules.validateRow ▸ hvalid, ?_⟩
  rw [enforceUniqueConstraintsUnlocked, enforceUniques_eq_ok] at hunique ⊢
  rw [hrules.allUniqueConstraints]
  intro constraint hcon
  obtain ⟨key, hkey, hfree⟩ := hunique constraint hcon
  obtain ⟨indexes, hres, hcomposite⟩ := uniqueKeyForRow_eq_ok.mp hkey
  refine ⟨key, uniqueKeyForRow_eq_ok.mpr ⟨indexes, ⟨hres.1, hrules.columnIndex ▸ hres.2⟩,
    hcomposite⟩, fun hnull => ?_⟩
  have hother : ∀ r other, (r, other) ∈ entries →
      t.uniqueRowsEqual constraint row other = false := fun r other hmem => by
    have := hbatch (r, other) hmem
    rw [rowsConflictOnUnique, any_eq_false] at this
    exact Bool.eq_false_iff.mpr (this constraint hcon)
  have hequal : t'.uniqueRowsEqual = t.uniqueRowsEqual := by
    funext c left right
    simp only [uniqueRowsEqual, hrules.columnIndex]
  have hname : t'.indexManager.columnIndexName constraint.columns t'.schema =
      t.indexManager.columnIndexName constraint.columns t.schema := by
    rw [IndexManager.columnIndexName, hrules.indexColumns, hrules.indexExpressions, hrules.schema,
      IndexManager.columnIndexName]
  have hconflict := hfree hnull
  unfold uniqueConflict indexedLookup IndexManager.indexedLookup at hconflict ⊢
  rw [hname, hequal]
  cases hidx : t.indexManager.columnIndexName constraint.columns t.schema with
  | none =>
    rw [hidx, Option.map_none] at hconflict
    simp only [Option.map_none, any_eq_false, Prod.forall, PageRowStore.mem_liveEntries hstore,
      PageRowStore.mem_liveEntries hstore', h.get] at hconflict ⊢
    rintro r other (hold | hnew)
    · exact hconflict r other hold
    · simp [hother r other hnew]
  | some name =>
    have hcanon : t.Canonical := hfits.positions
    obtain ⟨hcol, hexpr⟩ := hcanon.resolves hres hidx
    have hmem : name ∈ t.indexManager.indexes := by
      rw [hfits.mem_indexes, mem_iff_isSome_getElem?, hcol]
      rfl
    rw [hidx, Option.map_some] at hconflict
    simp only [Option.map_some, any_eq_false, h.mem_find name hmem] at hconflict ⊢
    rintro r (hold | ⟨other, hnew, hhas⟩)
    · exact hconflict r hold
    · obtain ⟨k, hk⟩ := hres.exists_key other
      have hdifferent := hother r other hnew
      rw [uniqueRowsEqual_iff_key hres (isCell_of_validateRow hvalid) hcomposite hk, hnull,
        (hasKey_iff hcol hexpr hk).mp hhas] at hdifferent
      cases hdifferent

/-- One more row is added. -/
theorem Extends.inserted (h : t.Extends t' writerId entries) (hstore' : t'.rowStore.Valid)
    (hm : t.indexManager.Registered) (hm' : t'.indexManager.Registered) (row : Row) :
    t.Extends (t'.inserted row writerId) writerId (entries ++ [(t'.rowStore.nextRowId, row)]) := by
  have hfree := hstore'.get_nextRowId
  -- a free id of the extended table was free before and is none of the added ones
  have hold : t.rowStore.get t'.rowStore.nextRowId = none := by
    refine Option.eq_none_iff_forall_ne_some.mpr fun other hother => ?_
    rw [(h.get _ other).mpr (Or.inl hother)] at hfree
    cases hfree
  have hnew : t'.rowStore.nextRowId ∉ entries.map Prod.fst := fun hmem => by
    obtain ⟨⟨r, other⟩, hentry, rfl⟩ := mem_map.mp hmem
    rw [(h.get _ other).mpr (Or.inr hentry)] at hfree
    cases hfree
  have hrules := h.definition.rules
  have hget : (t'.inserted row writerId).rowStore.get =
      Function.update t'.rowStore.get t'.rowStore.nextRowId (some row) := hstore'.get_appended row
  refine ⟨h.definition.trans ⟨t'.sameRules_inserted row writerId, rfl, rfl⟩, ?_, ?_,
    fun r other => ?_, ?_, fun r hr => ?_, fun name hname key r => ?_⟩
  · rw [forall_mem_append, forall_mem_singleton]
    exact ⟨h.free, hold⟩
  · rw [map_append, nodup_append]
    refine ⟨h.nodup, by simp, fun a ha b hb hab => ?_⟩
    rw [hab, mem_singleton.mp hb] at ha
    exact hnew ha
  · rw [hget, Function.update_apply, mem_append, mem_singleton]
    by_cases hr : r = t'.rowStore.nextRowId
    · subst hr
      have : (t'.rowStore.nextRowId, other) ∉ entries := fun hmem =>
        hnew (mem_map_of_mem (f := Prod.fst) hmem)
      simp [hold, this, eq_comm]
    · rw [if_neg hr, h.get]
      simp [hr]
  · rw [forall_mem_append, forall_mem_singleton]
    constructor
    · intro entry hentry
      have hne : t'.rowStore.nextRowId ≠ entry.1 := fun heq =>
        hnew (heq ▸ mem_map_of_mem hentry)
      rw [Table.inserted, chain_write, if_neg hne]
      exact h.chain_of_mem entry hentry
    · rw [Table.inserted, chain_write, if_pos rfl, h.chain_of_not_mem _ hnew]
  · rw [map_append, mem_append, not_or] at hr
    have hne : t'.rowStore.nextRowId ≠ r := fun heq => hr.2 (by simp [heq])
    rw [Table.inserted, chain_write, if_neg hne]
    exact h.chain_of_not_mem r hr.1
  · have hname' : name ∈ t'.indexManager.indexes := by
      rw [hm'.mem_indexes, hrules.indexColumns, ← hm.mem_indexes]
      exact hname
    have hkey : t'.indexManager.HasKey = t.indexManager.HasKey :=
      hasKey_congr hrules.indexColumns hrules.indexExpressions
    rw [Table.inserted, mem_find_addRow _ _ _ hname', h.mem_find name hname, hkey, hrules.schema]
    simp only [mem_append, mem_singleton, Prod.mk.injEq, or_and_right, exists_or, or_assoc,
      and_assoc]
    simp

end Table

namespace Engine

variable {s : Engine} {id : ℕ} {t t' : Table} {writerId : ℕ} {entries : List (ℕ × Row)}

/-- The checks of a statement that passed: every row was accepted by the table and had no conflict
with an earlier one. -/
theorem checkRows_eq_ok {snapshot : ReadSnapshot} {earlier rows : List Row}
    (h : checkRows snapshot s t earlier rows = .ok ()) :
    (∀ row ∈ rows, t.assertUniqueRow row none = .ok ()) ∧
      (∀ row ∈ rows, ∀ other ∈ earlier, t.rowsConflictOnUnique row other = false) ∧
      rows.Pairwise fun other row => t.rowsConflictOnUnique row other = false := by
  induction rows generalizing earlier with
  | nil => simp
  | cons row rows ih =>
    rw [checkRows] at h
    obtain ⟨-, h⟩ := bind_unit_eq_ok.mp h
    obtain ⟨hunique, h⟩ := bind_unit_eq_ok.mp h
    obtain ⟨-, h⟩ := bind_unit_eq_ok.mp h
    by_cases hany : earlier.any fun other => t.rowsConflictOnUnique row other
    · rw [if_pos hany] at h
      cases h
    rw [if_neg hany] at h
    obtain ⟨hrows, hearlier, hpairwise⟩ := ih h
    simp only [mem_append, mem_singleton, or_imp, forall_and, forall_eq] at hearlier
    refine ⟨forall_mem_cons.mpr ⟨hunique, hrows⟩, forall_mem_cons.mpr ⟨fun other hother => ?_,
      hearlier.1⟩, pairwise_cons.mpr ⟨hearlier.2, hpairwise⟩⟩
    exact Bool.eq_false_iff.mpr fun hconflict => hany (any_eq_true.mpr ⟨other, hother, hconflict⟩)

/-- The insertions of a statement whose rows were checked, from a state in which some of its rows
are stored. -/
theorem forM_insertRow (tableName : String) (hstore : t.rowStore.Valid) (hplain : t.PlainIndexes)
    {rows : List Row} (hobject : s.database.objects[id]? = some t') (hstore' : t'.rowStore.Valid)
    (hm' : t'.indexManager.Registered) (hextends : t.Extends t' writerId entries)
    (hrows : ∀ row ∈ rows, t.assertUniqueRow row none = .ok ())
    (hbatch : ∀ row ∈ rows, ∀ entry ∈ entries, t.rowsConflictOnUnique row entry.2 = false)
    (hpairwise : rows.Pairwise fun other row => t.rowsConflictOnUnique row other = false) :
    ∃ s' t'' added, rows.forM (insertRow id tableName writerId) s = .ok ⟨⟩ s' ∧
      s'.database = s.database.setObject id t'' ∧ added.map Prod.snd = rows ∧
      t.Extends t'' writerId (entries ++ added) := by
  induction rows generalizing s t' entries with
  | nil =>
    refine ⟨s, t', [], rfl, ?_, rfl, by simpa using hextends⟩
    rw [Database.setObject_self hobject]
  | cons row rows ih =>
    obtain ⟨hrow, hrows⟩ := forall_mem_cons.mp hrows
    obtain ⟨hfirst, hbatch⟩ := forall_mem_cons.mp hbatch
    obtain ⟨hhead, hpairwise⟩ := pairwise_cons.mp hpairwise
    have hcleared := valid_clearDirtyTracking hstore'
    have hchecked := hextends.clearDirtyTracking.assertUniqueRow hcleared hstore hplain.toFits hrow
      hfirst
    have hidxable : t'.Indexable row :=
      hextends.definition.rules.indexable.mpr (hplain.indexable row)
    have hins := (hextends.clearDirtyTracking.inserted hcleared hplain.toRegistered hm'
      row).clearDirtyTracking
    have hrun := insertRow_ok tableName writerId hobject hcleared hm' hchecked hidxable
    have hdatabase := database_logged hobject
      (TableAccess.afterInsert ⟨t'.clearDirtyTracking, s.transactions⟩ row writerId)
      (.row tableName (.insert t'.rowStore.nextRowId)) tableName
    have hobject' : (s.logged id
        (TableAccess.afterInsert ⟨t'.clearDirtyTracking, s.transactions⟩ row writerId)
        (.row tableName (.insert t'.rowStore.nextRowId)) tableName).database.objects[id]? =
          some (t'.clearDirtyTracking.inserted row writerId).clearDirtyTracking := by
      rw [hdatabase, Database.getElem?_setObject hobject, if_pos rfl]
      rfl
    have hvalid : (t'.clearDirtyTracking.inserted row writerId).rowStore.Valid :=
      hcleared.appended row
    have hreg : (t'.clearDirtyTracking.inserted row writerId).indexManager.Registered :=
      hm'.addRow _ _
    obtain ⟨s', t'', added, hrest, hdb, hadded, hall⟩ := ih hobject'
      (valid_clearDirtyTracking hvalid) hreg hins hrows
      (fun other hother => forall_mem_append.mpr ⟨hbatch other hother, by
        simpa using hhead other hother⟩) hpairwise
    refine ⟨s', t'', (t'.rowStore.nextRowId, row) :: added, ?_, ?_, by simp [hadded], ?_⟩
    · rw [List.forM, bind_of_ok hrun, hrest]
    · rw [hdb, hdatabase]
      simp [Database.setObject]
    · rw [append_assoc] at hall
      exact hall

theorem writeTransactionId_ok (h : s.transactions.Valid) :
    ∃ writerId m, writeTransactionId s = .ok writerId { s with transactions := m } := by
  rw [writeTransactionId, get_bind]
  cases s.session.activeTransaction with
  | some transaction => exact ⟨transaction, s.transactions, rfl⟩
  | none => exact ⟨_, _, zoom_of_ok (TransactionManager.beginCommitted_ok h)⟩

/-- An INSERT into a table with plain indexes throws in its checks, and then nothing has changed, or
it stores all of its rows: when the checks pass no insertion throws. -/
theorem executeInsert_all_or_nothing (s : Engine) (htxns : s.transactions.Valid)
    (command : Insert) (id : ℕ) (t : Table) (htable : s.database.table command.table = some (id, t))
    (hstore : t.rowStore.Valid) (hplain : t.PlainIndexes) :
    (∀ e, checkRows s.readSnapshot s t [] command.rows = .error e →
      executeInsert command s = .error e s) ∧
    (checkRows s.readSnapshot s t [] command.rows = .ok () →
      ∃ s' t' writerId entries,
        executeInsert command s =
          .ok ⟨true, "inserted " ++ toString command.rows.length ++ " row(s)"⟩ s' ∧
        s'.database = s.database.setObject id t' ∧ entries.map Prod.snd = command.rows ∧
        t.Extends t' writerId entries) := by
  have hstart : executeInsert command s = (do
      Exec.ofExcept (checkRows s.readSnapshot s t [] command.rows)
      let writerId ← writeTransactionId
      command.rows.forM (insertRow id command.table writerId)
      return (⟨true, "inserted " ++ toString command.rows.length ++ " row(s)"⟩ : QueryResult))
        s := by
    rw [executeInsert, bind_of_ok (requireTable_ok htable)]
    exact get_bind _ _
  rw [hstart]
  constructor
  · intro e he
    rw [he]
    rfl
  · intro hchecks
    obtain ⟨hrows, -, hpairwise⟩ := checkRows_eq_ok hchecks
    obtain ⟨writerId, m, hwriter⟩ := writeTransactionId_ok htxns
    have hobject : ({ s with transactions := m } : Engine).database.objects[id]? = some t :=
      Database.getElem?_of_table htable
    obtain ⟨s', t', entries, hrun, hdb, hentries, hextends⟩ :=
      forM_insertRow command.table hstore hplain
      hobject hstore hplain.toRegistered (.refl t writerId) hrows (by simp) hpairwise
    refine ⟨s', t', writerId, entries, ?_, hdb, hentries, hextends⟩
    rw [hchecks, ofExcept_ok_bind, bind_of_ok hwriter, bind_of_ok hrun, pure_apply]

/-- A table with a UNIQUE column and a text. -/
def noteTable : Table where
  name := "t"
  schema := [{ name := "a", type := .int, unique := true }, { name := "b", type := .string }]

/-- An index of each plain kind. -/
def plainIndexOps : List TableOp :=
  [.ensureConstraintIndexes, .createIndex "ab" ["a", "b"],
    .createExpressionIndex "g" { kind := .trigram, column := "b" }]

/-- The state with one table and no transaction. -/
def withTable (t : Table) : Engine := { database := { objects := [t], catalog := {("t", 0)} } }

/-- Two rows with different keys. -/
def twoNotes : Insert := ⟨"t", [[.int 1, .string [97, 98, 99]], [.int 2, .string [100]]]⟩

theorem executeInsert_twoNotes : ∃ t, forM plainIndexOps TableOp.perform noteTable = .ok ⟨⟩ t ∧
    ∃ s' t' writerId entries,
      executeInsert twoNotes (withTable t) = .ok ⟨true, "inserted 2 row(s)"⟩ s' ∧
      s'.database = (withTable t).database.setObject 0 t' ∧ entries.map Prod.snd = twoNotes.rows ∧
      t.Extends t' writerId entries := by
  have hrun : Returns (forM plainIndexOps TableOp.perform) noteTable fun _ t =>
      t.indexManager.indexColumns.toList.all (fun entry => entry.2 ≠ []) = true ∧
        t.indexManager.indexExpressions.toList.all (fun entry => entry.2.kind = .trigram) = true ∧
        (checkRows (withTable t).readSnapshot (withTable t) t [] twoNotes.rows).isOk = true := by
    decide +kernel
  obtain ⟨_, t, hrun, hcols, hkinds, hchecks⟩ := hrun
  have hcur := current_of_run
    (by rfl : construct "t" noteTable.schema [] [] [] = .ok noteTable) hrun
  have hplain : t.PlainIndexes := by
    refine ⟨hcur.fits, fun name positions hname => ?_, fun name e hname => ?_⟩
    · simpa using all_eq_true.mp hcols (name, positions) (mem_toList_iff_getElem?_eq_some.mpr hname)
    · simpa using Or.inr (all_eq_true.mp hkinds (name, e)
        (mem_toList_iff_getElem?_eq_some.mpr hname))
  cases hrows : checkRows (withTable t).readSnapshot (withTable t) t [] twoNotes.rows with
  | error e => simp [hrows, Except.isOk, Except.toBool] at hchecks
  | ok _ =>
    have htable : (withTable t).database.table twoNotes.table = some (0, t) :=
      Database.table_eq_some.mpr ⟨by simp [withTable, twoNotes], rfl⟩
    exact ⟨t, hrun,
      (executeInsert_all_or_nothing (withTable t) TransactionManager.valid_new twoNotes 0 t
      htable hcur.rows.valid hplain).2 hrows⟩

end Engine

end VertexDB
