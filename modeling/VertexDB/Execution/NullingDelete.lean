import VertexDB.Execution.CascadeDelete
import VertexDB.Storage.ConsistentTable
import VertexDB.Storage.NulledRows

/-!
# DELETE along CASCADE and SET NULL keys

A SET NULL key that refers to a row being erased is set to NULL after the rows that go with it by
CASCADE keys were erased. `eraseRowWithReferentialActions` writes the NULL into the image of the
child row that it read before that, and checks the foreign keys of the image. A row that refers to
the erased row and to a row that went with it has an image that still refers to the latter, and the
DELETE throws. When there is no such row, and the columns of SET NULL keys are in no other foreign
key, the DELETE goes through: the cells that are NULL at any point are those of the SET NULL keys
that refer to a row erased so far.

## Main definitions

* `Database.NullsApart`: the acting SET NULL keys share no column with another foreign key.
* `Engine.Nulled`: the rows in `removed` are erased and the cells in `P` are NULL.

## Main results

* `Engine.Nulled.setNullChild`, `Engine.Nulled.eraseTarget`: what one step makes of it.
* `Engine.Nulling.ready`: every row that goes is ready for a removal in post-order.
-/

namespace VertexDB

open Exec Table Value Database List

variable {indexes : List ℕ}

/-! ### Keys of rows with NULLs -/

section Keys

variable {t : Table} {P : ℕ → Prop} {row row' : Row} {columns : List String} {key : Value}

/-- The key of a row is made of its cells in the columns. -/
theorem keyFromRow_congr_at
    (h : ∀ column ∈ columns, ∀ i, t.columnIndex column = some i → row.at i = row'.at i) :
    keyFromRow t row columns = keyFromRow t row' columns := by
  rw [keyFromRow, keyFromRow]
  cases hidxs : columns.mapM t.columnIndex with
  | none => rfl
  | some indexes =>
    have hcells : indexes.map row.at = indexes.map row'.at := map_congr_left fun i hi => by
      have hmem : some i ∈ columns.map t.columnIndex := by
        rw [mapM_eq_some.mp hidxs]
        exact mem_map_of_mem hi
      obtain ⟨column, hcolumn, hidx⟩ := mem_map.mp hmem
      exact h column hcolumn i hidx
    rw [Option.map_some, Option.map_some, hcells]

/-- No cell of a key without NULL is NULL. -/
theorem at_ne_null_of_keyFromRow (h : keyFromRow t row columns = some key)
    (hnull : keyHasNullPart key = false) {column : String} (hcolumn : column ∈ columns) {i : ℕ}
    (hi : t.columnIndex column = some i) : row.at i ≠ .null := by
  rw [keyFromRow, Option.map_eq_some_iff] at h
  obtain ⟨indexes, hidxs, hkey⟩ := h
  have hmem : i ∈ indexes := by
    have : some i ∈ indexes.map some := by
      rw [← mapM_eq_some.mp hidxs, ← hi]
      exact mem_map_of_mem hcolumn
    simpa using this
  intro hcell
  have hpart : null ∈ indexes.map row.at := hcell ▸ mem_map_of_mem hmem
  revert hkey hpart
  generalize indexes.map row.at = parts
  intro hkey hpart
  split at hkey
  · obtain rfl := mem_singleton.mp hpart
    subst hkey
    cases hnull
  · subst hkey
    rw [keyHasNullPart, any_eq_false] at hnull
    exact hnull _ hpart rfl

/-- A key without NULL of a row with cells set to NULL is the key of the row. -/
theorem keyFromRow_of_nullWhere (h : keyFromRow t (row.nullWhere P) columns = some key)
    (hnull : keyHasNullPart key = false) :
    keyFromRow t row columns = some key ∧
      ∀ column ∈ columns, ∀ i, t.columnIndex column = some i → ¬P i := by
  have hcells : ∀ column ∈ columns, ∀ i, t.columnIndex column = some i → ¬P i :=
    fun column hcolumn i hi hP =>
      at_ne_null_of_keyFromRow h hnull hcolumn hi (Row.at_nullWhere_of hP)
  refine ⟨?_, hcells⟩
  rw [← h]
  exact keyFromRow_congr_at fun column hcolumn i hi =>
    (Row.at_nullWhere_of_not (hcells column hcolumn i hi)).symm

theorem any_isNull_of_beqParts {ps qs : List Value} (h : Value.beqParts ps qs = true) :
    ps.any Value.isNull = qs.any Value.isNull := by
  induction ps generalizing qs with
  | nil => cases qs <;> simp_all [beqParts]
  | cons p ps ih =>
    cases qs with
    | nil => simp [beqParts] at h
    | cons q qs =>
      rw [beqParts, Bool.and_eq_true] at h
      rw [any_cons, any_cons, isNull_of_beq h.1, ih h.2]

theorem keyHasNullPart_of_beq {v w : Value} (h : v.beq w = true) :
    keyHasNullPart v = keyHasNullPart w := by
  cases v with
  | composite ps =>
    cases w with
    | composite qs =>
      rw [beq] at h
      exact any_isNull_of_beqParts h
    | _ => simp [beq] at h
  | _ => cases w <;> simp_all [beq, keyHasNullPart]

theorem keyHasNullPart_makeComposite {parts : List Value} (hcell : ∀ v ∈ parts, v.IsCell)
    (h : Value.makeComposite parts = .ok key) : keyHasNullPart key = key.hasNullCompositePart := by
  rw [hasNull_makeComposite hcell h]
  rcases parts with _ | ⟨v, _ | ⟨w, parts⟩⟩
  · cases h
  · obtain rfl : v = key := Except.ok.inj h
    have hv := hcell v mem_cons_self
    cases v <;> simp_all [keyHasNullPart, isNull, Value.IsCell, type]
  · obtain rfl : composite (v :: w :: parts) = key := Except.ok.inj h
    rfl

theorem rowMatchesKey_eq_true : rowMatchesKey t row columns key = true ↔
    ∃ actual, keyFromRow t row columns = some actual ∧ actual.beq key = true := by
  unfold rowMatchesKey
  cases keyFromRow t row columns <;> simp

/-- A row that has a key without NULL after cells were set to NULL had it before. -/
theorem rowMatchesKey_of_nullWhere (h : rowMatchesKey t (row.nullWhere P) columns key = true)
    (hnull : keyHasNullPart key = false) : rowMatchesKey t row columns key = true := by
  obtain ⟨actual, hactual, hbeq⟩ := rowMatchesKey_eq_true.mp h
  exact rowMatchesKey_eq_true.mpr
    ⟨actual, (keyFromRow_of_nullWhere hactual ((keyHasNullPart_of_beq hbeq).trans hnull)).1, hbeq⟩

/-- A live row with the key makes the key visible, whether an index answers or a scan. -/
theorem parentKeyVisible_of_row (ht : t.Searchable) {snapshot : ReadSnapshot}
    {transactions : TransactionManager} (hmirrors : t.Mirrors snapshot transactions) {r : ℕ}
    (hrow : t.rowStore.get r = some row) (hmatch : rowMatchesKey t row columns key = true) :
    parentKeyVisible snapshot transactions t columns key = true := by
  unfold parentKeyVisible
  split
  · -- the ids of an index are ids of live rows
    next hit hits hlookup =>
    rw [indexedLookup, IndexManager.indexedLookup, Option.map_eq_some_iff] at hlookup
    obtain ⟨name, hname, hfind⟩ := hlookup
    obtain ⟨indexes, hcol, -, -⟩ := columnIndexName_eq_some hname
    have hmem : name ∈ t.indexManager.indexes := (ht.indexes.mem_indexes name).mpr (by
      rw [Std.ExtTreeMap.mem_iff_isSome_getElem?, hcol]
      rfl)
    obtain ⟨row', hrow', -⟩ := (ht.indexes.mem_find name hmem hit key).mp (hfind ▸ mem_cons_self)
    have hvis : (hit, row') ∈ t.versions.visibleEntriesById (hit :: hits) snapshot transactions :=
      (MvccRowStore.mem_visibleEntriesById ..).mpr ⟨mem_cons_self, (hmirrors hit).trans hrow'⟩
    rw [Bool.not_eq_true', isEmpty_eq_false_iff]
    exact ne_nil_of_mem hvis
  · exact any_eq_true.mpr
      ⟨(r, row), (MvccRowStore.mem_visibleEntries ..).mpr ((hmirrors r).trans hrow), hmatch⟩

end Keys

/-! ### What a DELETE acts on -/

/-- The cells of a foreign key of the table. -/
def Table.KeyCell (t : Table) (fk : ForeignKeyConstraint) (i : ℕ) : Prop :=
  ∃ column ∈ fk.childColumns, t.columnIndex column = some i

/-- The cells of SET NULL keys of the table that are among the keys `K`. -/
def Table.SetNullAt (t : Table) (K : ForeignKeyConstraint → Prop) (i : ℕ) : Prop :=
  ∃ fk ∈ t.foreignKeys, K fk ∧ fk.onDelete = .setNull ∧ t.KeyCell fk i

variable {parent node child : String × ℕ} {fk : ForeignKeyConstraint}

namespace Database

variable {db : Database}

/-- The row `child` refers to the row `parent` by a CASCADE key. -/
def CascadesTo (db : Database) (parent child : String × ℕ) : Prop :=
  ∃ fk : ForeignKeyConstraint, fk.onDelete = .cascade ∧ db.RefersBy fk parent child

theorem CascadesTo.references (h : db.CascadesTo parent child) : db.References parent child :=
  h.imp fun _ h => h.2

/-- Every row refers by each foreign key of its table to a row, or has a NULL in the key. -/
def SatisfiesForeignKeys (db : Database) : Prop :=
  ∀ (name : String) (id : ℕ) (t : Table) (r : ℕ) (row : Row), db.table name = some (id, t) →
    t.rowStore.get r = some row → ∀ fk ∈ t.foreignKeys, ∃ key,
      keyFromRow t row fk.childColumns = some key ∧
        (keyHasNullPart key = false → ∃ parent, db.RefersBy fk parent (name, r))

/-- A column of a SET NULL key among the keys `K` of the tables is in no other foreign key, neither
as a column of it nor as one that it refers to. -/
structure NullsApart (db : Database) (K : String → ForeignKeyConstraint → Prop) : Prop where
  own : ∀ name id t, db.table name = some (id, t) →
    ∀ fk ∈ t.foreignKeys, K name fk → fk.onDelete = .setNull → ∀ fk' ∈ t.foreignKeys,
      ∀ column ∈ fk.childColumns, column ∈ fk'.childColumns → fk' = fk
  referred : ∀ name id t, db.table name = some (id, t) →
    ∀ fk ∈ t.foreignKeys, K name fk → fk.onDelete = .setNull → ∀ (name' : String) (id' : ℕ)
      (t' : Table), db.table name' = some (id', t') → ∀ fk' ∈ t'.foreignKeys,
        fk'.parentTable = name →
        ∀ column ∈ fk.childColumns, column ∉ fk'.parentColumns

/-- The row `child` refers by SET NULL keys to the row `parent` and to a row that is erased with
it. -/
def NulledTwice (db : Database) (parent child : String × ℕ) : Prop :=
  ∃ (fk fk' : ForeignKeyConstraint) (other : String × ℕ), fk.onDelete = .setNull ∧
    fk'.onDelete = .setNull ∧ db.RefersBy fk parent child ∧
    Relation.TransGen db.CascadesTo parent other ∧ db.RefersBy fk' other child

/-- The rows that go with the targets of a DELETE by CASCADE keys. -/
def Erased (db : Database) (targets : List (String × ℕ)) (node : String × ℕ) : Prop :=
  ∃ target ∈ targets, Relation.ReflTransGen db.CascadesTo target node

/-- A row of the table refers by the foreign key to a row that goes with a target. -/
def ActsOn (db : Database) (targets : List (String × ℕ)) (name : String)
    (fk : ForeignKeyConstraint) :
    Prop :=
  ∃ parent r, db.Erased targets parent ∧ db.RefersBy fk parent (name, r)

/-- The image of a row that goes with a target, with cells of SET NULL keys set to NULL. -/
def ErasedEntry (db : Database) (targets : List (String × ℕ)) (node : String × ℕ) (id : ℕ)
    (image : Row) : Prop :=
  ∃ (t : Table) (row : Row) (N : ℕ → Prop), db.table node.1 = some (id, t) ∧
    t.rowStore.get node.2 = some row ∧ image = row.nullWhere N ∧
    (∀ i, N i → t.SetNullAt (db.ActsOn targets node.1) i) ∧ db.Erased targets node

/-- The cells that are NULL once the rows `removed` are erased: those of the SET NULL keys that
refer to one of them. -/
def NulledAt (db : Database) (removed : List (String × ℕ)) (node : String × ℕ) (i : ℕ) : Prop :=
  ∃ (id : ℕ) (t : Table) (fk : ForeignKeyConstraint), db.table node.1 = some (id, t) ∧
    fk ∈ t.foreignKeys ∧ fk.onDelete = .setNull ∧ (∃ parent ∈ removed, db.RefersBy fk parent node) ∧
    t.KeyCell fk i

/-- The cells that the SET NULL action on a hit sets to NULL. -/
def NulledBy (db : Database) (hit : ForeignKeyChildHit) (node : String × ℕ) (i : ℕ) : Prop :=
  hit.fk.onDelete = .setNull ∧ node = (hit.tableName, hit.rowId) ∧
    ∃ t : Table, db.table hit.tableName = some (hit.table, t) ∧ hit.fk ∈ t.foreignKeys ∧
      t.KeyCell hit.fk i

variable {removed targets : List (String × ℕ)} {name : String} {id r i : ℕ} {t : Table} {row : Row}
  {P : ℕ → Prop} {K : String → ForeignKeyConstraint → Prop}

theorem NulledAt.setNullAt (h : db.NulledAt removed (name, r) i) (ht : db.table name = some (id, t))
    (herased : ∀ node ∈ removed, db.Erased targets node) :
    t.SetNullAt (db.ActsOn targets name) i := by
  obtain ⟨_, _, fk, ht', hfk, hnull, ⟨parent, hparent, hrefers⟩, hcolumn⟩ := h
  obtain ⟨-, rfl⟩ := table_unique ht' ht
  exact ⟨fk, hfk, ⟨parent, r, herased parent hparent, hrefers⟩, hnull, hcolumn⟩

/-- The cells that are NULL once one more row is erased, after the SET NULL actions on the hits that
refer to it. -/
theorem nulledAt_cons_iff {refs : List ForeignKeyChildHit}
    (hrefs : ∀ hit ∈ refs, db.RefersBy hit.fk parent (hit.tableName, hit.rowId))
    (hall : ∀ (fk : ForeignKeyConstraint) (id : ℕ) (t : Table), db.table node.1 = some (id, t) →
      db.RefersBy fk parent node →
      ∃ hit ∈ refs, hit.fk = fk ∧ hit.table = id ∧ node = (hit.tableName, hit.rowId)) :
    (db.NulledAt removed node i ∨ ∃ hit ∈ refs, db.NulledBy hit node i) ↔
      db.NulledAt (parent :: removed) node i := by
  constructor
  · rintro (⟨id, t, fk, ht, hfk, hnull, ⟨other, hother, hrefers⟩, hcell⟩ |
      ⟨hit, hhit, hnull, rfl, t, ht, hfk, hcell⟩)
    · exact ⟨id, t, fk, ht, hfk, hnull, ⟨other, mem_cons_of_mem _ hother, hrefers⟩, hcell⟩
    · exact ⟨hit.table, t, hit.fk, ht, hfk, hnull, ⟨parent, mem_cons_self, hrefs hit hhit⟩, hcell⟩
  · rintro ⟨id, t, fk, ht, hfk, hnull, ⟨other, hother, hrefers⟩, hcell⟩
    rcases mem_cons.mp hother with rfl | hother
    · obtain ⟨hit, hhit, rfl, rfl, rfl⟩ := hall fk id t ht hrefers
      exact Or.inr ⟨hit, hhit, hnull, rfl, t, ht, hfk, hcell⟩
    · exact Or.inl ⟨id, t, fk, ht, hfk, hnull, ⟨other, hother, hrefers⟩, hcell⟩

/-- Two columns at the same position are one column. -/
theorem eq_of_columnIndex {c c' : String} (h : t.columnIndex c = some i)
    (h' : t.columnIndex c' = some i) : c = c' :=
  (columnName_of_findColumn h).symm.trans (columnName_of_findColumn h')

/-- Setting cells of SET NULL keys to NULL does not change the key that others refer to. -/
theorem NullsApart.keyFromRow_eq (h : db.NullsApart K) (ht : db.table name = some (id, t))
    (hP : ∀ i, P i → t.SetNullAt (K name) i) {name' : String} {id' : ℕ} {t' : Table}
    (ht' : db.table name' = some (id', t')) (hfk : fk ∈ t'.foreignKeys)
    (hparent : fk.parentTable = name) :
    keyFromRow t (row.nullWhere P) fk.parentColumns = keyFromRow t row fk.parentColumns := by
  refine keyFromRow_congr_at fun column hcolumn i hi => Row.at_nullWhere_of_not fun hPi => ?_
  obtain ⟨fk', hfk', hK, hnull, column', hcolumn', hi'⟩ := hP i hPi
  obtain rfl := eq_of_columnIndex hi' hi
  exact h.referred name id t ht fk' hfk' hK hnull name' id' t' ht' fk hfk hparent _ hcolumn' hcolumn

/-- Tables get higher ranks along references, when every foreign key refers to a table of a lower
rank. -/
theorem rank_lt_of_transGen (rank : String → ℕ)
    (hrank : ∀ name id t, db.table name = some (id, t) → ∀ fk ∈ t.foreignKeys,
      rank fk.parentTable < rank name)
    (h : Relation.TransGen db.References parent child) : rank parent.1 < rank child.1 := by
  have hstep : ∀ p c, db.References p c → rank p.1 < rank c.1 := by
    rintro p c ⟨fk, _, j, _, t, _, _, _, -, ht, -, -, hfk, hparent, -⟩
    exact hparent ▸ hrank _ j t ht fk hfk
  induction h with
  | single hrefers => exact hstep _ _ hrefers
  | tail _ hrefers ih => exact ih.trans (hstep _ _ hrefers)

/-- The parts of a reference, with the tables given. -/
theorem refersBy_iff {j : ℕ} {p c : Table} (hp : db.table parent.1 = some (i, p))
    (hc : db.table child.1 = some (j, c)) :
    db.RefersBy fk parent child ↔ ∃ (row row' : Row) (key : Value),
      p.rowStore.get parent.2 = some row ∧ c.rowStore.get child.2 = some row' ∧
      fk ∈ c.foreignKeys ∧ fk.parentTable = parent.1 ∧
      keyFromRow p row fk.parentColumns = some key ∧ keyHasNullPart key = false ∧
      rowMatchesKey c row' fk.childColumns key = true := by
  constructor
  · rintro ⟨_, _, _, _, row, row', key, hp', hc', hrest⟩
    obtain ⟨-, rfl⟩ := table_unique hp' hp
    obtain ⟨-, rfl⟩ := table_unique hc' hc
    exact ⟨row, row', key, hrest⟩
  · rintro ⟨row, row', key, hrest⟩
    exact ⟨i, j, p, c, row, row', key, hp, hc, hrest⟩

end Database

/-! ### The rows erased and the cells set to NULL so far -/

namespace Engine

variable {s s₀ s' : Engine}

/-- A state whose tables are sound and whose foreign keys are valid definitions and hold. -/
structure Intact (s : Engine) : Prop extends Steady s where
  sound : s.AllSound
  definitions : ∀ name id t, s.database.table name = some (id, t) →
    validateForeignKeyDefinitions s.database name t.schema t.foreignKeys [] [] = .ok ()
  satisfied : s.database.SatisfiesForeignKeys

/-- An intact state in which no CHECK predicate and no index expression throws on a valid row. -/
structure Orderly (s : Engine) : Prop extends Intact s where
  checks : ∀ name id t, s.database.table name = some (id, t) → t.ChecksTotal
  indexes : ∀ name id t, s.database.table name = some (id, t) → t.IndexesTotal

section Orderly

variable {name : String} {id r i : ℕ} {t : Table} {row : Row}

/-- A cell of a SET NULL key can be NULL. -/
theorem Orderly.nullable (hs : s.Orderly) (ht : s.database.table name = some (id, t))
    {K : ForeignKeyConstraint → Prop} (hi : t.SetNullAt K i) :
    ∃ column, t.schema[i]? = some column ∧ column.nullable = true := by
  obtain ⟨fk, hfk, -, hnull, column, hcolumn, hidx⟩ := hi
  obtain ⟨-, -, hcols⟩ := of_validateForeignKeyDefinitions (hs.definitions name id t ht) hfk
  obtain ⟨found, hfound, hnullable⟩ := hcols hnull column hcolumn
  refine ⟨found, ?_, hnullable⟩
  rw [find?_eq_bind_findIdx?_getElem?] at hfound
  rw [columnIndex, findColumn] at hidx
  rwa [hidx] at hfound

/-- A row refers to at most one row by a foreign key. -/
theorem Orderly.parent_unique (hs : s.Orderly) {parent' : String × ℕ}
    (h : s.database.RefersBy fk parent child) (h' : s.database.RefersBy fk parent' child) :
    parent = parent' := by
  obtain ⟨i, j, p, c, row, crow, key, hp, hc, hrow, hcrow, hfk, hname, hkey, hnull, hmatch⟩ := h
  obtain ⟨i', j', p', c', row', crow', key', hp', hc', hrow', hcrow', -, hname', hkey', -,
    hmatch'⟩ := h'
  obtain ⟨rfl, rfl⟩ := table_unique hc hc'
  obtain rfl := Option.mem_unique hcrow hcrow'
  obtain ⟨name, r⟩ := parent
  obtain ⟨name', r'⟩ := parent'
  obtain rfl : name = name' := hname.symm.trans hname'
  obtain ⟨rfl, rfl⟩ := table_unique hp hp'
  obtain ⟨-, ⟨k, q, hq, constraint, hcon, hcols⟩, -⟩ :=
    of_validateForeignKeyDefinitions (hs.definitions _ _ _ hc) hfk
  rw [hname] at hq
  obtain ⟨rfl, rfl⟩ := table_unique hp hq
  -- the two parent rows agree on the UNIQUE key that the child refers to
  obtain ⟨actual, hactual, hbeq⟩ := rowMatchesKey_eq_true.mp hmatch
  obtain ⟨actual', hactual', hbeq'⟩ := rowMatchesKey_eq_true.mp hmatch'
  obtain rfl := Option.mem_unique hactual hactual'
  have haccepts := (hs.sound _ _ p hp).accepted r row hrow
  obtain ⟨indexes, hresolves⟩ := haccepts.keys constraint hcon
  obtain ⟨left, hleft⟩ := hresolves.exists_key row
  obtain ⟨right, hright⟩ := hresolves.exists_key row'
  have hmap : fk.parentColumns.map p.columnIndex = indexes.map some := hcols ▸ hresolves.2
  obtain rfl := Option.some.inj (hkey.symm.trans (keyFromRow_eq row hmap hleft))
  obtain rfl := Option.some.inj (hkey'.symm.trans (keyFromRow_eq row' hmap hright))
  have hcell : ∀ i, (row.at i).IsCell := isCell_of_validateRow haccepts.valid
  have hequal : p.uniqueRowsEqual constraint row row' = true := by
    rw [uniqueRowsEqual_iff_key hresolves hcell hleft hright, Bool.and_eq_true]
    refine ⟨?_, beq_trans (by rwa [beq_comm]) hbeq⟩
    rw [← keyHasNullPart_makeComposite (by simpa using fun i _ => hcell i) hleft, hnull]
    rfl
  by_contra hne
  have hother := haccepts.unique r' row' hrow' fun heq => hne (by rw [Option.some.inj heq])
  rw [rowsConflictOnUnique, any_eq_false] at hother
  exact hother constraint hcon hequal

/-- The columns of a foreign key are columns of the table. -/
theorem Orderly.exists_keyCell (hs : s.Orderly) (ht : s.database.table name = some (id, t))
    (hrow : t.rowStore.get r = some row) (hfk : fk ∈ t.foreignKeys) :
    ∃ i, t.KeyCell fk i := by
  obtain ⟨hne, -, -⟩ := of_validateForeignKeyDefinitions (hs.definitions name id t ht) hfk
  obtain ⟨key, hkey, -⟩ := hs.satisfied name id t r row ht hrow fk hfk
  rw [keyFromRow, Option.map_eq_some_iff] at hkey
  obtain ⟨indexes, hidxs, -⟩ := hkey
  obtain ⟨column, hcolumn⟩ := exists_mem_of_ne_nil _ hne
  have hmem : t.columnIndex column ∈ indexes.map some := by
    rw [← mapM_eq_some.mp hidxs]
    exact mem_map_of_mem hcolumn
  obtain ⟨i, -, hi⟩ := mem_map.mp hmem
  exact ⟨i, column, hcolumn, hi.symm⟩

end Orderly

/-- The state `s` has the tables of `s₀` without the rows `removed` and with NULL in the cells `P`
of the other rows, which are cells of SET NULL keys among the keys `K`. -/
structure Nulled (s₀ : Engine) (K : String → ForeignKeyConstraint → Prop) (s : Engine)
    (removed : List (String × ℕ)) (P : String × ℕ → ℕ → Prop) : Prop
    extends Edited s₀ s removed fun node row => row.nullWhere (P node) where
  sound : s.AllSound
  places : ∀ name id t, s₀.database.table name = some (id, t) →
    ∀ r, (name, r) ∉ removed → ∀ i, P (name, r) i → t.SetNullAt (K name) i

section Steps

variable {K : String → ForeignKeyConstraint → Prop} {removed : List (String × ℕ)}
  {P Q : String × ℕ → ℕ → Prop} {name : String} {id r i : ℕ} {t t₀ : Table} {row : Row}
  {writerId : ℕ}

theorem Nulled.refl (hs : s.Orderly) (h : ∀ node i, ¬P node i) : s.Nulled K s [] P where
  steady := hs.toSteady
  catalog := rfl
  session := ⟨rfl, rfl⟩
  tables name id t ht := ⟨t, ht, .refl t, fun r => by
    simp [Row.nullWhere_of_forall_not (h (name, r))]⟩
  sound := hs.sound
  places name _ _ _ r _ i hi := absurd hi (h (name, r) i)

/-- Only the cells of rows that are there matter. -/
theorem Nulled.congr (h : s₀.Nulled K s removed P)
    (hPQ : ∀ node ∉ removed, ∀ i, P node i ↔ Q node i) : s₀.Nulled K s removed Q where
  steady := h.steady
  catalog := h.catalog
  session := h.session
  tables name id t₀ ht₀ := by
    obtain ⟨t, ht, hsame, hrows⟩ := h.tables name id t₀ ht₀
    refine ⟨t, ht, hsame, fun r => ?_⟩
    rw [hrows]
    by_cases hr : (name, r) ∈ removed
    · simp [hr]
    · rw [if_neg hr, if_neg hr, Row.nullWhere_congr (hPQ (name, r) hr)]
  sound := h.sound
  places name id t ht r hr i hi := h.places name id t ht r hr i ((hPQ (name, r) hr i).mpr hi)

/-- The table of a state, with what it has of the table of the first state. -/
theorem Nulled.table (h : s₀.Nulled K s removed P) (ht₀ : s₀.database.table name = some (id, t₀)) :
    ∃ t, s.database.table name = some (id, t) ∧ t₀.SameDefinition t ∧ t.Sound ∧ ∀ r,
      t.rowStore.get r =
        if (name, r) ∈ removed then
          none else (t₀.rowStore.get r).map (Row.nullWhere (P (name, r))) := by
  obtain ⟨t, ht, hsame, hrows⟩ := h.tables name id t₀ ht₀
  exact ⟨t, ht, hsame, h.sound name id t ht, hrows⟩

section Tables

variable (hs₀ : s₀.Orderly) (h : s₀.Nulled K s removed P)
  (ht₀ : s₀.database.table name = some (id, t₀))
include hs₀ h ht₀

/-- A row of the first state is accepted with NULL in cells of SET NULL keys. -/
theorem Nulled.accepts (ht : s.database.table name = some (id, t))
    (hrow : t₀.rowStore.get r = some row) {N : ℕ → Prop} (hN : ∀ i, N i → t₀.SetNullAt (K name) i) :
    t.Accepts t.rowStore.get (row.nullWhere N) (some r) := by
  obtain ⟨_, ht', hsame, -, hrows⟩ := h.table ht₀
  obtain ⟨-, rfl⟩ := table_unique ht' ht
  have haccepts := (hs₀.sound name id t₀ ht₀).accepted r row hrow
  refine hsame.rules.accepts ⟨?_, haccepts.keys, fun r' other hother hne => ?_⟩
  · refine validateRow_nullWhere (hs₀.checks name id t₀ ht₀) haccepts.valid
      fun i column hi hcolumn => ?_
    obtain ⟨found, hfound, hnullable⟩ := hs₀.nullable ht₀ (hN i hi)
    exact Option.mem_unique hcolumn hfound ▸ hnullable
  · rw [hrows] at hother
    split_ifs at hother
    obtain ⟨other₀, hother₀, rfl⟩ := Option.map_eq_some_iff.mp hother
    have hapart := haccepts.unique r' other₀ hother₀ hne
    by_contra hconflict
    rw [rowsConflictOnUnique_nullWhere (Bool.eq_true_of_not_eq_false hconflict)] at hapart
    cases hapart

/-- A table is replaced by one with the same definition, in which other rows are removed or have
other cells set to NULL. -/
theorem Nulled.of_setObject {removed' : List (String × ℕ)}
    (ht : s.database.table name = some (id, t)) {t' : Table}
    (hdb : s'.database = s.database.setObject id t') (hdef : t.SameDefinition t')
    (hsession : s.SameSession s') (hrecorded : s.transactions.Recorded s'.transactions)
    (hsound : t'.Sound) (htracked : t'.Tracked s.Sees)
    (hrows : ∀ r, t'.rowStore.get r = if (name, r) ∈ removed' then
    none else (t₀.rowStore.get r).map (Row.nullWhere (Q (name, r))))
    (hothers : ∀ node : String × ℕ, node.1 ≠ name → (node ∈ removed' ↔ node ∈ removed) ∧
    ∀ i, Q node i ↔ P node i)
    (hplaces : ∀ r, (name, r) ∉ removed' → ∀ i, Q (name, r) i → t₀.SetNullAt (K name) i) :
    s₀.Nulled K s' removed' Q ∧ s'.Sees = s.Sees := by
  have hsees := sees_of_recorded hsession.2 hrecorded
  refine ⟨⟨h.toEdited.of_setObject hs₀.toSteady ht₀ ht hdb hdef hsession
    (hrecorded.valid h.steady.transactions) hsees hsound.searchable htracked hrows
    (fun node hnode => ⟨(hothers node hnode).1, funext fun row =>
      congrFun (Row.nullWhere_congr (hothers node hnode).2) row⟩),
    forall_table_setObject (getElem?_of_table ht) hdb hsound h.sound,
    fun name' id' t' ht' r hr i hi => ?_⟩, hsees⟩
  by_cases hname : name' = name
  · subst hname
    obtain ⟨-, rfl⟩ := table_unique ht' ht₀
    exact hplaces r hr i hi
  · obtain ⟨hremoved, hcells⟩ := hothers (name', r) hname
    exact h.places name' id' t' ht' r (mt hremoved.mpr hr) i ((hcells i).mp hi)

/-- A cell of a SET NULL key is set to NULL. -/
theorem Nulled.updateCell (hrow : t₀.rowStore.get r = some row) (hlive : (name, r) ∉ removed)
    (hi : t₀.SetNullAt (K name) i) (hwriter : s.Sees writerId) :
    ∃ s', onTable id (TableAccess.update r i .null writerId) (s.cleared id) = .ok true s' ∧
      s₀.Nulled K s' removed (fun node j => P node j ∨ node = (name, r) ∧ j = i) ∧
      s'.Sees = s.Sees := by
  obtain ⟨t, ht, hsame, hsound, hrows⟩ := h.table ht₀
  have hget : t.rowStore.get r = some (row.nullWhere (P (name, r))) := by
    rw [hrows, if_neg hlive, hrow, Option.map_some]
  have hplaces : ∀ j, (P (name, r) j ∨ j = i) → t₀.SetNullAt (K name) j := by
    rintro j (hj | rfl)
    · exact h.places name id t₀ ht₀ r hlive j hj
    · exact hi
  set updated := (row.nullWhere (P (name, r))).set i .null with hupd
  have hnulled : updated = row.nullWhere fun j => P (name, r) j ∨ j = i := by
    rw [hupd, Row.set_null, Row.nullWhere_nullWhere]
  have haccepts : t.clearDirtyTracking.Accepts t.clearDirtyTracking.rowStore.get updated
      (some r) := by
    rw [hnulled]
    exact t.sameRules_clearDirtyTracking.accepts (h.accepts hs₀ ht₀ ht hrow hplaces)
  obtain ⟨column, hcolumn, hnullable⟩ := hs₀.nullable ht₀ hi
  have hcolumn' : t.clearDirtyTracking.schema[i]? = some column := hsame.rules.schema ▸ hcolumn
  have hidxable : t.clearDirtyTracking.Indexable updated :=
    (hsame.rules.trans t.sameRules_clearDirtyTracking).indexesTotal (hs₀.indexes name id t₀ ht₀)
      updated haccepts.valid
  have hcleared := hsound.clearDirtyTracking
  have hchecked := (hcleared.updatedRow_iff hget hcolumn').mpr
    ⟨hupd, Or.inl ⟨rfl, hnullable⟩, haccepts⟩
  have hupdate := TableAccess.update_ok (s := ⟨t.clearDirtyTracking, s.transactions⟩) hcleared hget
    hcolumn' hchecked hidxable writerId
  have hstep : TableAccess.RowStep writerId (fun _ _ => True) ⟨t.clearDirtyTracking, s.transactions⟩
      (.update r row)
      (TableAccess.afterUpdate ⟨t.clearDirtyTracking, s.transactions⟩ r updated writerId) :=
    TableAccess.rowStep_afterUpdate hcleared hget haccepts hidxable writerId trivial
  refine ⟨_, onTable_cleared_ok (getElem?_of_table ht) hupdate,
    h.of_setObject hs₀ ht₀ ht rfl ?_ ⟨rfl, rfl⟩ hstep.recorded hstep.sound
      (hstep.tracked hwriter (h.steady.tracked name id t ht)) (fun r' => ?_)
      (fun node hnode => ⟨Iff.rfl, fun j => ?_⟩) (fun r' hr' j hj => ?_)⟩
  · exact t.sameDefinition_clearDirtyTracking.trans
      ⟨t.clearDirtyTracking.sameRules_changed _ _, rfl, rfl⟩
  · have hset := PageRowStore.get_setRow hcleared.store updated hget
    refine (congrFun hset r').trans ?_
    rw [Function.update_apply]
    by_cases hr : r' = r
    · rw [if_pos hr, hr, if_neg hlive, hrow, Option.map_some, hnulled]
      exact congrArg some (congrFun (Row.nullWhere_congr fun j => by simp) row)
    · have hkept : ∀ j, P (name, r') j ↔ P (name, r') j ∨ (name, r') = (name, r) ∧ j = i :=
        fun j => by simp [hr]
      rw [if_neg hr, ← Row.nullWhere_congr hkept]
      exact hrows r'
  · refine ⟨fun hj => hj.resolve_right ?_, Or.inl⟩
    rintro ⟨rfl, -⟩
    exact hnode rfl
  · rcases hj with hj | ⟨heq, rfl⟩
    · exact h.places name id t₀ ht₀ r' hr' j hj
    · exact hi

/-- The cells of a SET NULL key are set to NULL one after another. -/
theorem Nulled.updateCells (hrow : t₀.rowStore.get r = some row) (hlive : (name, r) ∉ removed)
    (hidxs : ∀ i ∈ indexes, t₀.SetNullAt (K name) i) (hwriter : s.Sees writerId) :
    ∃ changed s', Engine.updateCells id r .null writerId indexes s = .ok changed s' ∧
      s₀.Nulled K s' removed (fun node j => P node j ∨ node = (name, r) ∧ j ∈ indexes) ∧
      s'.Sees = s.Sees := by
  induction indexes generalizing s P with
  | nil => exact ⟨false, s, rfl, h.congr fun node _ i => by simp, rfl⟩
  | cons index indexes ih =>
    obtain ⟨hidx, hidxs⟩ := forall_mem_cons.mp hidxs
    obtain ⟨s₁, hrun, h₁, hsees₁⟩ := h.updateCell hs₀ ht₀ hrow hlive hidx hwriter
    obtain ⟨changed, s', hrest, h', hsees'⟩ := ih h₁ hidxs (hsees₁ ▸ hwriter)
    refine ⟨true, s', ?_, h'.congr fun node _ i => ?_, hsees'.trans hsees₁⟩
    · simp only [Engine.updateCells]
      rw [clearDirtyTracking, modify_bind, bind_of_ok hrun, bind_of_ok hrest]
      rfl
    · simp only [mem_cons]
      tauto

/-- The records of a change leave the rows as they are. -/
theorem Nulled.relogged (undo : UndoRecord) (redoName : String) :
    s₀.Nulled K (withRedo id redoName (withUndo undo s)) removed P ∧
      (withRedo id redoName (withUndo undo s)).Sees = s.Sees := by
  obtain ⟨t, ht, -, hsound, hrows⟩ := h.table ht₀
  have hobject := getElem?_of_table ht
  have hself : s.putBack id ⟨t, s.transactions⟩ = s := by
    rw [putBack, setObject_self hobject]
  have hlogged : withRedo id redoName (withUndo undo s) =
      s.logged id ⟨t, s.transactions⟩ undo redoName := by
    rw [logged, hself]
  rw [hlogged]
  refine h.of_setObject hs₀ ht₀ ht (database_logged hobject _ undo redoName)
    t.sameDefinition_clearDirtyTracking (sameSession_logged hobject _ undo redoName) ?_
    hsound.clearDirtyTracking (h.steady.tracked name id t ht)
      hrows (fun _ _ => ⟨Iff.rfl, fun _ => Iff.rfl⟩)
    (h.places name id t₀ ht₀)
  rw [transactions_logged hobject]
  exact .refl _

end Tables

/-- The change of a child row, with its records. -/
theorem Nulled.changeChildRow (hs₀ : s₀.Orderly) (h : s₀.Nulled K s removed P)
    {hit : ForeignKeyChildHit}
    (ht₀ : s₀.database.table hit.tableName = some (hit.table, t₀))
    (hrow : t₀.rowStore.get hit.rowId = some row) (hlive : (hit.tableName, hit.rowId) ∉ removed)
    (hidxs : ∀ i ∈ indexes, t₀.SetNullAt (K hit.tableName) i) (hwriter : s.Sees writerId) :
    ∃ s', Engine.changeChildRow hit indexes .null writerId s = .ok ⟨⟩ s' ∧
      s₀.Nulled K s' removed
        (fun node j => P node j ∨ node = (hit.tableName, hit.rowId) ∧ j ∈ indexes) ∧
      s'.Sees = s.Sees := by
  obtain ⟨changed, s₁, hrun, h₁, hsees₁⟩ := h.updateCells hs₀ ht₀ hrow hlive hidxs hwriter
  rw [Engine.changeChildRow, bind_of_ok hrun]
  cases changed with
  | false => exact ⟨s₁, rfl, h₁, hsees₁⟩
  | true =>
    obtain ⟨h₂, hsees₂⟩ := h₁.relogged hs₀ ht₀ (.row hit.tableName (.update hit.rowId hit.row))
      hit.tableName
    exact ⟨_, rfl, h₂, hsees₂.trans hsees₁⟩

/-- The foreign keys of a row with cells set to NULL hold when the rows that the others refer to are
still there. -/
theorem Nulled.assertForeignKeys (hs₀ : s₀.Orderly) (hapart : s₀.database.NullsApart K)
    (h : s₀.Nulled K s removed P) {snapshot : ReadSnapshot} (hmirrors : s.Mirrored snapshot)
    (ht₀ : s₀.database.table name = some (id, t₀)) (ht : s.database.table name = some (id, t))
    (hrow : t₀.rowStore.get r = some row) {N : ℕ → Prop}
    (hparents : ∀ fk ∈ t₀.foreignKeys, ∀ parent, s₀.database.RefersBy fk parent (name, r) →
      (∀ i, t₀.KeyCell fk i → ¬N i) → parent ∉ removed) :
    assertForeignKeysOnChildRow snapshot s.transactions s.database t (row.nullWhere N) =
      .ok () := by
  obtain ⟨_, ht', hsame, -, -⟩ := h.table ht₀
  obtain ⟨-, rfl⟩ := table_unique ht' ht
  refine forM_except_eq_ok.mpr fun fk hfk => ?_
  rw [hsame.foreignKeys] at hfk
  obtain ⟨key₀, hkey₀, hparent⟩ := hs₀.satisfied name id t₀ r row ht₀ hrow fk hfk
  rw [assertForeignKey, keyFromRow_congr hsame.rules]
  cases hkey : keyFromRow t₀ (row.nullWhere N) fk.childColumns with
  | none =>
    rw [keyFromRow, Option.map_eq_none_iff] at hkey
    rw [keyFromRow, hkey] at hkey₀
    cases hkey₀
  | some key =>
    cases hnull : keyHasNullPart key with
    | true => simp [hnull, pure, Except.pure]
    | false =>
      obtain ⟨hsame', hcells⟩ := keyFromRow_of_nullWhere hkey hnull
      obtain rfl := Option.mem_unique hkey₀ hsame'
      obtain ⟨⟨pname, pr⟩, hrefers⟩ := hparent hnull
      have hlive := hparents fk hfk _ hrefers fun i hi => by
        obtain ⟨column, hcolumn, hidx⟩ := hi
        exact hcells column hcolumn i hidx
      -- the parent row is there, and its key is the one it had
      obtain ⟨i, j, p, c, prow, crow, pkey, hp, hc, hprow, hcrow, -, hname, hpkey, -, hmatch⟩ :=
        hrefers
      obtain ⟨-, rfl⟩ := table_unique hc ht₀
      obtain rfl := Option.mem_unique hcrow hrow
      obtain ⟨actual, hactual, hbeq⟩ := rowMatchesKey_eq_true.mp hmatch
      obtain rfl := Option.mem_unique hactual hkey₀
      obtain ⟨q, hq, hqsame, hqsound, hqrows⟩ := h.table hp
      have hqrow : q.rowStore.get pr = some (prow.nullWhere (P (pname, pr))) := by
        rw [hqrows, if_neg hlive, hprow, Option.map_some]
      have hqmatch : rowMatchesKey q (prow.nullWhere (P (pname, pr))) fk.parentColumns
          actual = true := by
        rw [rowMatchesKey_congr hqsame.rules, rowMatchesKey_eq_true]
        refine ⟨pkey, ?_, by rwa [beq_comm]⟩
        rw [hapart.keyFromRow_eq hp (h.places pname i p hp pr hlive) ht₀ hfk hname, hpkey]
      rw [hname, hq]
      simp [hnull, parentKeyVisible_of_row hqsound.searchable (hmirrors _ _ _ hq) hqrow hqmatch,
        pure, Except.pure]

theorem mapM_childIndex {columns : List String} (h : columns.map t.columnIndex = indexes.map some) :
    columns.mapM (childIndex t) = .ok indexes := by
  induction columns generalizing indexes with
  | nil =>
    obtain rfl : indexes = [] := by simpa using h.symm
    rfl
  | cons column columns ih =>
    cases indexes with
    | nil => simp at h
    | cons index indexes =>
      rw [map_cons, map_cons, cons.injEq] at h
      rw [mapM_cons, childIndex_eq_ok.mpr h.1, ih h.2]
      rfl

/-- A SET NULL key of a child row is set to NULL in the image of the row, when the rows that the
image refers to by other keys are still there. -/
theorem Nulled.setNullChild (hs₀ : s₀.Orderly) (hapart : s₀.database.NullsApart K)
    (h : s₀.Nulled K s removed P) {snapshot : ReadSnapshot} (hmirrors : s.Mirrored snapshot)
    {hit : ForeignKeyChildHit}
    (ht₀ : s₀.database.table hit.tableName = some (hit.table, t₀))
    (hrow : t₀.rowStore.get hit.rowId = some row) (hlive : (hit.tableName, hit.rowId) ∉ removed)
    (hfk : hit.fk ∈ t₀.foreignKeys) (hK : K hit.tableName hit.fk)
    (hnull : hit.fk.onDelete = .setNull)
    {N : ℕ → Prop} (himage : hit.row = row.nullWhere N)
    (hN : ∀ i, N i → t₀.SetNullAt (K hit.tableName) i) (hwriter : s.Sees writerId)
    (hparents : ∀ fk ∈ t₀.foreignKeys, ∀ parent,
      s₀.database.RefersBy fk parent (hit.tableName, hit.rowId) →
      (∀ i, t₀.KeyCell fk i → ¬(N i ∨ t₀.KeyCell hit.fk i)) → parent ∉ removed) :
    ∃ s', Engine.setNullChild hit snapshot writerId s = .ok ⟨⟩ s' ∧
      s₀.Nulled K s' removed
        (fun node j => P node j ∨ node = (hit.tableName, hit.rowId) ∧ t₀.KeyCell hit.fk j) ∧
      s'.Sees = s.Sees := by
  obtain ⟨t, ht, hsame, hsound, -⟩ := h.table ht₀
  have hobject := getElem?_of_table ht
  obtain ⟨key, hkey, -⟩ := hs₀.satisfied _ _ t₀ _ row ht₀ hrow hit.fk hfk
  rw [keyFromRow, Option.map_eq_some_iff] at hkey
  obtain ⟨indexes, hidxs, -⟩ := hkey
  have hmap := mapM_eq_some.mp hidxs
  have hmem : ∀ i, i ∈ indexes ↔ t₀.KeyCell hit.fk i := fun i => by
    have hsome : some i ∈ indexes.map some ↔ i ∈ indexes := by simp
    rw [← hsome, ← hmap, mem_map]
    rfl
  have hplaces : ∀ i, (N i ∨ i ∈ indexes) → t₀.SetNullAt (K hit.tableName) i := by
    rintro i (hi | hi)
    · exact hN i hi
    · exact ⟨hit.fk, hfk, hK, hnull, (hmem i).mp hi⟩
  have hupd : indexes.foldl (fun row index => row.set index .null) hit.row =
      row.nullWhere fun i => N i ∨ i ∈ indexes := by
    rw [Row.foldl_set_null, himage, Row.nullWhere_nullWhere]
  have haccepts := h.accepts hs₀ ht₀ ht hrow hplaces
  have hunique := (hsound.assertUniqueRow_iff _ _).mpr haccepts
  have hkeys :=
    h.assertForeignKeys hs₀ hapart hmirrors ht₀ ht hrow (N := fun i => N i ∨ i ∈ indexes)
    fun fk hfk parent hrefers hcells => hparents fk hfk parent hrefers fun i hi hor =>
      hcells i hi (hor.imp_right (hmem i).mpr)
  obtain ⟨s', hrun, h', hsees⟩ := h.changeChildRow hs₀ ht₀ hrow hlive
    (fun i hi => hplaces i (Or.inr hi)) hwriter
  refine ⟨s', ?_, h'.congr fun node _ i => by rw [hmem], hsees⟩
  have hchild : hit.fk.childColumns.mapM (childIndex t) = .ok indexes :=
    mapM_childIndex (hsame.rules.columnIndex ▸ hmap)
  rw [Engine.setNullChild, bind_of_ok (object_ok hobject), hchild, ofExcept_ok_bind,
    Engine.updateChildRow, bind_of_ok (object_ok hobject)]
  simp only [get_bind, hupd, haccepts.valid, hunique, hkeys, ofExcept_ok_bind]
  exact hrun

/-- One more row is erased. -/
theorem Nulled.eraseTarget (hs₀ : s₀.Orderly) (h : s₀.Nulled K s removed P)
    (ht₀ : s₀.database.table name = some (id, t₀)) (hrow : t₀.rowStore.get r = some row)
    (hnew : (name, r) ∉ removed) (image : Row) (hwriter : s.Sees writerId) {marks : DeleteMarks}
    (hmarks : marks.deleted = removed) :
    ∃ s', Engine.eraseTarget id name r image writerId marks s =
        .ok { marks with deleted := (name, r) :: marks.deleted } s' ∧
      s₀.Nulled K s' ((name, r) :: removed) P ∧ s'.Sees = s.Sees := by
  obtain ⟨s', hrun, h', hsees, -, hsound⟩ :=
    h.toEdited.eraseTarget hs₀.toSteady ht₀ hrow hnew image hwriter hmarks
  exact ⟨s', hrun, ⟨h', hsound h.sound, fun _ id t ht r hr =>
    h.places _ id t ht r fun hmem => hr (mem_cons_of_mem _ hmem)⟩, hsees⟩

/-- The rows that refer to a row and are still there, when the SET NULL keys that refer to erased
rows are NULL. -/
theorem Nulled.mem_collectReferencingChildren (hs₀ : s₀.Orderly) {targets : List (String × ℕ)}
    (hapart : s₀.database.NullsApart (s₀.database.ActsOn targets))
    (herased : ∀ node ∈ removed, s₀.database.Erased targets node)
    (h : s₀.Nulled K s removed (s₀.database.NulledAt removed)) {snapshot : ReadSnapshot}
    (hmirrors : s.Mirrored snapshot) (ht₀ : s₀.database.table name = some (id, t₀))
    (ht : s.database.table name = some (id, t))
    (hrow : t₀.rowStore.get r = some row) (hnew : (name, r) ∉ removed) {N : ℕ → Prop}
    (hN : ∀ i, N i → t₀.SetNullAt (s₀.database.ActsOn targets name) i) {hit : ForeignKeyChildHit} :
    hit ∈ collectReferencingChildren snapshot s.transactions s.database t (row.nullWhere N) none ↔
      ∃ (c₀ : Table) (crow : Row), s₀.database.table hit.tableName = some (hit.table, c₀) ∧
        c₀.rowStore.get hit.rowId = some crow ∧
        hit.row = crow.nullWhere (s₀.database.NulledAt removed (hit.tableName, hit.rowId)) ∧
        (hit.tableName, hit.rowId) ∉ removed ∧
        s₀.database.RefersBy hit.fk (name, r) (hit.tableName, hit.rowId) := by
  rw [h.toEdited.mem_collectReferencingChildren hs₀.toSteady hmirrors ht₀ ht]
  constructor
  · rintro ⟨c₀, crow, key, hc₀, hget, himage, hremoved, hfk, hparent, hkeyrow, hnull, hmatch⟩
    rw [hapart.keyFromRow_eq ht₀ hN hc₀ hfk hparent] at hkeyrow
    rw [himage] at hmatch
    exact ⟨c₀, crow, hc₀, hget, himage, hremoved, id, hit.table, t₀, c₀, row, crow, key,
      ht₀, hc₀, hrow, hget, hfk, hparent, hkeyrow, hnull, rowMatchesKey_of_nullWhere hmatch hnull⟩
  · rintro ⟨c₀, crow, hc₀, hget, himage, hremoved, hrefers⟩
    obtain ⟨row', crow', key, hrow', hget', hfk, hparent, hkeyrow, hnull, hmatch⟩ :=
      (refersBy_iff ht₀ hc₀).mp hrefers
    obtain rfl := Option.mem_unique hrow' hrow
    obtain rfl := Option.mem_unique hget' hget
    refine ⟨c₀, crow', key, hc₀, hget, himage, hremoved, hfk, hparent, ?_, hnull, ?_⟩
    · rw [hapart.keyFromRow_eq ht₀ hN hc₀ hfk hparent, hkeyrow]
    · rw [himage]
      obtain ⟨actual, hactual, hbeq⟩ := rowMatchesKey_eq_true.mp hmatch
      refine rowMatchesKey_eq_true.mpr ⟨actual, ?_, hbeq⟩
      rw [← hactual]
      refine keyFromRow_congr_at fun column hcolumn i hi =>
        Row.at_nullWhere_of_not fun hnulled => ?_
      -- a cell of this key that is NULL now is NULL for an erased row, which is another one
      obtain ⟨_, c, fk, hc, hfk', hsetNull, ⟨parent, hparent', hrefers'⟩, column', hcolumn', hi'⟩ :=
        hnulled
      obtain ⟨-, rfl⟩ := table_unique hc hc₀
      obtain rfl := eq_of_columnIndex hi hi'
      obtain rfl :=
        hapart.own _ _ c hc fk hfk' ⟨parent, _, herased parent hparent', hrefers'⟩ hsetNull
        hit.fk hfk column hcolumn' hcolumn
      exact hnew (hs₀.parent_unique hrefers hrefers' ▸ hparent')

/-- The loop over the SET NULL keys that refer to a row being erased. -/
theorem Nulled.setNulls (hs₀ : s₀.Orderly) (hapart : s₀.database.NullsApart K)
    {snapshot : ReadSnapshot} (hactive : s₀.session.activeSnapshot = some snapshot)
    (refs : List ForeignKeyChildHit) (hK : ∀ hit ∈ refs, K hit.tableName hit.fk)
    (hrefs : ∀ hit ∈ refs, hit.fk.onDelete = .setNull → (hit.tableName, hit.rowId) ∉ removed →
      ∃ (c₀ : Table) (crow : Row) (N : ℕ → Prop),
        s₀.database.table hit.tableName = some (hit.table, c₀) ∧
        c₀.rowStore.get hit.rowId = some crow ∧ hit.fk ∈ c₀.foreignKeys ∧
        hit.row = crow.nullWhere N ∧ (∀ i, N i → c₀.SetNullAt (K hit.tableName) i) ∧
        ∀ fk ∈ c₀.foreignKeys, ∀ parent,
          s₀.database.RefersBy fk parent (hit.tableName, hit.rowId) →
          (∀ i, c₀.KeyCell fk i → ¬(N i ∨ c₀.KeyCell hit.fk i)) → parent ∉ removed)
    (h : s₀.Nulled K s removed P) (hwriter : s.Sees writerId) :
    ∃ s', (refs.forM fun hit =>
        if hit.fk.onDelete ≠ .setNull ∨ (hit.tableName, hit.rowId) ∈ removed then pure ()
        else Engine.setNullChild hit snapshot writerId) s = .ok ⟨⟩ s' ∧
      s₀.Nulled K s' removed
        (fun node i => P node i ∨ ∃ hit ∈ refs, s₀.database.NulledBy hit node i) ∧
      s'.Sees = s.Sees := by
  induction refs generalizing s P with
  | nil => exact ⟨s, rfl, h.congr fun node _ i => by simp, rfl⟩
  | cons hit refs ih =>
    obtain ⟨hhit, hrefs⟩ := List.forall_mem_cons.mp hrefs
    obtain ⟨hKhit, hKrefs⟩ := List.forall_mem_cons.mp hK
    rw [List.forM]
    by_cases hskip : hit.fk.onDelete ≠ .setNull ∨ (hit.tableName, hit.rowId) ∈ removed
    · obtain ⟨s', hrest, h', hsees⟩ := ih hKrefs hrefs h hwriter
      refine ⟨s', ?_, h'.congr fun node hnode i => ?_, hsees⟩
      · rw [if_pos hskip]
        exact hrest
      · have hnone : ¬s₀.database.NulledBy hit node i := by
          rintro ⟨hnull, rfl, -⟩
          exact hskip.elim (fun hne => hne hnull) hnode
        rw [List.exists_mem_cons_iff, or_iff_right hnone]
    · obtain ⟨hnull, hlive⟩ := not_or.mp hskip
      rw [not_not] at hnull
      obtain ⟨c₀, crow, N, hc₀, hcrow, hfk, himage, hN, hparents⟩ := hhit hnull hlive
      have hread : s.readSnapshot = snapshot := by
        rw [readSnapshot, h.session.2, hactive, Option.getD_some]
      obtain ⟨s₁, hrun, h₁, hsees₁⟩ := h.setNullChild hs₀ hapart
        (fun name id t ht => hread ▸ (h.steady.tracked name id t ht).mirrors)
          hc₀ hcrow hlive hfk hKhit
        hnull himage hN hwriter hparents
      obtain ⟨s', hrest, h', hsees⟩ := ih hKrefs hrefs h₁ (hsees₁ ▸ hwriter)
      refine ⟨s', ?_, h'.congr fun node _ i => ?_, hsees.trans hsees₁⟩
      · rw [if_neg hskip, bind_of_ok hrun]
        exact hrest
      · have hby : s₀.database.NulledBy hit node i ↔
            node = (hit.tableName, hit.rowId) ∧ c₀.KeyCell hit.fk i := by
          refine ⟨?_, fun hcell => ⟨hnull, hcell.1, c₀, hc₀, hfk, hcell.2⟩⟩
          rintro ⟨-, hnode, t, ht, -, hcell⟩
          obtain ⟨-, rfl⟩ := table_unique ht hc₀
          exact ⟨hnode, hcell⟩
        rw [List.exists_mem_cons_iff, hby, or_assoc]

end Steps

/-- Each row of a chain can be reached from those before it. -/
theorem ChainFrom.reaches {db : Database} {targets visiting : List (String × ℕ)}
    (h : ChainFrom db targets (node :: visiting)) {other : String × ℕ}
    (hother : other ∈ node :: visiting) :
    Relation.ReflTransGen db.References other node := by
  have hchain := h.chain
  clear h
  induction visiting generalizing node with
  | nil =>
    obtain rfl := mem_singleton.mp hother
    exact .refl
  | cons parent visiting ih =>
    obtain ⟨hrefers, hchain⟩ := isChain_cons_cons.mp hchain
    rcases mem_cons.mp hother with rfl | hother
    · exact .refl
    · exact (ih hother hchain).tail hrefers

/-- The state of a DELETE that has erased the rows `removed`: the SET NULL keys that refer to them
are NULL. -/
structure Nulling (s₀ : Engine) (targets : List (String × ℕ)) (s : Engine)
    (removed : List (String × ℕ)) : Prop
    extends Nulled s₀ (s₀.database.ActsOn targets) s removed (s₀.database.NulledAt removed) where
  erased : ∀ node ∈ removed, s₀.database.Erased targets node

/-! ### The recursion -/

section Recursion

variable {targets : List (String × ℕ)} {snapshot : ReadSnapshot} (hs₀ : s₀.Orderly)
  (hapart : s₀.database.NullsApart (s₀.database.ActsOn targets))
  (hactive : s₀.session.activeSnapshot = some snapshot)
  (hactions : ∀ parent child fk, s₀.database.Erased targets parent →
    s₀.database.RefersBy fk parent child → fk.onDelete ≠ .noAction)
  (hacyclic : ∀ node, s₀.database.Erased targets node →
    ¬Relation.TransGen s₀.database.References node node)
  (honce : ∀ parent child, s₀.database.Erased targets parent →
    ¬s₀.database.NulledTwice parent child)
include hs₀ hapart hactive hactions hacyclic honce

omit hapart hactive in
/-- The rows that the image of a child row refers to are there after the rows that go with its
parent were erased: a row refers by SET NULL keys to at most one of the rows erased since it was
read. -/
theorem not_mem_of_refersBy {visiting old new : List (String × ℕ)}
    (hchain : ChainFrom s₀.database targets (node :: visiting))
    (herased : s₀.database.Erased targets node)
    (hnew : ∀ other ∈ new, s₀.database.Erased targets other)
    (hclosed : ∀ other ∈ new, ∀ c, s₀.database.CascadesTo other c → c ∈ new ∨ c ∈ node :: visiting)
    (hreach : ∀ other ∈ new, other ∈ old ∨ Relation.TransGen s₀.database.CascadesTo node other)
    {fk' : ForeignKeyConstraint} (hnull : fk.onDelete = .setNull)
    (hrefers : s₀.database.RefersBy fk node child) (hlive : child ∉ new)
    (hrefers' : s₀.database.RefersBy fk' parent child)
    (hcells : ∀ (id : ℕ) (t : Table), s₀.database.table child.1 = some (id, t) →
      ∀ i, t.KeyCell fk' i → ¬s₀.database.NulledAt old child i) : parent ∉ new := by
  intro hparent
  cases haction : fk'.onDelete with
  | noAction => exact hactions parent child fk' (hnew parent hparent) hrefers' haction
  | cascade =>
    -- the child would have been erased, or the row refers to it through others
    rcases hclosed parent hparent child ⟨fk', haction, hrefers'⟩ with hchild | hchild
    · exact hlive hchild
    · exact hacyclic node herased (.head' ⟨fk, hrefers⟩ (hchain.reaches hchild))
  | setNull =>
    rcases hreach parent hparent with hold | hpath
    · have hall := hrefers'
      obtain ⟨_, j, _, c, _, crow, _, -, hc, -, hcrow, hfk, -⟩ := hall
      obtain ⟨i, hi⟩ := hs₀.exists_keyCell hc hcrow hfk
      exact hcells j c hc i hi ⟨j, c, fk', hc, hfk, haction, ⟨parent, hold, hrefers'⟩, hi⟩
    · exact honce node child herased ⟨fk, fk', parent, hnull, haction, hrefers, hpath, hrefers'⟩

/-- A row that goes with a target can be erased. -/
theorem Nulling.ready {id : ℕ} {row : Row} {marks : DeleteMarks}
    (h : s₀.Nulling targets s marks.deleted)
    (hentry : s₀.database.ErasedEntry targets node id row) (hdeleted : node ∉ marks.deleted)
    (hchain : ChainFrom s₀.database targets (node :: marks.visiting)) :
    Ready s₀.database.CascadesTo (s₀.Nulling targets)
      (s₀.database.ErasedEntry targets) marks.visiting
      marks.deleted s id node row := by
  obtain ⟨t₀, row, N, htable, hrow, rfl, hN, herased⟩ := hentry
  obtain ⟨writerId, m, hwriter, hsteady, hsees, hmore, hold⟩ := h.steady.writeTransactionId
  have h₁ : s₀.Nulling targets { s with transactions := m } marks.deleted :=
    ⟨⟨⟨hsteady, h.catalog, h.session, h.tables⟩, h.sound, h.places⟩, h.erased⟩
  obtain ⟨t, ht, -, -⟩ := h.table htable
  have hread : s.readSnapshot = snapshot := by
    rw [readSnapshot, h.session.2, hactive, Option.getD_some]
  have hmem := @Nulled.mem_collectReferencingChildren _ _ _ _ _ _ _ _ _ _ hs₀ _ hapart h₁.erased
    h₁.toNulled s.readSnapshot
      (fun name id t ht => ((h.steady.tracked name id t ht).mono hold).mirrors) htable ht
    hrow hdeleted N hN
  generalize hrefs :
    collectReferencingChildren s.readSnapshot m s.database t (row.nullWhere N) none = refs at hmem
  -- a row that refers to this one was removed before or is among the hits
  have hfind : ∀ (fk : ForeignKeyConstraint) (c : String × ℕ), s₀.database.RefersBy fk node c →
      c ∉ marks.deleted → ∃ hit ∈ refs, hit.fk = fk ∧ c = (hit.tableName, hit.rowId) ∧
        ∃ c₀, s₀.database.table c.1 = some (hit.table, c₀) := by
    intro fk c hby hnew
    have hall := hby
    obtain ⟨i, j, p, c₀, prow, crow, key, -, hc₀, -, hget, -⟩ := hall
    exact ⟨⟨j, c.1, fk, c.2, crow.nullWhere (s₀.database.NulledAt marks.deleted c)⟩,
      hmem.mpr ⟨c₀, crow, hc₀, hget, rfl, hnew, hby⟩, rfl, rfl, c₀, hc₀⟩
  refine ⟨writerId, m, t, refs, hwriter, getElem?_of_table ht, hrefs, h₁, hmore,
    fun hit hhit => ?_, fun hit hhit hcascade => ?_, fun c hc hnew => ?_,
    fun marks₂ s₂ h₂ hsees₂ hproper hvisiting hnew hmono hpath => ?_⟩
  · obtain ⟨-, -, -, -, -, -, hby⟩ := hmem.mp hhit
    exact hactions _ _ _ herased hby
  · obtain ⟨c₀, crow, hc₀, hget, himage, -, hby⟩ := hmem.mp hhit
    obtain ⟨target, htarget, hpath⟩ := herased
    exact ⟨⟨hit.fk, hcascade, hby⟩, c₀, crow, _, hc₀, hget, himage,
      fun i hi => hi.setNullAt hc₀ h₁.erased,
      target, htarget, hpath.tail ⟨hit.fk, hcascade, hby⟩⟩
  · obtain ⟨fk, hcascade, hby⟩ := hc
    obtain ⟨hit, hhit, rfl, rfl, -⟩ := hfind fk c hby hnew
    exact ⟨hit, hhit, hcascade, rfl⟩
  · -- the SET NULL keys that refer to the row
    obtain ⟨s₃, hnulls, h₃, hsees₃⟩ := h₂.toNulled.setNulls hs₀ hapart hactive refs
      (fun hit hhit => by
        obtain ⟨-, -, -, -, -, -, hby⟩ := hmem.mp hhit
        exact ⟨node, _, herased, hby⟩)
      (fun hit hhit hnull hlive => by
        obtain ⟨c₀, crow, hc₀, hget, himage, -, hby⟩ := hmem.mp hhit
        obtain ⟨_, _, _, -, -, hfk, -⟩ := (refersBy_iff htable hc₀).mp hby
        refine ⟨c₀, crow, _, hc₀, hget, hfk, himage, fun i hi => hi.setNullAt hc₀ h₁.erased,
          fun fk' hfk' parent hrefers' hcells => ?_⟩
        refine not_mem_of_refersBy hs₀ hactions hacyclic honce hchain herased h₂.erased
          (fun other hother c hc => hvisiting ▸ hproper.closed other hother c hc)
          hpath hnull hby hlive hrefers' fun id t ht i hi hold => ?_
        obtain ⟨-, rfl⟩ := table_unique ht hc₀
        exact hcells i hi (Or.inl hold))
      (hsees₂ writerId hsees)
    obtain ⟨s₄, herase, h₄, hsees₄⟩ := h₃.eraseTarget hs₀ htable hrow hnew (row.nullWhere N)
      (hsees₃ ▸ hsees₂ writerId hsees) rfl
    refine ⟨s₃, s₄, by rwa [hread], herase, ⟨h₄.congr fun other hother i => ?_,
      forall_mem_cons.mpr ⟨herased, h₂.erased⟩⟩, fun i hi => ?_⟩
    · refine nulledAt_cons_iff (fun hit hhit => ?_) fun fk j c₀ hc₀ hby => ?_
      · obtain ⟨-, -, -, -, -, -, hby⟩ := hmem.mp hhit
        exact hby
      · obtain ⟨hit, hhit, hfk, hnode, c₁, hc₁⟩ := hfind fk other hby fun hold =>
          hother (mem_cons_of_mem _ (hmono _ hold))
        exact ⟨hit, hhit, hfk, (table_unique hc₁ hc₀).1, hnode⟩
    · rw [hsees₄, hsees₃]
      exact hi

end Recursion

/-- Whether every row refers by each foreign key of its table to a row, or has a NULL in the key. -/
def checkForeignKeys (db : Database) : Bool :=
  db.tables.all fun child => child.2.rowStore.liveEntries.all fun entry =>
    child.2.foreignKeys.all fun fk =>
      (keyFromRow child.2 entry.2 fk.childColumns).any fun key => keyHasNullPart key ||
        (db.table fk.parentTable).any fun parent =>
          parent.2.rowStore.liveEntries.any fun parentRow =>
          (keyFromRow parent.2 parentRow.2 fk.parentColumns).any fun parentKey =>
            !keyHasNullPart parentKey && key.beq parentKey

theorem AllSound.satisfiesForeignKeys (hs : s.AllSound) (h : checkForeignKeys s.database = true) :
    s.database.SatisfiesForeignKeys := by
  simp only [checkForeignKeys, all_eq_true, Option.any_eq_true, Bool.or_eq_true, any_eq_true,
    Bool.and_eq_true, Bool.not_eq_true'] at h
  intro name id t r row ht hrow fk hfk
  obtain ⟨key, hkey, hparent⟩ := h (id, t) (mem_tables_of_table ht) (r, row)
    ((PageRowStore.mem_liveEntries (hs name id t ht).store ..).mpr hrow) fk hfk
  refine ⟨key, hkey, fun hnull => ?_⟩
  rcases hparent with hnull' | ⟨⟨i, p⟩, hp, ⟨pr, prow⟩, hprow, pkey, hpkey, hpnull, hbeq⟩
  · rw [hnull] at hnull'
    cases hnull'
  · exact ⟨(fk.parentTable, pr), i, id, p, t, prow, row, pkey, hp, ht,
      (PageRowStore.mem_liveEntries (hs _ i p hp).store ..).mp hprow, hrow, hfk, rfl, hpkey, hpnull,
      rowMatchesKey_eq_true.mpr ⟨key, hkey, hbeq⟩⟩

/-- No column of a SET NULL key is in another foreign key or in a key that one refers to. -/
def KeysApart (db : Database) : Prop :=
  ∀ entry ∈ db.tables, ∀ fk ∈ entry.2.foreignKeys, fk.onDelete = .setNull →
    ∀ column ∈ fk.childColumns,
      (∀ fk' ∈ entry.2.foreignKeys, column ∈ fk'.childColumns → fk' = fk) ∧
      ∀ entry' ∈ db.tables, ∀ fk' ∈ entry'.2.foreignKeys, column ∉ fk'.parentColumns

instance (db : Database) : Decidable (KeysApart db) := by
  unfold KeysApart
  infer_instance

theorem KeysApart.nullsApart {db : Database} (h : KeysApart db)
    (K : String → ForeignKeyConstraint → Prop) : db.NullsApart K where
  own _ _ _ ht fk hfk _ hnull fk' hfk' column hcolumn :=
    (h _ (mem_tables_of_table ht) fk hfk hnull column hcolumn).1 fk' hfk'
  referred _ _ _ ht fk hfk _ hnull _ _ _ ht' fk' hfk' _ column hcolumn :=
    (h _ (mem_tables_of_table ht) fk hfk hnull column hcolumn).2 _ (mem_tables_of_table ht')
      fk' hfk'

/-- A state whose tables were just created. -/
theorem steady_of_new (htxns : s.transactions.Valid)
    (hsession : ∃ snapshot : ReadSnapshot, s.session.activeTransaction = some snapshot.self ∧
      s.session.activeSnapshot = some snapshot)
    (hnamed : ∀ entry ∈ s.database.catalog.toList,
      ∃ t ∈ s.database.objects[entry.2]?, t.name = entry.1)
    (hnew : ∀ t ∈ s.database.objects, construct t.name t.schema t.checkConstraints t.foreignKeys
      t.uniqueConstraints = .ok t) : s.Steady ∧ s.AllSound := by
  have hempty : ∀ t ∈ s.database.objects, t.Sound ∧ t.Tracked s.Sees := by
    intro t ht
    have hcur := current_of_construct (hnew t ht)
    obtain ⟨_, _, -, -, -, heq⟩ := construct_eq_ok (hnew t ht)
    have hnone : ∀ r, t.rowStore.get r = none ∧ t.versions.chain r = [] := fun r => by
      rw [heq]
      simp [PageRowStore.get, MvccRowStore.chain]
    refine ⟨⟨hcur.rows.valid, hcur.built.agrees, hcur.fits.positions, fun r row hrow => ?_⟩,
      fun r => ?_⟩
    · rw [(hnone r).1] at hrow
      cases hrow
    · simp [ChainTracks, hnone r]
  refine ⟨⟨htxns, Or.inr hsession, fun name id hcatalog => ?_, fun name id t ht => ?_,
    fun name id t ht => ?_⟩, fun name id t ht => ?_⟩
  · exact hnamed (name, id) (Std.ExtTreeMap.mem_toList_iff_getElem?_eq_some.mpr hcatalog)
  all_goals obtain ⟨hsound, htracked⟩ := hempty t (mem_of_getElem? (getElem?_of_table ht))
  · exact hsound.searchable
  · exact htracked
  · exact hsound

/-- Three tables in a transaction: the rows of `a` go with those of `p`, and the rows of `c` forget
both. -/
def diamond : Engine where
  database :=
    { objects :=
        [{ name := "p", schema := [{ name := "id", type := .int, unique := true }] },
          { name := "a"
            schema :=
              [{ name := "id", type := .int, unique := true }, { name := "p", type := .int }]
            foreignKeys := [{ childColumns := ["p"], parentTable := "p", parentColumns := ["id"],
                              onDelete := .cascade }] },
          { name := "c"
            schema := [{ name := "x", type := .int, nullable := true },
              { name := "y", type := .int, nullable := true }]
            foreignKeys := [{ childColumns := ["x"], parentTable := "a", parentColumns := ["id"],
                              onDelete := .setNull },
              { childColumns := ["y"], parentTable := "p", parentColumns := ["id"],
                onDelete := .setNull }] }]
      catalog := {("p", 0), ("a", 1), ("c", 2)} }
  transactions := (TransactionManager.begin {}).2
  session :=
    { activeTransaction := some 1
      activeSnapshot := some ((TransactionManager.begin {}).2.currentSnapshot 1) }

/-- The INSERT of a row of `p`, of a row of `a` that refers to it, and of a row of `c`. -/
def fillDiamond (row : Row) : List (Statement (Option (Predicate Empty))) :=
  [.insert ⟨"p", [[.int 1]]⟩, .insert ⟨"a", [[.int 1, .int 1]]⟩, .insert ⟨"c", [row]⟩]

end Engine

end VertexDB
