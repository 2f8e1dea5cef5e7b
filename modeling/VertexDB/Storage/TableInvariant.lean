import VertexDB.Storage.Table
import Mathlib.Tactic.Tauto

/-!
# The invariant of a table

In a sound table the heap is valid, the indexes agree with it, and every live row passes the checks
of its own table beside the other live rows. On a sound table the outcome of a uniqueness check
depends on the live rows only, whether an index answers it or a scan.
-/

namespace VertexDB

open Exec Value Std.ExtTreeMap Option IndexManager Function List

variable {parts : List Value}

namespace Value

/-- A value that a column can hold. -/
def IsCell (v : Value) : Prop := v.isNull = true ∨ ∃ type, v.type = .ok type

theorem IsCell.hasNullCompositePart {v : Value} (h : v.IsCell) :
    v.hasNullCompositePart = v.isNull := by
  rcases h with h | ⟨type, h⟩
  · cases v <;> simp_all [isNull, Value.hasNullCompositePart]
  · cases v <;> simp_all [isNull, Value.hasNullCompositePart, Value.type]

theorem IsCell.anyNullPart {vs : List Value} (h : ∀ v ∈ vs, v.IsCell) :
    Value.anyNullPart vs = vs.any isNull := by
  induction vs with
  | nil => rfl
  | cons v vs ih =>
    rw [Value.anyNullPart, (h v mem_cons_self).hasNullCompositePart,
      ih fun w hw => h w (mem_cons_of_mem _ hw)]
    simp

theorem isNull_of_beq {v w : Value} (h : v.beq w = true) : v.isNull = w.isNull := by
  cases v <;> cases w <;> simp_all [beq, isNull]

theorem makeComposite_ok (h : parts ≠ []) :
    ∃ key, makeComposite parts = .ok key := by
  match parts with
  | [] => exact absurd rfl h
  | [part] => exact ⟨part, rfl⟩
  | _ :: _ :: _ => exact ⟨_, rfl⟩

theorem hasNull_makeComposite {key : Value}
    (hcell : ∀ v ∈ parts, v.IsCell) (h : makeComposite parts = .ok key) :
    key.hasNullCompositePart = parts.any isNull := by
  match parts with
  | [] => cases h
  | [part] =>
    cases h
    simp [(hcell key mem_cons_self).hasNullCompositePart]
  | v :: w :: rest =>
    cases h
    rw [hasNullCompositePart, IsCell.anyNullPart hcell]

theorem beq_makeComposite {ps qs : List Value} {p q : Value} (hlen : ps.length = qs.length)
    (hp : makeComposite ps = .ok p) (hq : makeComposite qs = .ok q) :
    p.beq q = beqParts ps qs := by
  match ps, qs with
  | [], _ => cases hp
  | [_], [_] =>
    cases hp
    cases hq
    simp [beqParts]
  | _ :: _ :: _, _ :: _ :: _ =>
    cases hp
    cases hq
    simp [beq]
  | [_], _ :: _ :: _ | _ :: _ :: _, [_] | _ :: _, [] => simp at hlen

end Value

namespace Table

variable {column : Column} {value : Value}

/-- A value fits into a column. -/
def CellOk (value : Value) (column : Column) : Prop :=
  (value.isNull = true ∧ column.nullable = true) ∨ value.type = .ok column.type

theorem CellOk.isCell (h : CellOk value column) :
    value.IsCell :=
  h.imp And.left fun h => ⟨_, h⟩

theorem validateCell_eq_ok {mismatch : String} :
    validateCell value column mismatch = .ok () ↔ CellOk value column := by
  unfold validateCell CellOk
  cases value with
  | null => cases h : column.nullable <;>
      simp [isNull, type, pure, Except.pure]
  | parameter _ | composite _ =>
    simp [isNull, type]
  | int _ | double _ | string _ =>
    cases h : column.type <;>
      simp [isNull, type, pure, Except.pure]

theorem bind_unit_eq_ok {ε α : Type} {x : Except ε Unit} {y : Except ε α} {a : α} :
    (do x; y) = .ok a ↔ x = .ok () ∧ y = .ok a := by
  cases x <;> simp

variable {row : Row}

theorem validateCells_eq_ok {schema : List Column} :
    validateCells row schema = .ok () ↔
      ∀ (i : ℕ) value column, row[i]? = some value → schema[i]? = some column →
        CellOk value column := by
  induction row generalizing schema with
  | nil => simp [validateCells, pure, Except.pure]
  | cons value row ih =>
    cases schema with
    | nil => simp [validateCells, pure, Except.pure]
    | cons column schema =>
      rw [validateCells, bind_unit_eq_ok, validateCell_eq_ok, ih]
      constructor
      · rintro ⟨hcell, hrest⟩ (_ | i) v c hv hc
        · simp only [getElem?_cons_zero, Option.some.injEq] at hv hc
          exact hv ▸ hc ▸ hcell
        · exact hrest i v c (by simpa using hv) (by simpa using hc)
      · intro h
        exact ⟨h 0 value column rfl rfl, fun i v c hv hc => h (i + 1) v c (by simpa using hv)
          (by simpa using hc)⟩

theorem validateRow_eq_ok {t : Table} :
    t.validateRow row = .ok () ↔ row.length = t.schema.length ∧
      (∀ (i : ℕ) value column, row[i]? = some value → t.schema[i]? = some column →
        CellOk value column) ∧ t.enforceCheckConstraints row = .ok () := by
  unfold validateRow
  by_cases hlen : row.length = t.schema.length
  · simp only [hlen, ne_eq, not_true_eq_false, if_false, true_and, ← validateCells_eq_ok]
    exact bind_unit_eq_ok
  · simp [hlen]

theorem isCell_of_validateRow {t : Table} (h : t.validateRow row = .ok ()) (i : ℕ) :
    (row.at i).IsCell := by
  obtain ⟨hlen, hcells, -⟩ := validateRow_eq_ok.mp h
  by_cases hi : i < row.length
  · have hv : row[i]? = some row[i] := getElem?_eq_getElem hi
    have hc : t.schema[i]? = some t.schema[i] := getElem?_eq_getElem (hlen ▸ hi)
    have hat : row.at i = row[i] := by simp [Row.at, List.getD, hv]
    exact hat ▸ (hcells i _ _ hv hc).isCell
  · exact Or.inl (by simp [Row.at, List.getD, getElem?_eq_none (not_lt.mp hi), isNull])

/-- Changing one cell of a valid row to a fitting value, as `update` does. -/
theorem validateRow_set {t : Table} {index : ℕ} (hrow : t.validateRow row = .ok ())
    (hcolumn : t.schema[index]? = some column) (hvalue : CellOk value column)
    (hcheck : t.enforceCheckConstraints (row.set index value) = .ok ()) :
    t.validateRow (row.set index value) = .ok () := by
  obtain ⟨hlen, hcells, -⟩ := validateRow_eq_ok.mp hrow
  refine validateRow_eq_ok.mpr ⟨by simpa using hlen, fun i v c hv hc => ?_, hcheck⟩
  rw [getElem?_set] at hv
  split_ifs at hv with hi hlt
  · subst hi
    rw [hc] at hcolumn
    exact Option.some.inj hv ▸ Option.some.inj hcolumn ▸ hvalue
  · exact hcells i v c hv hc

section Uniqueness

variable {t : Table} {name : String}

/-- The columns of the constraint are the columns `indexes` of the schema. -/
def Resolves (t : Table) (constraint : UniqueConstraint) (indexes : List ℕ) : Prop :=
  indexes ≠ [] ∧ constraint.columns.map t.columnIndex = indexes.map some

theorem uniqueKeyParts_eq_ok {columns : List String} :
    t.uniqueKeyParts row columns = .ok parts ↔
      ∃ indexes : List ℕ,
        columns.map t.columnIndex = indexes.map some ∧ parts = indexes.map row.at := by
  induction columns generalizing parts with
  | nil =>
    constructor
    · rintro ⟨⟩
      exact ⟨[], rfl, rfl⟩
    · rintro ⟨indexes, hmap, rfl⟩
      rw [map_nil, eq_comm, map_eq_nil_iff] at hmap
      subst hmap
      rfl
  | cons column columns ih =>
    rw [uniqueKeyParts]
    cases hidx : t.columnIndex column with
    | none =>
      constructor
      · rintro ⟨⟩
      · rintro ⟨_ | ⟨i, indexes⟩, hmap, -⟩ <;> simp [hidx] at hmap
    | some index =>
      constructor
      · intro h
        cases hrest : t.uniqueKeyParts row columns with
        | error e => simp [hrest] at h
        | ok rest =>
          obtain ⟨indexes, hmap, rfl⟩ := ih.mp hrest
          refine ⟨index :: indexes, by simp [hidx, hmap], ?_⟩
          simpa [hrest, pure, Except.pure, eq_comm] using h
      · rintro ⟨_ | ⟨i, indexes⟩, hmap, rfl⟩
        · simp at hmap
        · simp only [map_cons, hidx, List.cons.injEq, Option.some.injEq] at hmap
          simp only [ih.mpr ⟨indexes, hmap.2, rfl⟩, hmap.1]
          rfl

variable {constraint : UniqueConstraint}

/-- A key exists exactly when the columns are known and there is one. -/
theorem uniqueKeyForRow_eq_ok {key : Value} :
    t.uniqueKeyForRow constraint row = .ok key ↔
      ∃ indexes, t.Resolves constraint indexes ∧
        Value.makeComposite (indexes.map row.at) = .ok key := by
  unfold uniqueKeyForRow
  constructor
  · intro h
    cases hparts : t.uniqueKeyParts row constraint.columns with
    | error e => simp [hparts] at h
    | ok parts =>
      obtain ⟨indexes, hmap, rfl⟩ := uniqueKeyParts_eq_ok.mp hparts
      rw [hparts] at h
      have hkey : makeComposite (indexes.map row.at) = .ok key := h
      refine ⟨indexes, ⟨?_, hmap⟩, hkey⟩
      rintro rfl
      cases hkey
  · rintro ⟨indexes, ⟨-, hmap⟩, hkey⟩
    rw [uniqueKeyParts_eq_ok.mpr ⟨indexes, hmap, rfl⟩]
    exact hkey

variable {indexes : List ℕ}

theorem Resolves.exists_key (h : t.Resolves constraint indexes) (row : Row) :
    ∃ key, Value.makeComposite (indexes.map row.at) = .ok key :=
  makeComposite_ok (by simpa using h.1)

/-- The comparison of two rows on the columns of a constraint. -/
theorem uniqueRowsEqual_eq (h : t.Resolves constraint indexes) (left right : Row) :
    t.uniqueRowsEqual constraint left right =
      indexes.all fun i => !(left.at i).isNull && !(right.at i).isNull &&
        (left.at i).beq (right.at i) := by
  obtain ⟨-, hmap⟩ := h
  unfold uniqueRowsEqual
  generalize constraint.columns = columns at hmap
  induction columns generalizing indexes with
  | nil =>
    rw [map_nil, eq_comm, map_eq_nil_iff] at hmap
    subst hmap
    rfl
  | cons column columns ih =>
    cases indexes with
    | nil => simp at hmap
    | cons i indexes =>
      simp only [map_cons, List.cons.injEq] at hmap
      rw [all_cons, all_cons, ih hmap.2, hmap.1]

theorem uniqueRowsEqual_comm (t : Table) (constraint : UniqueConstraint) (left right : Row) :
    t.uniqueRowsEqual constraint left right = t.uniqueRowsEqual constraint right left := by
  unfold uniqueRowsEqual
  congr 1
  funext column
  cases t.columnIndex column with
  | none => rfl
  | some i => simp only [beq_comm (left.at i), Bool.and_comm (!(left.at i).isNull)]

theorem beqParts_map_at (indexes : List ℕ) (left right : Row) :
    Value.beqParts (indexes.map left.at) (indexes.map right.at) =
      indexes.all fun i => (left.at i).beq (right.at i) := by
  induction indexes with
  | nil => rfl
  | cons i indexes ih => simp [beqParts, ih]

/-- Rows are equal on a constraint exactly when their keys are and have no null part. -/
theorem uniqueRowsEqual_iff_key (h : t.Resolves constraint indexes) {left right : Row}
    {key key' : Value} (hcell : ∀ i, (left.at i).IsCell)
    (hkey : Value.makeComposite (indexes.map left.at) = .ok key)
    (hkey' : Value.makeComposite (indexes.map right.at) = .ok key') :
    t.uniqueRowsEqual constraint left right =
      (!key.hasNullCompositePart && key'.beq key) := by
  rw [uniqueRowsEqual_eq h, beq_comm, beq_makeComposite (by simp) hkey hkey',
    hasNull_makeComposite (by simpa using fun i _ => hcell i) hkey, beqParts_map_at,
    Bool.eq_iff_iff]
  simp only [List.all_eq_true, Bool.and_eq_true, Bool.not_eq_true', List.any_eq_false,
    List.mem_map, forall_exists_index, and_imp, forall_apply_eq_imp_iff₂, Bool.not_eq_true]
  constructor
  · exact fun h => ⟨fun i hi => (h i hi).1.1, fun i hi => (h i hi).2⟩
  · rintro ⟨hnull, hbeq⟩ i hi
    exact ⟨⟨hnull i hi, (isNull_of_beq (hbeq i hi)) ▸ hnull i hi⟩, hbeq i hi⟩

/-- The positions of the columns of an index are those of their names. -/
def Canonical (t : Table) : Prop :=
  ∀ (name : String) indexes, t.indexManager.indexColumns[name]? = some indexes →
    ∀ i ∈ indexes, t.columnIndex (columnName t.schema i) = some i

/-- A row passes the checks of the table beside the rows `rows`, apart from an excluded one. -/
structure Accepts (t : Table) (rows : ℕ → Option Row) (row : Row) (exclude : Option ℕ) : Prop where
  valid : t.validateRow row = .ok ()
  keys : ∀ constraint ∈ t.allUniqueConstraints, ∃ indexes, t.Resolves constraint indexes
  unique : ∀ r other, rows r = some other → exclude ≠ some r →
    t.rowsConflictOnUnique row other = false

/-- Every row passes the checks beside the other ones. -/
def AllAccepted (t : Table) (rows : ℕ → Option Row) : Prop :=
  ∀ r row, rows r = some row → t.Accepts rows row (some r)

variable {rows : ℕ → Option Row}

theorem Accepts.mono {rows' : ℕ → Option Row} {exclude : Option ℕ} (h : t.Accepts rows row exclude)
    (hsub : ∀ r other, rows' r = some other → exclude ≠ some r → rows r = some other) :
    t.Accepts rows' row exclude :=
  ⟨h.valid, h.keys, fun r other hr hne => h.unique r other (hsub r other hr hne) hne⟩

theorem AllAccepted.erase (h : t.AllAccepted rows) (i : ℕ) :
    t.AllAccepted (Function.update rows i none) := by
  intro r row hr
  have hsub : ∀ r other, Function.update rows i none r = some other → rows r = some other := by
    intro r other hr
    by_cases hri : r = i
    · simp [hri] at hr
    · simpa [hri] using hr
  exact (h r row (hsub r row hr)).mono fun r' other hr' _ => hsub r' other hr'

theorem rowsConflictOnUnique_comm (t : Table) (left right : Row) :
    t.rowsConflictOnUnique left right = t.rowsConflictOnUnique right left := by
  simp only [rowsConflictOnUnique, uniqueRowsEqual_comm t _ left right]

theorem AllAccepted.store (h : t.AllAccepted rows) {i : ℕ} (hrow : t.Accepts rows row (some i)) :
    t.AllAccepted (Function.update rows i (some row)) := by
  intro r stored hr
  by_cases hri : r = i
  · subst hri
    rw [update_self, Option.some.injEq] at hr
    subst hr
    refine hrow.mono fun r' other hr' hne => ?_
    rwa [update_of_ne (by simpa [eq_comm] using hne)] at hr'
  · rw [update_of_ne hri] at hr
    have hold := h r stored hr
    refine ⟨hold.valid, hold.keys, fun r' other hr' hne => ?_⟩
    by_cases hri' : r' = i
    · subst hri'
      rw [update_self, Option.some.injEq] at hr'
      subst hr'
      rw [rowsConflictOnUnique_comm]
      exact hrow.unique r stored hr (by simpa [eq_comm] using hri)
    · rw [update_of_ne hri'] at hr'
      exact hold.unique r' other hr' hne

/-- A row that is accepted beside all rows is accepted in the place of a dead one. -/
theorem Accepts.exclude_dead {i : ℕ} (h : t.Accepts rows row none) : t.Accepts rows row (some i) :=
  ⟨h.valid, h.keys, fun r other hr _ => h.unique r other hr (by simp)⟩

/-- The tables check rows by the same schema and constraints and have the same indexes. -/
structure SameRules (t t' : Table) : Prop where
  schema : t'.schema = t.schema
  checkConstraints : t'.checkConstraints = t.checkConstraints
  uniqueConstraints : t'.uniqueConstraints = t.uniqueConstraints
  indexColumns : t'.indexManager.indexColumns = t.indexManager.indexColumns
  indexExpressions : t'.indexManager.indexExpressions = t.indexManager.indexExpressions

namespace SameRules

variable {t' t'' : Table}

theorem refl (t : Table) : t.SameRules t := ⟨rfl, rfl, rfl, rfl, rfl⟩

variable (h : t.SameRules t')
include h

theorem trans (h' : t'.SameRules t'') : t.SameRules t'' :=
  ⟨h'.schema.trans h.schema, h'.checkConstraints.trans h.checkConstraints,
    h'.uniqueConstraints.trans h.uniqueConstraints, h'.indexColumns.trans h.indexColumns,
    h'.indexExpressions.trans h.indexExpressions⟩

theorem columnIndex : t'.columnIndex = t.columnIndex := by
  funext column
  rw [Table.columnIndex, h.schema, Table.columnIndex]

theorem validateRow : t'.validateRow = t.validateRow := by
  funext row
  rw [Table.validateRow, Table.validateRow, enforceCheckConstraints, enforceCheckConstraints,
    h.schema, h.checkConstraints, h.columnIndex]

theorem allUniqueConstraints : t'.allUniqueConstraints = t.allUniqueConstraints := by
  rw [Table.allUniqueConstraints, h.schema, h.uniqueConstraints, Table.allUniqueConstraints]

theorem rowsConflictOnUnique : t'.rowsConflictOnUnique = t.rowsConflictOnUnique := by
  funext left right
  simp only [Table.rowsConflictOnUnique, uniqueRowsEqual, h.allUniqueConstraints, h.columnIndex]

theorem accepts {exclude : Option ℕ} (ha : t.Accepts rows row exclude) :
    t'.Accepts rows row exclude := by
  refine ⟨h.validateRow ▸ ha.valid, fun c hc => ?_, h.rowsConflictOnUnique ▸ ha.unique⟩
  rw [h.allUniqueConstraints] at hc
  obtain ⟨indexes, hres⟩ := ha.keys c hc
  exact ⟨indexes, hres.1, h.columnIndex ▸ hres.2⟩

theorem allAccepted (ha : t.AllAccepted rows) : t'.AllAccepted rows :=
  fun r row hr => h.accepts (ha r row hr)

theorem canonical (hc : t.Canonical) : t'.Canonical := by
  unfold Canonical
  rw [h.columnIndex, h.schema, h.indexColumns]
  exact hc

end SameRules

/-- The invariant of a table. -/
structure Sound (t : Table) : Prop where
  store : t.rowStore.Valid
  indexes : t.indexManager.Agrees t.rowStore t.schema
  canonical : t.Canonical
  accepted : t.AllAccepted t.rowStore.get

/-- The heap is valid and the indexes answer for its rows. -/
structure Searchable (t : Table) : Prop where
  store : t.rowStore.Valid
  indexes : t.indexManager.Agrees t.rowStore t.schema
  canonical : t.Canonical

theorem Sound.searchable (ht : t.Sound) : t.Searchable := ⟨ht.store, ht.indexes, ht.canonical⟩

theorem columnIndexName_eq_some {columns : List String}
    (h : t.indexManager.columnIndexName columns t.schema = some name) :
    ∃ indexes : List ℕ, t.indexManager.indexColumns[name]? = some indexes ∧
      t.indexManager.indexExpressions[name]? = none ∧
      indexes.map (columnName t.schema) = columns := by
  obtain ⟨⟨name', indexes⟩, hfind, rfl⟩ := map_eq_some_iff.mp h
  have hmem := mem_of_find?_eq_some hfind
  have hp := find?_some hfind
  simp only [columnsMatch, Bool.and_eq_true, Bool.not_eq_true', decide_eq_true_eq] at hp
  refine ⟨indexes, mem_toList_iff_getElem?_eq_some.mp hmem, ?_, hp.2⟩
  exact getElem?_eq_none (by simpa [← Std.ExtTreeMap.contains_iff_mem] using hp.1)

theorem expressionIndexName_eq_some {expression : IndexExpression}
    (h : t.indexManager.expressionIndexName expression = some name) :
    ∃ e, t.indexManager.indexExpressions[name]? = some e ∧ e.beq expression = true := by
  obtain ⟨⟨name', e⟩, hfind, rfl⟩ := map_eq_some_iff.mp h
  have hbeq := find?_some hfind
  exact ⟨e, mem_toList_iff_getElem?_eq_some.mp (mem_of_find?_eq_some hfind), hbeq⟩

/-- On the columns of a constraint the index has the key of the constraint. -/
theorem Canonical.resolves (hc : t.Canonical) (hres : t.Resolves constraint indexes)
    (h : t.indexManager.columnIndexName constraint.columns t.schema = some name) :
    t.indexManager.indexColumns[name]? = some indexes ∧
      t.indexManager.indexExpressions[name]? = none := by
  obtain ⟨is, hcol, hexpr, hnames⟩ := columnIndexName_eq_some h
  have his : constraint.columns.map t.columnIndex = is.map some := by
    rw [← hnames, List.map_map]
    exact map_congr_left fun i hi => hc name is hcol i hi
  have heq : is = indexes :=
    map_injective_iff.mpr (some_injective ℕ) (his.symm.trans hres.2)
  exact ⟨heq ▸ hcol, hexpr⟩

theorem hasKey_iff {k key : Value} (hcol : t.indexManager.indexColumns[name]? = some indexes)
    (hexpr : t.indexManager.indexExpressions[name]? = none)
    (hk : Value.makeComposite (indexes.map row.at) = .ok k) :
    t.indexManager.HasKey name row t.schema key ↔ k.beq key = true := by
  have hkeys : t.indexManager.hashKeysForRow name row t.schema = .ok [k] := by
    simp only [hashKeysForRow, indexKeyForRow, isTrigram,
      hcol, hexpr, getD_some, hk]
    rfl
  simp [IndexManager.HasKey, hkeys]

/-- An index and a scan find the same conflicts. -/
theorem Sound.uniqueConflict_iff (ht : t.Sound) (hres : t.Resolves constraint indexes)
    (hcell : ∀ i, (row.at i).IsCell) {key : Value}
    (hkey : Value.makeComposite (indexes.map row.at) = .ok key)
    (hnull : key.hasNullCompositePart = false) (exclude : Option ℕ) :
    t.uniqueConflict constraint row key exclude = true ↔
      ∃ r other, t.rowStore.get r = some other ∧ exclude ≠ some r ∧
        t.uniqueRowsEqual constraint row other = true := by
  unfold uniqueConflict indexedLookup IndexManager.indexedLookup
  cases hname : t.indexManager.columnIndexName constraint.columns t.schema with
  | none =>
    simp only [map_none, List.any_eq_true, Prod.exists, Bool.and_eq_true, decide_eq_true_eq,
      PageRowStore.mem_liveEntries ht.store]
  | some name =>
    obtain ⟨hcol, hexpr⟩ := ht.canonical.resolves hres hname
    have hmem : name ∈ t.indexManager.indexes := by
      rw [ht.indexes.mem_indexes, mem_iff_isSome_getElem?, hcol]
      rfl
    simp only [map_some, List.any_eq_true, decide_eq_true_eq, ht.indexes.mem_find name hmem]
    have hiff : ∀ other, t.indexManager.HasKey name other t.schema key ↔
        t.uniqueRowsEqual constraint row other = true := by
      intro other
      obtain ⟨k, hk⟩ := hres.exists_key other
      rw [hasKey_iff hcol hexpr hk, uniqueRowsEqual_iff_key hres hcell hkey hk, hnull]
      simp
    simp only [hiff]
    tauto

theorem enforceUniques_eq_ok (row : Row) (exclude : Option ℕ)
    (constraints : List UniqueConstraint) :
    t.enforceUniques row exclude constraints = .ok () ↔
      ∀ constraint ∈ constraints, ∃ key, t.uniqueKeyForRow constraint row = .ok key ∧
        (key.hasNullCompositePart = false →
          t.uniqueConflict constraint row key exclude = false) := by
  induction constraints with
  | nil => simp [enforceUniques, pure, Except.pure]
  | cons constraint constraints ih =>
    rw [enforceUniques, forall_mem_cons, ← ih]
    cases hkey : t.uniqueKeyForRow constraint row with
    | error e => simp
    | ok key =>
      cases hnull : key.hasNullCompositePart <;>
        cases hconf : t.uniqueConflict constraint row key exclude <;>
          simp [hnull, hconf]

/-- On a sound table the checks accept exactly the rows that are acceptable beside the live rows. -/
theorem Sound.assertUniqueRow_iff (ht : t.Sound) (row : Row) (exclude : Option ℕ) :
    t.assertUniqueRow row exclude = .ok () ↔ t.Accepts t.rowStore.get row exclude := by
  rw [assertUniqueRow, bind_unit_eq_ok, enforceUniqueConstraintsUnlocked, enforceUniques_eq_ok]
  constructor
  · rintro ⟨hvalid, hunique⟩
    have hcell := isCell_of_validateRow hvalid
    refine ⟨hvalid, fun c hc => ?_, fun r other hr hne => ?_⟩
    · obtain ⟨key, hkey, -⟩ := hunique c hc
      obtain ⟨indexes, hres, -⟩ := uniqueKeyForRow_eq_ok.mp hkey
      exact ⟨indexes, hres⟩
    · rw [rowsConflictOnUnique, List.any_eq_false]
      intro c hc hequal
      obtain ⟨key, hkey, hconf⟩ := hunique c hc
      obtain ⟨indexes, hres, hkey⟩ := uniqueKeyForRow_eq_ok.mp hkey
      obtain ⟨k, hk⟩ := hres.exists_key other
      have hnull : key.hasNullCompositePart = false := by
        rw [uniqueRowsEqual_iff_key hres hcell hkey hk] at hequal
        simpa using (Bool.and_eq_true_iff.mp hequal).1
      have := (ht.uniqueConflict_iff hres hcell hkey hnull exclude).mpr ⟨r, other, hr, hne, hequal⟩
      rw [hconf hnull] at this
      cases this
  · rintro ⟨hvalid, hkeys, hunique⟩
    refine ⟨hvalid, fun c hc => ?_⟩
    obtain ⟨indexes, hres⟩ := hkeys c hc
    obtain ⟨key, hkey⟩ := hres.exists_key row
    refine ⟨key, uniqueKeyForRow_eq_ok.mpr ⟨indexes, hres, hkey⟩, fun hnull => ?_⟩
    rw [← Bool.not_eq_true, ht.uniqueConflict_iff hres (isCell_of_validateRow hvalid) hkey hnull]
    rintro ⟨r, other, hr, hne, hequal⟩
    have := hunique r other hr hne
    rw [rowsConflictOnUnique, List.any_eq_false] at this
    exact this c hc hequal

end Uniqueness

end Table

end VertexDB
