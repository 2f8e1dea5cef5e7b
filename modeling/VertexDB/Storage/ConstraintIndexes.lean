import VertexDB.Storage.ConsistentTable

/-!
# The indexes of the constraints

`Table::ensureConstraintIndexes` gives every UNIQUE and PRIMARY KEY constraint an index on its
columns, under a name that joins the names of the columns with `_`. The name does not determine the
columns: `UNIQUE (a_b)` and `UNIQUE (a, b)` both ask for `__uq_a_b`, and the second one throws.
-/

namespace VertexDB

open Exec IndexManager Std.ExtTreeMap

namespace IndexManager

variable {m : IndexManager} {schema : List Column}

theorem hasIndex_eq_true {columns : List String} :
    m.hasIndex columns schema = true ↔ ∃ name indexes, m.indexColumns[name]? = some indexes ∧
      name ∉ m.indexExpressions ∧ indexes.map (columnName schema) = columns := by
  rw [hasIndex, columnIndexName, Option.isSome_map, List.find?_isSome]
  constructor
  · rintro ⟨⟨name, indexes⟩, hmem, hp⟩
    simp only [columnsMatch, Bool.and_eq_true, Bool.not_eq_true', decide_eq_true_eq] at hp
    refine ⟨name, indexes, mem_toList_iff_getElem?_eq_some.mp hmem, ?_, hp.2⟩
    simpa [← contains_iff_mem] using hp.1
  · rintro ⟨name, indexes, hget, hexpr, hcols⟩
    refine ⟨(name, indexes), mem_toList_iff_getElem?_eq_some.mpr hget, ?_⟩
    simpa [columnsMatch, hcols, ← contains_iff_mem] using hexpr

theorem Indexable.insert {m' : IndexManager} {row : Row} (h : m.Indexable row schema)
    {name : String} {indexes : List ℕ}
    (hcols : m'.indexColumns = m.indexColumns.insert name indexes)
    (hexprs : m'.indexExpressions = m.indexExpressions) (hname : name ∉ m.indexExpressions)
    (hnil : indexes ≠ []) : m'.Indexable row schema := by
  intro k hk
  rw [hcols, mem_keys, mem_insert, Std.LawfulEqCmp.compare_eq_iff_eq] at hk
  by_cases heq : name = k
  · subst heq
    have hnone : m'.indexExpressions[name]? = none := by
      rw [hexprs]
      exact getElem?_eq_none hname
    obtain ⟨i, rest, rfl⟩ := List.exists_cons_of_ne_nil hnil
    simp only [indexKeyForRow, hnone, hcols, getElem?_insert_self, Option.getD_some]
    cases rest <;> rfl
  · have hkey : m'.indexKeyForRow k row schema = m.indexKeyForRow k row schema := by
      rw [indexKeyForRow, indexKeyForRow, hexprs, hcols, getElem?_insert,
        if_neg (by simpa using heq)]
    rw [hkey]
    exact h k (mem_keys.mpr (hk.resolve_left heq))

end IndexManager

namespace Table

variable {t t' : Table} {rebuild : Bool} {constraints : List UniqueConstraint}

/-- The first constraint with each list of columns: those that follow share its index. -/
def ownIndexes : List UniqueConstraint → List UniqueConstraint
  | [] => []
  | constraint :: constraints =>
    constraint :: (ownIndexes constraints).filter fun other => other.columns ≠ constraint.columns

/-- The constraint names columns of the table. -/
def Named (t : Table) (constraint : UniqueConstraint) : Prop :=
  constraint.columns ≠ [] ∧ ∀ column ∈ constraint.columns, (t.columnIndex column).isSome

variable {constraint : UniqueConstraint}

theorem Named.exists_indexes (h : t.Named constraint) :
    ∃ indexes, constraint.columns.mapM t.columnIndex = some indexes ∧ indexes ≠ [] ∧
      indexes.map (columnName t.schema) = constraint.columns ∧
      ∀ i ∈ indexes, i < t.schema.length := by
  obtain ⟨hnil, hfound⟩ := h
  have hres : ∀ columns : List String, (∀ column ∈ columns, (t.columnIndex column).isSome) →
      ∃ indexes, columns.mapM t.columnIndex = some indexes ∧
        indexes.map (columnName t.schema) = columns ∧ ∀ i ∈ indexes, i < t.schema.length := by
    intro columns
    induction columns with
    | nil => exact fun _ => ⟨[], by simp⟩
    | cons column columns ih =>
      intro hfound
      obtain ⟨hcol, hrest⟩ := List.forall_mem_cons.mp hfound
      obtain ⟨i, hi⟩ := Option.isSome_iff_exists.mp hcol
      obtain ⟨indexes, hidxs, hnames, hrange⟩ := ih hrest
      refine ⟨i :: indexes, by simp [List.mapM_cons, hi, hidxs], ?_,
        List.forall_mem_cons.mpr ⟨lt_length_of_findColumn hi, hrange⟩⟩
      rw [List.map_cons, hnames, columnName_of_findColumn hi]
  obtain ⟨indexes, hidxs, hnames, hrange⟩ := hres _ hfound
  refine ⟨indexes, hidxs, ?_, hnames, hrange⟩
  rintro rfl
  exact hnil hnames.symm

/-- What registering indexes on columns needs from a table: its indexes are complete, and a rebuild
finds keys for the rows. -/
structure Indexing (rebuild : Bool) (t : Table) : Prop where
  registered : t.indexManager.Registered
  indexable : rebuild = true → ∀ i row, t.rowStore.get i = some row →
    t.indexManager.Indexable row t.schema
  expressions : ∀ name ∈ t.indexManager.indexExpressions, name ∈ t.indexManager.indexColumns

theorem registerIndex_ok (ht : t.Indexing rebuild) {name : String}
    (hname : name ∉ t.indexManager.indexColumns) {indexes : List ℕ} (hnil : indexes ≠ [])
    (hrange : ∀ i ∈ indexes, i < t.schema.length) :
    ∃ m : IndexManager, registerIndex name indexes none rebuild t =
        .ok true { t with indexManager := m } ∧ m.Registered ∧
      m.indexColumns = t.indexManager.indexColumns.insert name indexes ∧
      m.indexExpressions = t.indexManager.indexExpressions := by
  have hreg : IndexManager.registerIndex name indexes none rebuild t.rowStore t.schema
      t.indexManager = _ :=
    IndexManager.registerIndex_of_not_mem ht.registered hname hnil (by simp) hrange rebuild
  have hm := ht.registered.withIndex name indexes none
  cases rebuild with
  | false => exact ⟨_, onIndexes_eq_ok.mpr ⟨_, hreg, rfl⟩, hm, rfl, rfl⟩
  | true =>
    have hrows : ∀ i row, t.rowStore.get i = some row →
        (t.indexManager.withIndex name indexes none).Indexable row t.schema := fun i row hrow =>
      (ht.indexable rfl i row hrow).insert rfl rfl (fun h => hname (ht.expressions name h)) hnil
    rw [if_pos rfl, bind_of_ok (IndexManager.rebuildIndexes_ok hm hrows)] at hreg
    obtain ⟨hcols, hexprs⟩ := IndexManager.indexColumns_addRows
      (t.indexManager.withIndex name indexes none).clearIndexes t.rowStore.liveEntries t.schema
    exact ⟨_, onIndexes_eq_ok.mpr ⟨_, hreg, rfl⟩, hm.clearIndexes.addRows _, hcols, hexprs⟩

/-- A round of the loop for a constraint whose columns have an index. -/
theorem ensureConstraintIndex_of_hasIndex
    (h : t.indexManager.hasIndex constraint.columns t.schema = true) (context : String)
    (rebuild : Bool) :
    ensureConstraintIndex context rebuild constraint t = .ok ⟨⟩ t := by
  simp [ensureConstraintIndex, h]

/-- A round of the loop for a constraint whose index name is taken by an index on other columns. -/
theorem ensureConstraintIndex_of_clash (hnamed : t.Named constraint)
    (h : t.indexManager.hasIndex constraint.columns t.schema = false)
    (hname : constraintIndexName constraint ∈ t.indexManager.indexColumns) (context : String)
    (rebuild : Bool) : ensureConstraintIndex context rebuild constraint t =
      .error (.runtimeError (context ++ constraintIndexName constraint)) t := by
  obtain ⟨indexes, hidxs, -⟩ := hnamed.exists_indexes
  have hrefuse : registerIndex (constraintIndexName constraint) indexes none rebuild t =
      .ok false t :=
    onIndexes_eq_ok.mpr ⟨_, registerIndex_of_mem hname indexes none rebuild, rfl⟩
  simp only [ensureConstraintIndex, get_bind, ite_run, h, hidxs]
  rw [if_neg (by simp), bind_of_ok hrefuse]
  rfl

/-- A round of the loop for a constraint whose columns have no index and whose name is free. -/
theorem ensureConstraintIndex_of_free (ht : t.Indexing rebuild) (hnamed : t.Named constraint)
    (hfree : t.indexManager.hasIndex constraint.columns t.schema = false)
    (hname : constraintIndexName constraint ∉ t.indexManager.indexColumns) (context : String) :
    ∃ m, ensureConstraintIndex context rebuild constraint t = .ok ⟨⟩ { t with indexManager := m } ∧
      ({ t with indexManager := m } : Table).Indexing rebuild ∧
      (∀ name, name ∈ m.indexColumns ↔
        name = constraintIndexName constraint ∨ name ∈ t.indexManager.indexColumns) ∧
      ∀ columns, m.hasIndex columns t.schema = true ↔
        columns = constraint.columns ∨ t.indexManager.hasIndex columns t.schema = true := by
  obtain ⟨indexes, hidxs, hnil, hnames, hrange⟩ := hnamed.exists_indexes
  obtain ⟨m, hreg, hm, hcols, hexprs⟩ := registerIndex_ok ht hname hnil hrange
  have hmem : ∀ name, name ∈ m.indexColumns ↔
      name = constraintIndexName constraint ∨ name ∈ t.indexManager.indexColumns := by
    intro name
    rw [hcols, mem_insert, Std.LawfulEqCmp.compare_eq_iff_eq, eq_comm]
  refine ⟨m, ?_, ⟨hm, fun hrebuild i row hrow => ?_, fun name h => ?_⟩, hmem, fun columns => ?_⟩
  · simp only [ensureConstraintIndex, get_bind, ite_run, hfree, hidxs]
    rw [if_neg (by simp), bind_of_ok hreg]
    rfl
  · exact (ht.indexable hrebuild i row hrow).insert hcols hexprs
      (fun h => hname (ht.expressions _ h)) hnil
  · rw [hexprs] at h
    exact (hmem name).mpr (Or.inr (ht.expressions name h))
  · rw [hasIndex_eq_true, hasIndex_eq_true, hcols, hexprs]
    constructor
    · rintro ⟨name, positions, hget, hexpr, hmatch⟩
      rw [getElem?_insert] at hget
      split_ifs at hget
      · rw [← Option.some.inj hget, hnames] at hmatch
        exact Or.inl hmatch.symm
      · exact Or.inr ⟨name, positions, hget, hexpr, hmatch⟩
    · rintro (rfl | ⟨name, positions, hget, hexpr, hmatch⟩)
      · exact ⟨constraintIndexName constraint, indexes, by simp,
          fun h => hname (ht.expressions _ h), hnames⟩
      · refine ⟨name, positions, ?_, hexpr, hmatch⟩
        have hne : constraintIndexName constraint ≠ name := by
          rintro rfl
          exact hname (mem_iff_isSome_getElem?.mpr (by rw [hget]; rfl))
        simpa [getElem?_insert, hne] using hget

/-- The constraints of a list for which the loop of `ensureConstraintIndexes` creates an index. -/
def newIndexes (t : Table) (constraints : List UniqueConstraint) : List UniqueConstraint :=
  (ownIndexes constraints).filter fun constraint =>
    !t.indexManager.hasIndex constraint.columns t.schema

theorem newIndexes_cons_of_hasIndex (h : t.indexManager.hasIndex constraint.columns t.schema = true)
    (constraints : List UniqueConstraint) :
    t.newIndexes (constraint :: constraints) = t.newIndexes constraints := by
  rw [newIndexes, ownIndexes, List.filter_cons_of_neg (by simp [h]), List.filter_filter, newIndexes]
  refine List.filter_congr fun other _ => ?_
  by_cases hcols : other.columns = constraint.columns
  · simp [hcols, h]
  · simp [hcols]

theorem newIndexes_cons_of_free {m : IndexManager}
    (h : t.indexManager.hasIndex constraint.columns t.schema = false)
    (hm : ∀ columns, m.hasIndex columns t.schema = true ↔
      columns = constraint.columns ∨ t.indexManager.hasIndex columns t.schema = true)
    (constraints : List UniqueConstraint) :
    t.newIndexes (constraint :: constraints) =
      constraint :: ({ t with indexManager := m } : Table).newIndexes constraints := by
  rw [newIndexes, ownIndexes, List.filter_cons_of_pos (by simp [h]), List.filter_filter, newIndexes]
  congr 1
  refine List.filter_congr fun other _ => ?_
  have hother := hm other.columns
  by_cases hcols : other.columns = constraint.columns
  · simp [hcols, (hm constraint.columns).mpr (Or.inl rfl)]
  · simp only [hcols, false_or] at hother
    simp [hcols, Bool.eq_iff_iff.mpr hother]

/-- The names of the indexes that the loop of `ensureConstraintIndexes` creates are free and
distinct. -/
structure FreshNames (t : Table) (constraints : List UniqueConstraint) : Prop where
  nodup : ((t.newIndexes constraints).map constraintIndexName).Nodup
  free : ∀ c ∈ t.newIndexes constraints, constraintIndexName c ∉ t.indexManager.indexColumns

theorem freshNames_cons_of_hasIndex (h : t.indexManager.hasIndex constraint.columns t.schema = true)
    (constraints : List UniqueConstraint) :
    t.FreshNames (constraint :: constraints) ↔ t.FreshNames constraints := by
  have hsame := newIndexes_cons_of_hasIndex h constraints
  exact ⟨fun h => ⟨hsame ▸ h.nodup, hsame ▸ h.free⟩, fun h => ⟨hsame ▸ h.nodup, hsame ▸ h.free⟩⟩

theorem freshNames_cons_of_free {m : IndexManager}
    (h : t.indexManager.hasIndex constraint.columns t.schema = false)
    (hname : constraintIndexName constraint ∉ t.indexManager.indexColumns)
    (hmem : ∀ name, name ∈ m.indexColumns ↔
      name = constraintIndexName constraint ∨ name ∈ t.indexManager.indexColumns)
    (hm : ∀ columns, m.hasIndex columns t.schema = true ↔
      columns = constraint.columns ∨ t.indexManager.hasIndex columns t.schema = true)
    (constraints : List UniqueConstraint) :
    t.FreshNames (constraint :: constraints) ↔
      ({ t with indexManager := m } : Table).FreshNames constraints := by
  have hcons := newIndexes_cons_of_free h hm constraints
  constructor
  · rintro ⟨hnodup, hfree⟩
    rw [hcons, List.map_cons, List.nodup_cons] at hnodup
    rw [hcons, List.forall_mem_cons] at hfree
    refine ⟨hnodup.2, fun c hc hused => ?_⟩
    rcases (hmem _).mp hused with heq | hold
    · exact hnodup.1 (heq ▸ List.mem_map_of_mem hc)
    · exact hfree.2 c hc hold
  · rintro ⟨hnodup, hfree⟩
    refine ⟨?_, ?_⟩
    · rw [hcons, List.map_cons, List.nodup_cons]
      refine ⟨fun h => ?_, hnodup⟩
      obtain ⟨c, hc, heq⟩ := List.mem_map.mp h
      exact hfree c hc ((hmem _).mpr (Or.inl heq))
    · rw [hcons, List.forall_mem_cons]
      exact ⟨hname, fun c hc hold => hfree c hc ((hmem _).mpr (Or.inr hold))⟩

/-- The loop of `ensureConstraintIndexes` returns when the names it needs are fresh. -/
theorem FreshNames.returns (ht : t.Indexing rebuild) (context : String)
    (hnamed : ∀ c ∈ constraints, t.Named c) (h : t.FreshNames constraints) :
    ∃ t', forM constraints (ensureConstraintIndex context rebuild) t = .ok ⟨⟩ t' := by
  induction constraints generalizing t with
  | nil => exact ⟨t, rfl⟩
  | cons constraint constraints ih =>
    obtain ⟨hhead, htail⟩ := List.forall_mem_cons.mp hnamed
    rw [forM_cons_run]
    by_cases hhas : t.indexManager.hasIndex constraint.columns t.schema = true
    · rw [bind_of_ok (ensureConstraintIndex_of_hasIndex hhas _ _)]
      exact ih ht htail ((freshNames_cons_of_hasIndex hhas _).mp h)
    · rw [Bool.not_eq_true] at hhas
      have hname := h.free constraint (by simp [newIndexes, ownIndexes, hhas])
      obtain ⟨m, hrun, hm, hmem, hidxs⟩ := ensureConstraintIndex_of_free ht hhead hhas hname context
      rw [bind_of_ok hrun]
      exact ih hm htail ((freshNames_cons_of_free hhas hname hmem hidxs _).mp h)

/-- When the loop of `ensureConstraintIndexes` returns, the names it needed were fresh, and the
constraints have their indexes. -/
theorem FreshNames.of_forM (ht : t.Indexing rebuild) {context : String}
    (hnamed : ∀ c ∈ constraints, t.Named c) {u : PUnit}
    (h : forM constraints (ensureConstraintIndex context rebuild) t = .ok u t') :
    t.FreshNames constraints ∧ ∃ m, t' = { t with indexManager := m } ∧
      ∀ columns, m.hasIndex columns t.schema = true ↔
        t.indexManager.hasIndex columns t.schema = true ∨ ∃ c ∈ constraints,
          c.columns = columns := by
  induction constraints generalizing t with
  | nil =>
    obtain rfl : t = t' := (EStateM.Result.ok.inj h).2
    exact ⟨⟨by simp [newIndexes, ownIndexes], by simp [newIndexes, ownIndexes]⟩,
      t.indexManager, rfl, by simp⟩
  | cons constraint constraints ih =>
    obtain ⟨hhead, htail⟩ := List.forall_mem_cons.mp hnamed
    rw [forM_cons_run] at h
    by_cases hhas : t.indexManager.hasIndex constraint.columns t.schema = true
    · rw [bind_of_ok (ensureConstraintIndex_of_hasIndex hhas _ _)] at h
      obtain ⟨hfresh, m, hm, hidxs⟩ := ih ht htail h
      refine ⟨(freshNames_cons_of_hasIndex hhas _).mpr hfresh, m, hm, fun columns => ?_⟩
      rw [hidxs, List.exists_mem_cons_iff, ← or_assoc]
      refine or_congr_left ⟨Or.inl, ?_⟩
      rintro (h | rfl)
      · exact h
      · exact hhas
    rw [Bool.not_eq_true] at hhas
    by_cases hname : constraintIndexName constraint ∈ t.indexManager.indexColumns
    · rw [bind_of_error (ensureConstraintIndex_of_clash hhead hhas hname _ _)] at h
      cases h
    · obtain ⟨m, hrun, ht', hmem, hidxs⟩ :=
        ensureConstraintIndex_of_free ht hhead hhas hname context
      rw [bind_of_ok hrun] at h
      obtain ⟨hfresh, m', hm', hidxs'⟩ := ih ht' htail h
      refine ⟨(freshNames_cons_of_free hhas hname hmem hidxs _).mpr hfresh, m', hm',
        fun columns => ?_⟩
      rw [hidxs', hidxs, List.exists_mem_cons_iff, ← or_assoc, or_comm (a := columns = _),
        eq_comm (a := columns)]

section Constructor

theorem columnIndex_isSome {column : String} :
    (t.columnIndex column).isSome ↔ column ∈ t.schema.map Column.name := by
  rw [columnIndex, findColumn, List.findIdx?_isSome, List.any_eq_true, List.mem_map]
  simp

/-- A constraint that the constructor accepts names columns of the schema. -/
theorem mem_of_validateUniqueColumns {schema : List Column} {primaryKey : Bool}
    {names seen : List String} (h : validateUniqueColumns schema primaryKey seen names = .ok ⟨⟩) :
    ∀ name ∈ names, name ∈ schema.map Column.name := by
  induction names generalizing seen with
  | nil => simp
  | cons name names ih =>
    rw [validateUniqueColumns] at h
    by_cases hseen : name ∈ seen
    · rw [if_pos hseen] at h
      cases h
    rw [if_neg hseen] at h
    cases hfind : schema.find? fun column => column.name = name with
    | none =>
      rw [hfind] at h
      cases h
    | some column =>
      simp only [hfind] at h
      refine List.forall_mem_cons.mpr ⟨?_, ?_⟩
      · rw [← (by simpa using List.find?_some hfind : column.name = name)]
        exact List.mem_map_of_mem (List.mem_of_find?_eq_some hfind)
      · by_cases hnull : (primaryKey && column.nullable) = true
        · rw [if_pos hnull] at h
          cases h
        · rw [if_neg hnull] at h
          exact ih h

/-- What the constructor does with its constraints. -/
theorem applyUniqueConstraints_eq_ok {uniques : List UniqueConstraint} :
    ∀ {sawPrimaryKey : Bool} {schema schema' : List Column},
      applyUniqueConstraints sawPrimaryKey schema uniques = .ok schema' →
        schema'.map Column.name = schema.map Column.name ∧ ∀ c ∈ uniques, c.columns ≠ [] ∧
          ∀ name ∈ c.columns, name ∈ schema.map Column.name := by
  induction uniques with
  | nil =>
    intro sawPrimaryKey schema schema' h
    rw [← Except.ok.inj h]
    simp
  | cons constraint uniques ih =>
    intro sawPrimaryKey schema schema' h
    rw [applyUniqueConstraints] at h
    cases hvalid : validateUniqueConstraintColumns constraint schema with
    | error e =>
      rw [hvalid] at h
      cases h
    | ok _ =>
      simp only [hvalid, bind, Except.bind] at h
      have hhead : constraint.columns ≠ [] ∧
          ∀ name ∈ constraint.columns, name ∈ schema.map Column.name := by
        rw [validateUniqueConstraintColumns] at hvalid
        by_cases hnil : constraint.columns = []
        · rw [if_pos hnil] at hvalid
          cases hvalid
        · rw [if_neg hnil] at hvalid
          exact ⟨hnil, mem_of_validateUniqueColumns hvalid⟩
      by_cases hkey : constraint.primaryKey = true
      · rw [if_pos hkey] at h
        cases sawPrimaryKey with
        | true => cases h
        | false =>
          obtain ⟨hnames, htail⟩ := ih h
          have hsame : (schema.map fun column =>
              if constraint.columns.contains column.name then { column with nullable := false }
              else column).map Column.name = schema.map Column.name := by
            rw [List.map_map]
            refine List.map_congr_left fun column _ => ?_
            rw [Function.comp_apply]
            split_ifs <;> rfl
          rw [hsame] at hnames htail
          exact ⟨hnames, List.forall_mem_cons.mpr ⟨hhead, htail⟩⟩
      · rw [if_neg hkey] at h
        obtain ⟨hnames, htail⟩ := ih h
        exact ⟨hnames, List.forall_mem_cons.mpr ⟨hhead, htail⟩⟩

variable {name : String} {schema : List Column} {checks : List CheckPredicate}
  {foreignKeys : List ForeignKeyConstraint} {uniques : List UniqueConstraint}

theorem named_of_construct (hnew : construct name schema checks foreignKeys uniques = .ok t) :
    ∀ c ∈ t.allUniqueConstraints, t.Named c := by
  obtain ⟨sawPrimaryKey, schema', -, happly, -, rfl⟩ := construct_eq_ok hnew
  obtain ⟨hnames, hcols⟩ := applyUniqueConstraints_eq_ok happly
  intro c hc
  rcases List.mem_append.mp hc with hc | hc
  · refine ⟨(hcols c hc).1, fun column hcol => columnIndex_isSome.mpr ?_⟩
    rw [hnames]
    exact (hcols c hc).2 column hcol
  · obtain ⟨column, hcol, rfl⟩ := List.mem_map.mp hc
    refine ⟨by simp, fun other hother => columnIndex_isSome.mpr ?_⟩
    rw [List.mem_singleton.mp hother]
    exact List.mem_map_of_mem (List.mem_filter.mp hcol).1

theorem indexManager_of_construct
    (hnew : construct name schema checks foreignKeys uniques = .ok t) :
    t.indexManager = {} ∧ t.Indexing true := by
  obtain ⟨sawPrimaryKey, schema', -, -, -, rfl⟩ := construct_eq_ok hnew
  exact ⟨rfl, ⟨by simp, by simp⟩, fun _ i row hrow => by simp [PageRowStore.get] at hrow, by simp⟩

end Constructor

/-- A new table gets an index for each of its constraints exactly when the indexes of the
constraints have distinct names. -/
theorem constraintIndexes_iff {name : String} {schema : List Column} {checks : List CheckPredicate}
    {foreignKeys : List ForeignKeyConstraint} {uniques : List UniqueConstraint}
    (hnew : construct name schema checks foreignKeys uniques = .ok t) :
    Returns ensureConstraintIndexes t (fun _ t' => ∀ c ∈ t'.allUniqueConstraints,
        t'.indexManager.hasIndex c.columns t'.schema = true) ↔
      ((ownIndexes t.allUniqueConstraints).map constraintIndexName).Nodup := by
  obtain ⟨hempty, hindexing⟩ := indexManager_of_construct hnew
  have hnamed := named_of_construct hnew
  have hnew' : t.newIndexes t.allUniqueConstraints = ownIndexes t.allUniqueConstraints := by
    refine List.filter_eq_self.mpr fun c _ => ?_
    rw [hempty]
    rfl
  have hfresh : t.FreshNames t.allUniqueConstraints ↔
      ((ownIndexes t.allUniqueConstraints).map constraintIndexName).Nodup := by
    refine ⟨fun h => hnew' ▸ h.nodup, fun h => ⟨hnew' ▸ h, ?_⟩⟩
    simp [hempty]
  rw [← hfresh]
  constructor
  · rintro ⟨u, t', hrun, -⟩
    exact (FreshNames.of_forM hindexing hnamed hrun).1
  · intro h
    obtain ⟨t', hrun⟩ := h.returns hindexing "failed to create constraint index " hnamed
    obtain ⟨-, m, rfl, hm⟩ := FreshNames.of_forM hindexing hnamed hrun
    exact ⟨⟨⟩, _, hrun, fun c hc => (hm c.columns).mpr (Or.inr ⟨c, hc, rfl⟩)⟩

/-- A table with the columns `a`, `b`, a third one that is UNIQUE, and `UNIQUE (a, b)`. -/
def joinedNamesTable (third : String) : Table where
  name := "t"
  schema := [{ name := "a", type := .int }, { name := "b", type := .int },
    { name := third, type := .int, unique := true }]
  uniqueConstraints := [{ columns := ["a", "b"] }]

theorem constraintIndexes_distinct :
    construct "t" (joinedNamesTable "c").schema [] [] (joinedNamesTable "c").uniqueConstraints =
      .ok (joinedNamesTable "c") ∧
    Returns ensureConstraintIndexes (joinedNamesTable "c") fun _ t' =>
      ∀ c ∈ t'.allUniqueConstraints, t'.indexManager.hasIndex c.columns t'.schema = true :=
  ⟨rfl, (constraintIndexes_iff (by rfl : construct "t" (joinedNamesTable "c").schema [] []
    (joinedNamesTable "c").uniqueConstraints = .ok (joinedNamesTable "c"))).mpr (by decide)⟩

/-- `UNIQUE (a, b)` and `a_b UNIQUE` ask for the same index name. -/
theorem constraintIndexes_clash :
    construct "t" (joinedNamesTable "a_b").schema [] [] (joinedNamesTable "a_b").uniqueConstraints =
      .ok (joinedNamesTable "a_b") ∧
    Throws ensureConstraintIndexes (joinedNamesTable "a_b") fun e _ =>
      e = .runtimeError "failed to create constraint index __uq_a_b" :=
  ⟨rfl, by decide⟩

end Table

end VertexDB
