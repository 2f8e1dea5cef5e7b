import VertexDB.Storage.ConsistentTable

/-!
# Foreign keys and renamed columns

Foreign keys hold the names of their columns. `Table::renameColumn` rewrites the child columns of
its own foreign keys and, through the database, the parent columns in all *other* tables. A foreign
key of the table to itself keeps the old name of its parent column, and from then on it names no
column.
-/

namespace VertexDB

open Exec List Function

namespace Database

/-- A call on one of the table objects. -/
def onObject {α : Type} (id : ℕ) (x : EStateM Error Table α) : EStateM Error Database α := fun db =>
  match db.objects[id]? with
  | none => .error (.runtimeError "unknown table") db
  | some t =>
    match x t with
    | .ok a t' => .ok a (db.setObject id t')
    | .error e t' => .error e (db.setObject id t')

/-- The loop of `Table::renameColumn` over the other tables of the database. -/
def rewriteParentColumns (id : ℕ) (parentTable oldName newName : String) (db : Database) :
    Database :=
  db.tables.foldl (fun (db : Database) entry =>
    if entry.1 = id then db
    else { db with objects := db.objects.modify entry.1 fun t =>
      t.rewriteForeignKeyParentColumn parentTable oldName newName }) db

/-- `Table::renameColumn` of a table of the database. -/
def renameColumn (tableName oldName newName : String) : EStateM Error Database Unit := do
  let db ← EStateM.get
  match db.table tableName with
  | none => throw (.runtimeError "unknown table")
  | some (id, t) =>
    onObject id (Table.renameColumn oldName newName)
    if oldName ≠ newName then modify (rewriteParentColumns id t.name oldName newName)

/-- `parentHasExactUniqueKey`. -/
def parentHasExactUniqueKey (parent : Table) (parentColumns : List String) : Bool :=
  parent.allUniqueConstraints.any fun constraint => constraint.columns = parentColumns

/-- What a foreign key stands for. -/
structure Resolution where
  childPositions : List ℕ
  parent : ℕ
  parentPositions : List ℕ
  deriving DecidableEq

/-- The positions of the child columns, the parent table and the positions of the parent columns of
a foreign key, when the columns are there and the parent columns are a key. -/
def resolution (db : Database) (child : Table) (fk : ForeignKeyConstraint) : Option Resolution := do
  let childPositions ← fk.childColumns.mapM child.columnIndex
  let parent ← db.table fk.parentTable
  let parentPositions ← fk.parentColumns.mapM parent.2.columnIndex
  if parentHasExactUniqueKey parent.2 fk.parentColumns then
    return ⟨childPositions, parent.1, parentPositions⟩
  else none

/-- The resolutions of all foreign keys, table by table. -/
def resolutions (db : Database) : List (ℕ × List (Option Resolution)) :=
  db.tables.map fun entry => (entry.1, entry.2.foreignKeys.map (db.resolution entry.2))

/-- Every table of the catalog has the name it is found under. -/
def Named (db : Database) : Prop :=
  ∀ (name : String) (id : ℕ) (t : Table), db.catalog[name]? = some id → db.objects[id]? = some t →
    t.name = name

/-- The column of that name stays a key of its own when it is renamed: a constraint of the table is
on it alone, or it has the flag itself. -/
def OwnKey (t : Table) (oldName newName : String) : Prop :=
  (∃ constraint ∈ t.uniqueConstraints,
    renameNameList oldName newName constraint.columns = [newName]) ∨
  ∃ index ∈ t.columnIndex oldName, ∃ column ∈ t.schema[index]?,
    (column.unique || column.primaryKey) = true

instance (t : Table) (oldName newName : String) : Decidable (OwnKey t oldName newName) :=
  inferInstanceAs (Decidable (_ ∨ _))

/-- The rename loses no foreign key that has the column as a parent column: none is one of the table
itself, and the column is a key of its own for the ones that are on it alone. -/
def KeepsParents (db : Database) (id : ℕ) (t : Table) (oldName newName : String) : Prop :=
  ∀ entry ∈ db.tables, ∀ fk ∈ entry.2.foreignKeys, fk.parentTable = t.name →
    if entry.1 = id then oldName ∉ fk.parentColumns
    else fk.parentColumns = [oldName] → OwnKey t oldName newName

instance (db : Database) (id : ℕ) (t : Table) (oldName newName : String) :
    Decidable (db.KeepsParents id t oldName newName) :=
  inferInstanceAs (Decidable (∀ entry ∈ db.tables, _))

section Objects

variable {db : Database} {id : ℕ}

theorem catalog_rewriteParentColumns (parentTable oldName newName : String) :
    (db.rewriteParentColumns id parentTable oldName newName).catalog = db.catalog := by
  rw [rewriteParentColumns]
  generalize db.tables = entries
  induction entries generalizing db with
  | nil => rfl
  | cons entry entries ih =>
    rw [foldl_cons, ih]
    split_ifs <;> rfl

theorem rewriteForeignKeyParentColumn_twice (t : Table) (parentTable oldName newName : String) :
    (t.rewriteForeignKeyParentColumn parentTable oldName newName).rewriteForeignKeyParentColumn
      parentTable oldName newName =
        t.rewriteForeignKeyParentColumn parentTable oldName newName := by
  simp only [Table.rewriteForeignKeyParentColumn, map_map]
  congr 1
  refine map_congr_left fun fk _ => ?_
  rw [comp_apply]
  by_cases hparent : fk.parentTable = parentTable
  · rw [if_pos hparent, if_pos hparent]
    congr 1
    rw [renameNameList, renameNameList, map_map]
    refine map_congr_left fun name _ => ?_
    rw [comp_apply, renameName, renameName]
    split_ifs <;> rfl
  · rw [if_neg hparent, if_neg hparent]

/-- The objects after the loop over the other tables. -/
theorem objects_rewriteParentColumns (parentTable oldName newName : String) (i : ℕ) :
    (db.rewriteParentColumns id parentTable oldName newName).objects[i]? =
      if i ∈ db.tables.map Prod.fst ∧ i ≠ id then
        db.objects[i]?.map fun t => t.rewriteForeignKeyParentColumn parentTable oldName newName
      else db.objects[i]? := by
  rw [rewriteParentColumns]
  generalize db.tables = entries
  induction entries generalizing db with
  | nil => simp
  | cons entry entries ih =>
    rw [foldl_cons, ih]
    by_cases hself : entry.1 = id
    · subst hself
      simp only [if_true, map_cons, mem_cons]
      congr 1
      grind
    · rw [if_neg hself]
      simp only [map_cons, mem_cons]
      by_cases hi : entry.1 = i
      · subst hi
        rw [getElem?_modify_eq]
        cases db.objects[entry.1]? with
        | none => simp
        | some t => simp [hself, rewriteForeignKeyParentColumn_twice]
      · have hother : i ≠ entry.1 := Ne.symm hi
        simp only [getElem?_modify_ne _ _ hi, eq_false hother, false_or]

end Objects

variable {positions : List ℕ}

section Columns

variable {t : Table} {index : ℕ} {oldName newName : String} {names : List String}

theorem mapM_renameNameList (hold : t.columnIndex oldName = some index)
    (hnew : t.columnIndex newName = none) (h : names.mapM t.columnIndex = some positions) :
    (renameNameList oldName newName names).mapM
      (t.withRenamedColumn index oldName newName).columnIndex = some positions := by
  rw [mapM_eq_some] at h ⊢
  rw [renameNameList, map_map, ← h]
  refine map_congr_left fun name hname => ?_
  obtain ⟨i, -, hi⟩ := mem_map.mp (h ▸ mem_map_of_mem hname)
  exact (findColumn_modify hold hnew hi.symm).trans hi

theorem renameNameList_of_not_mem (h : oldName ∉ names) :
    renameNameList oldName newName names = names := by
  rw [renameNameList]
  refine (map_congr_left fun name hname => ?_).trans (map_id' names)
  exact if_neg fun heq : name = oldName => h (heq ▸ hname)

/-- Names that include the old one no longer stand at the same places. -/
theorem mapM_ne_of_mem (hne : oldName ≠ newName) (hold : t.columnIndex oldName = some index)
    (hmem : oldName ∈ names) (h : names.mapM t.columnIndex = some positions) :
    names.mapM (t.withRenamedColumn index oldName newName).columnIndex ≠ some positions := by
  intro h'
  rw [mapM_eq_some] at h h'
  have hsame := map_inj_left.mp (h'.trans h.symm) oldName hmem
  exact findColumn_modify_ne hne hold (hsame.trans hold)

variable {columns : List String}

/-- A key is a constraint of the table or a column with the flag. -/
theorem parentHasExactUniqueKey_eq_true :
    parentHasExactUniqueKey t columns = true ↔
      (∃ constraint ∈ t.uniqueConstraints, constraint.columns = columns) ∨
        ∃ column ∈ t.schema, (column.unique || column.primaryKey) = true ∧
          columns = [column.name] := by
  rw [parentHasExactUniqueKey, any_eq_true]
  constructor
  · rintro ⟨key, hkey, hcols⟩
    obtain rfl : key.columns = columns := of_decide_eq_true hcols
    rcases Table.mem_allUniqueConstraints hkey with hkey | hflag
    · exact Or.inl ⟨key, hkey, rfl⟩
    · exact Or.inr hflag
  · rintro (⟨key, hkey, rfl⟩ | ⟨column, hcol, hflag, rfl⟩)
    · exact ⟨key, mem_append_left _ hkey, by simp⟩
    · obtain ⟨key, hkey, hcols⟩ := Table.exists_key_of_flag hcol hflag
      exact ⟨key, hkey, by simp [hcols]⟩

theorem mem_withRenamedColumn (hold : t.columnIndex oldName = some index) {column : Column}
    (hmem : column ∈ t.schema) (hname : column.name ≠ oldName) :
    column ∈ (t.withRenamedColumn index oldName newName).schema := by
  obtain ⟨i, hi⟩ := getElem?_of_mem hmem
  obtain ⟨⟨found, hfound, hfoundName⟩, -⟩ := findColumn_eq_some.mp hold
  have hne : index ≠ i := by
    rintro rfl
    rw [hfound] at hi
    exact hname (Option.some.inj hi ▸ hfoundName)
  refine mem_of_getElem? (i := i) ?_
  rw [Table.withRenamedColumn, getElem?_modify_ne _ _ hne, hi]

/-- A key keeps being one under the names that its columns have after the rename. -/
theorem key_renameNameList (hold : t.columnIndex oldName = some index)
    (hown : columns = [oldName] → OwnKey t oldName newName)
    (h : parentHasExactUniqueKey t columns = true) :
    parentHasExactUniqueKey (t.withRenamedColumn index oldName newName)
      (renameNameList oldName newName columns) = true := by
  have hcon : ∀ constraint ∈ t.uniqueConstraints, parentHasExactUniqueKey
      (t.withRenamedColumn index oldName newName)
      (renameNameList oldName newName constraint.columns) = true := fun constraint hmem =>
    parentHasExactUniqueKey_eq_true.mpr (Or.inl ⟨_, mem_map_of_mem hmem, rfl⟩)
  rcases parentHasExactUniqueKey_eq_true.mp h with
    ⟨constraint, hmem, rfl⟩ | ⟨column, hmem, hflag, rfl⟩
  · exact hcon constraint hmem
  by_cases hname : column.name = oldName
  · have hrenamed : renameNameList oldName newName [column.name] = [newName] := by
      simp [renameNameList, renameName, hname]
    rw [hrenamed]
    rcases hown (by rw [hname]) with ⟨constraint, hmem, hcols⟩ | ⟨i, hi, found, hfound, hflag⟩
    · exact hcols ▸ hcon constraint hmem
    · obtain rfl : index = i := Option.mem_unique hold hi
      refine parentHasExactUniqueKey_eq_true.mpr
        (Or.inr ⟨{ found with name := newName }, ?_, hflag, rfl⟩)
      refine mem_of_getElem? (i := index) ?_
      rw [Table.withRenamedColumn, getElem?_modify_eq, Option.mem_def.mp hfound]
      rfl
  · rw [renameNameList_of_not_mem (by simpa using Ne.symm hname)]
    exact parentHasExactUniqueKey_eq_true.mpr
      (Or.inr ⟨column, mem_withRenamedColumn hold hmem hname, hflag, rfl⟩)

/-- A column is a key under its new name only if it is one of its own. -/
theorem ownKey_of_key (hold : t.columnIndex oldName = some index)
    (hnew : t.columnIndex newName = none)
    (h : parentHasExactUniqueKey (t.withRenamedColumn index oldName newName) [newName] = true) :
    OwnKey t oldName newName := by
  rcases parentHasExactUniqueKey_eq_true.mp h with
    ⟨constraint, hmem, hcols⟩ | ⟨column, hmem, hflag, hname⟩
  · obtain ⟨old, hold', rfl⟩ := mem_map.mp hmem
    exact Or.inl ⟨old, hold', hcols⟩
  · obtain ⟨i, hi⟩ := getElem?_of_mem hmem
    have hcol : column.name = newName := (singleton_inj.mp hname).symm
    rw [Table.withRenamedColumn] at hi
    by_cases hidx : index = i
    · subst hidx
      rw [getElem?_modify_eq] at hi
      obtain ⟨found, hfound, rfl⟩ := Option.map_eq_some_iff.mp hi
      exact Or.inr ⟨index, hold, found, hfound, hflag⟩
    · -- the new name was free
      rw [getElem?_modify_ne _ _ hidx] at hi
      exact absurd hcol (findColumn_eq_none.mp hnew column (mem_of_getElem? hi))

/-- The parent columns under their old names are kept when the renamed column is not one of them. -/
theorem parent_kept_iff (hne : oldName ≠ newName) (hold : t.columnIndex oldName = some index)
    (hnew : t.columnIndex newName = none) (hpos : columns.mapM t.columnIndex = some positions)
    (hkey : parentHasExactUniqueKey t columns = true) :
    (columns.mapM (t.withRenamedColumn index oldName newName).columnIndex = some positions ∧
      parentHasExactUniqueKey (t.withRenamedColumn index oldName newName) columns = true) ↔
    oldName ∉ columns := by
  constructor
  · rintro ⟨h, -⟩ hmem
    exact mapM_ne_of_mem hne hold hmem hpos h
  · intro hmem
    have hsame : renameNameList oldName newName columns = columns := renameNameList_of_not_mem hmem
    refine ⟨hsame ▸ mapM_renameNameList hold hnew hpos, ?_⟩
    refine hsame ▸ key_renameNameList hold (fun h => absurd ?_ hmem) hkey
    rw [h]
    exact mem_singleton_self oldName

/-- The parent columns under their new names are kept when they still are a key. -/
theorem parent_renamed_iff (hold : t.columnIndex oldName = some index)
    (hnew : t.columnIndex newName = none) (hpos : columns.mapM t.columnIndex = some positions)
    (hkey : parentHasExactUniqueKey t columns = true) :
    ((renameNameList oldName newName columns).mapM
        (t.withRenamedColumn index oldName newName).columnIndex = some positions ∧
      parentHasExactUniqueKey (t.withRenamedColumn index oldName newName)
        (renameNameList oldName newName columns) = true) ↔
    (columns = [oldName] → OwnKey t oldName newName) := by
  constructor
  · rintro ⟨-, h⟩ rfl
    have hname : renameNameList oldName newName [oldName] = [newName] := by
      simp [renameNameList, renameName]
    exact ownKey_of_key hold hnew (hname ▸ h)
  · exact fun hown => ⟨mapM_renameNameList hold hnew hpos, key_renameNameList hold hown hkey⟩

end Columns

section Rename

variable {db db' : Database} {tableName oldName newName : String} {i : ℕ}

/-- The foreign key after the rename, as a foreign key of the table `child`. -/
def renamedKey (id child : ℕ) (parentTable oldName newName : String) (fk : ForeignKeyConstraint) :
    ForeignKeyConstraint :=
  if child = id then { fk with childColumns := renameNameList oldName newName fk.childColumns }
  else if fk.parentTable = parentTable then
    { fk with parentColumns := renameNameList oldName newName fk.parentColumns }
  else fk

/-- The table object `i` after the rename. -/
def renamedTable (id : ℕ) (t' : Table) (parentTable oldName newName : String) (i : ℕ) (t : Table) :
    Table :=
  if i = id then t' else t.rewriteForeignKeyParentColumn parentTable oldName newName

/-- What a rename has done: the table has its column renamed, up to its indexes, and the other
tables their foreign keys. -/
structure RenamedIn (db db' : Database) (id : ℕ) (t t' : Table)
    (oldName newName : String) : Prop where
  catalog : db'.catalog = db.catalog
  objects : ∀ (name : String) (i : ℕ), db.catalog[name]? = some i →
    db'.objects[i]? = db.objects[i]?.map (renamedTable id t' t.name oldName newName i)

theorem onObject_eq_ok {α : Type} {id : ℕ} {x : EStateM Error Table α} {a : α} :
    onObject id x db = .ok a db' ↔ ∃ t t', db.objects[id]? = some t ∧ x t = .ok a t' ∧
      db' = db.setObject id t' := by
  rw [onObject]
  cases hget : db.objects[id]? with
  | none => simp
  | some t =>
    cases hx : x t with
    | ok b t' => simp [hx, eq_comm, and_comm]
    | error e t' => simp [hx]

theorem renameColumn_eq_ok {u : Unit} (h : renameColumn tableName oldName newName db = .ok u db') :
    ∃ id t, db.table tableName = some (id, t) ∧ (oldName = newName ∧ db' = db ∨
      ∃ index m, oldName ≠ newName ∧ t.columnIndex oldName = some index ∧
        t.columnIndex newName = none ∧ RenamedIn db db' id t
          { t.withRenamedColumn index oldName newName with indexManager := m } oldName
            newName) := by
  rw [renameColumn, get_bind] at h
  cases htable : db.table tableName with
  | none =>
    rw [htable] at h
    cases h
  | some entry =>
    obtain ⟨id, t⟩ := entry
    refine ⟨id, t, rfl, ?_⟩
    rw [htable] at h
    simp only [bind_eq_ok] at h
    obtain ⟨_, db₁, hobject, h⟩ := h
    obtain ⟨t₀, t', hget, hrename, rfl⟩ := onObject_eq_ok.mp hobject
    obtain rfl : t = t₀ := Option.mem_unique (getElem?_of_table htable) hget
    rcases Table.renameColumn_eq_ok hrename with ⟨heq, rfl⟩ | ⟨index, hne, hold, hnew, hidxs⟩
    · rw [if_neg (not_not_intro heq), pure_apply, EStateM.Result.ok.injEq] at h
      exact Or.inl ⟨heq, h.2 ▸ setObject_self hget⟩
    · rw [if_pos hne, modify_apply, EStateM.Result.ok.injEq] at h
      obtain ⟨m, rfl⟩ : Table.IndexChange (t.withRenamedColumn index oldName newName) t' :=
        forM_ok_induction (P := Table.IndexChange _) (fun _ _ _ _ _ hchange hstep =>
          hchange.trans (Table.indexChange_renameConstraintIndex hstep))
            (Table.IndexChange.refl _) hidxs
      refine Or.inr ⟨index, m, hne, hold, hnew, ?_, fun name i hi => ?_⟩
      · rw [← h.2, catalog_rewriteParentColumns, catalog_setObject]
      · rw [← h.2, objects_rewriteParentColumns, getElem?_setObject hget]
        by_cases hself : id = i
        · subst hself
          rw [if_neg (fun h => h.2 rfl), if_pos rfl, hget, Option.map_some,
            renamedTable, if_pos rfl]
        · rw [if_neg hself]
          cases hother : db.objects[i]? with
          | none => simp
          | some t₁ =>
            have hmem : i ∈ (db.setObject id { t.withRenamedColumn index oldName newName with
                indexManager := m }).tables.map Prod.fst := by
              refine mem_map.mpr ⟨(i, t₁), mem_tables.mpr ⟨⟨name, hi⟩, ?_⟩, rfl⟩
              rw [getElem?_setObject hget, if_neg hself, hother]
            rw [if_pos ⟨hmem, Ne.symm hself⟩, Option.map_some, Option.map_some, renamedTable,
              if_neg (Ne.symm hself)]

theorem tables_of_renamedIn {id : ℕ} {t t' : Table} (h : RenamedIn db db' id t t' oldName newName) :
    db'.tables = db.tables.map fun entry =>
      (entry.1, renamedTable id t' t.name oldName newName entry.1 entry.2) := by
  rw [tables, tables, map_filterMap, h.catalog]
  refine filterMap_congr fun entry hentry => ?_
  rw [h.objects entry.1 entry.2 (Std.ExtTreeMap.mem_toList_iff_getElem?_eq_some.mp hentry),
    Option.map_map, Option.map_map]
  rfl

theorem table_of_renamedIn {id : ℕ} {t t' : Table} (h : RenamedIn db db' id t t' oldName newName)
    {name : String} {t₁ : Table} (htable : db.table name = some (i, t₁)) :
    db'.table name = some (i, renamedTable id t' t.name oldName newName i t₁) := by
  obtain ⟨hname, hget⟩ := table_eq_some.mp htable
  refine table_eq_some.mpr ⟨h.catalog ▸ hname, ?_⟩
  rw [h.objects name i hname, hget, Option.map_some]

variable {child : Table} {fk : ForeignKeyConstraint} {childPositions parentPositions : List ℕ}

theorem resolution_eq_some {parentId : ℕ} :
    db.resolution child fk = some ⟨childPositions, parentId, parentPositions⟩ ↔
      fk.childColumns.mapM child.columnIndex = some childPositions ∧
      ∃ parent, db.table fk.parentTable = some (parentId, parent) ∧
        fk.parentColumns.mapM parent.columnIndex = some parentPositions ∧
        parentHasExactUniqueKey parent fk.parentColumns = true := by
  simp only [resolution, bind, Option.bind_eq_some_iff, Prod.exists]
  constructor
  · rintro ⟨positions, hchild, i, parent, htable, positions', hparent, h⟩
    split_ifs at h with hkey
    obtain ⟨rfl, rfl, rfl⟩ : positions = childPositions ∧ i = parentId ∧
        positions' = parentPositions := by simpa using Option.some.inj h
    exact ⟨hchild, parent, htable, hparent, hkey⟩
  · rintro ⟨hchild, parent, htable, hparent, hkey⟩
    exact ⟨childPositions, hchild, parentId, parent, htable, parentPositions, hparent, by
      rw [if_pos hkey]
      rfl⟩

/-- With the child columns and the parent table known, the parent columns decide. -/
theorem resolution_iff_of_parent {parent : Table} {parentId : ℕ}
    (hchild : fk.childColumns.mapM child.columnIndex = some childPositions)
    (hparent : db.table fk.parentTable = some (parentId, parent)) :
    db.resolution child fk = some ⟨childPositions, parentId, parentPositions⟩ ↔
      fk.parentColumns.mapM parent.columnIndex = some parentPositions ∧
        parentHasExactUniqueKey parent fk.parentColumns = true := by
  rw [resolution_eq_some]
  constructor
  · rintro ⟨-, parent', hparent', h⟩
    obtain rfl : parent = parent' := by
      rw [hparent] at hparent'
      exact (Prod.mk.inj (Option.some.inj hparent')).2
    exact h
  · exact fun h => ⟨hchild, parent, hparent, h⟩

variable {id index : ℕ} {t : Table} {m : IndexManager}

/-- The renamed table is the one that has its name. -/
theorem eq_id_iff (hdb : db.Named) (htable : db.table tableName = some (id, t)) {name : String}
    {t₁ : Table} (h : db.table name = some (i, t₁)) : i = id ↔ name = t.name := by
  obtain ⟨hname, hget⟩ := table_eq_some.mp h
  obtain ⟨hname', hget'⟩ := table_eq_some.mp htable
  constructor
  · rintro rfl
    rw [hget] at hget'
    rw [← Option.some.inj hget']
    exact (hdb name i t₁ hname hget).symm
  · intro heq
    rw [heq, hdb _ _ _ hname' hget', hname'] at hname
    exact (Option.some.inj hname).symm

theorem child_renamed (htable : db.table tableName = some (id, t))
    (hold : t.columnIndex oldName = some index) (hnew : t.columnIndex newName = none)
    (hchild : (i, child) ∈ db.tables)
    (h : fk.childColumns.mapM child.columnIndex = some positions) :
    (renamedKey id i t.name oldName newName fk).childColumns.mapM (renamedTable id
      { t.withRenamedColumn index oldName newName with indexManager := m } t.name oldName newName i
      child).columnIndex = some positions := by
  rw [renamedKey, renamedTable]
  by_cases hself : i = id
  · subst hself
    rw [if_pos rfl, if_pos rfl]
    obtain rfl : t = child :=
      Option.some.inj ((getElem?_of_table htable).symm.trans (mem_tables.mp hchild).2)
    exact mapM_renameNameList hold hnew h
  · rw [if_neg hself, if_neg hself]
    split_ifs <;> exact h

/-- One foreign key before and after the rename. -/
theorem resolution_renamed_iff (hdb : db.Named) (htable : db.table tableName = some (id, t))
    (hne : oldName ≠ newName) (hold : t.columnIndex oldName = some index)
    (hnew : t.columnIndex newName = none) (hrenamed : RenamedIn db db' id t
      { t.withRenamedColumn index oldName newName with indexManager := m } oldName newName)
    (hchild : (i, child) ∈ db.tables) {parentId : ℕ}
    (hfk : db.resolution child fk = some ⟨childPositions, parentId, parentPositions⟩) :
    db'.resolution
      (renamedTable id { t.withRenamedColumn index oldName newName with indexManager := m }
        t.name oldName newName i child) (renamedKey id i t.name oldName newName fk) =
      some ⟨childPositions, parentId, parentPositions⟩ ↔
    (fk.parentTable = t.name → if i = id then oldName ∉ fk.parentColumns
      else fk.parentColumns = [oldName] → OwnKey t oldName newName) := by
  obtain ⟨hpos, parent, hparent, hparentPositions, hkey⟩ := resolution_eq_some.mp hfk
  have hname : (renamedKey id i t.name oldName newName fk).parentTable = fk.parentTable := by
    rw [renamedKey]
    split_ifs <;> rfl
  rw [resolution_iff_of_parent (child_renamed htable hold hnew hchild hpos)
    (hname ▸ table_of_renamedIn hrenamed hparent)]
  by_cases hself : fk.parentTable = t.name
  · obtain rfl := (eq_id_iff hdb htable hparent).mpr hself
    obtain rfl : t = parent :=
      Option.some.inj ((getElem?_of_table htable).symm.trans (getElem?_of_table hparent))
    rw [renamedTable, if_pos rfl, renamedKey, if_pos hself, imp_iff_right hself]
    by_cases hi : i = parentId
    · rw [if_pos hi, if_pos hi]
      exact parent_kept_iff hne hold hnew hparentPositions hkey
    · rw [if_neg hi, if_neg hi]
      exact parent_renamed_iff hold hnew hparentPositions hkey
  · have hother : parentId ≠ id := fun h => hself ((eq_id_iff hdb htable hparent).mp h)
    have hcols : (renamedKey id i t.name oldName newName fk).parentColumns = fk.parentColumns := by
      rw [renamedKey, if_neg hself]
      split_ifs <;> rfl
    rw [hcols, renamedTable, if_neg hother]
    exact iff_of_true ⟨hparentPositions, hkey⟩ fun h => absurd h hself

theorem foreignKeys_renamedTable (htable : db.table tableName = some (id, t))
    (hchild : (i, child) ∈ db.tables) :
    (renamedTable id { t.withRenamedColumn index oldName newName with indexManager := m } t.name
      oldName newName i child).foreignKeys =
      child.foreignKeys.map (renamedKey id i t.name oldName newName) := by
  rw [renamedTable]
  by_cases hself : i = id
  · subst hself
    obtain rfl : t = child :=
      Option.some.inj ((getElem?_of_table htable).symm.trans (mem_tables.mp hchild).2)
    rw [if_pos rfl]
    refine map_congr_left fun fk _ => ?_
    rw [renamedKey, if_pos rfl]
  · rw [if_neg hself]
    refine map_congr_left fun fk _ => ?_
    rw [renamedKey, if_neg hself]

end Rename

/-- In a database whose foreign keys all resolve, a rename that returns leaves them what they stood
for exactly when it loses none of them. -/
theorem resolutions_renameColumn_iff {db db' : Database} {tableName oldName newName : String}
    {u : Unit} (hdb : db.Named) (hresolve : ∀ entry ∈ db.resolutions, ∀ r ∈ entry.2, r.isSome)
    {id : ℕ} {t : Table} (htable : db.table tableName = some (id, t))
    (hrun : renameColumn tableName oldName newName db = .ok u db') :
    db'.resolutions = db.resolutions ↔
      oldName = newName ∨ db.KeepsParents id t oldName newName := by
  obtain ⟨id', t', htable', h⟩ := renameColumn_eq_ok hrun
  obtain ⟨rfl, rfl⟩ := Prod.mk.inj (Option.mem_unique htable htable')
  rcases h with ⟨heq, rfl⟩ | ⟨index, m, hne, hold, hnew, hrenamed⟩
  · exact iff_of_true rfl (Or.inl heq)
  rw [or_iff_right hne, resolutions, resolutions, tables_of_renamedIn hrenamed, map_map,
    map_inj_left, KeepsParents]
  refine forall_congr' fun entry => forall_congr' fun hentry => ?_
  rw [comp_apply, Prod.mk.injEq, and_iff_right rfl,
    foreignKeys_renamedTable htable hentry, map_map, map_inj_left]
  refine forall_congr' fun fk => forall_congr' fun hfk => ?_
  have hsome := hresolve _ (mem_map_of_mem hentry) _ (mem_map_of_mem hfk)
  obtain ⟨⟨childPositions, parentId, parentPositions⟩, hres⟩ := Option.isSome_iff_exists.mp hsome
  rw [comp_apply, hres]
  exact resolution_renamed_iff hdb htable hne hold hnew hrenamed hentry hres

/-- A table with a key `id` and a column `parent` that references the key of the table
`parentTable`. -/
def referencingTable (name parentTable : String) : Table where
  name := name
  schema := [{ name := "id", type := .int, unique := true },
    { name := "parent", type := .int, nullable := true }]
  foreignKeys :=
    [{ childColumns := ["parent"], parentTable := parentTable, parentColumns := ["id"] }]

/-- Two tables: `c` references `t`, and `t` references the table given. -/
def referencingDatabase (parentTable : String) : Database where
  objects := [referencingTable "t" parentTable, referencingTable "c" "t"]
  catalog := Std.ExtTreeMap.insert (Std.ExtTreeMap.insert ∅ "t" 0) "c" 1

theorem named_referencingDatabase (parentTable : String) :
    (referencingDatabase parentTable).Named := by
  intro name id t hname ht
  simp only [referencingDatabase, Std.ExtTreeMap.getElem?_insert,
    Std.ExtTreeMap.getElem?_empty] at hname
  split_ifs at hname with hc hp
  · obtain rfl := Option.some.inj hname
    obtain rfl := Option.some.inj ht
    exact (Std.LawfulEqCmp.compare_eq_iff_eq.mp hc)
  · obtain rfl := Option.some.inj hname
    obtain rfl := Option.some.inj ht
    exact (Std.LawfulEqCmp.compare_eq_iff_eq.mp hp)

/-- The references of the other tables follow the rename. -/
theorem resolutions_renameColumn_other : ∃ db',
    renameColumn "t" "id" "key" (referencingDatabase "c") =
      .ok ⟨⟩ db' ∧ db'.resolutions = (referencingDatabase "c").resolutions := by
  have hruns : Returns (renameColumn "t" "id" "key") (referencingDatabase "c") fun _ _ => True := by
    decide
  obtain ⟨_, db', hrun, -⟩ := hruns
  have htable : (referencingDatabase "c").table "t" = some (0, referencingTable "t" "c") :=
    table_eq_some.mpr ⟨by decide, rfl⟩
  refine ⟨db', hrun,
    (resolutions_renameColumn_iff (named_referencingDatabase "c") (by decide) htable
    hrun).mpr (Or.inr (by decide))⟩

/-- The reference of a table to itself keeps the old name. -/
theorem resolutions_renameColumn_self :
    (referencingDatabase "t").Named ∧
    (∀ entry ∈ (referencingDatabase "t").resolutions, ∀ r ∈ entry.2, r.isSome) ∧
    (referencingDatabase "t").resolutions = [(1, [some ⟨[1], 0, [0]⟩]), (0, [some ⟨[1], 0, [0]⟩])] ∧
    Returns (renameColumn "t" "id" "key") (referencingDatabase "t") fun _ db' =>
      db'.resolutions = [(1, [some ⟨[1], 0, [0]⟩]), (0, [none])] :=
  ⟨named_referencingDatabase "t", by decide, by decide, by decide⟩

end Database

end VertexDB
