import VertexDB.Storage.Database

/-!
# Foreign keys

The checks of `src/execution/foreign_key_eval.cpp`: the key of a row in the columns of a constraint,
whether a parent row with a key is visible, and which child rows reference a parent row. The row ids
these checks read are recorded in the conflict sets of the reading transaction; no other transaction
runs beside it, and the model leaves these records out. Below them are the checks of CREATE TABLE on
the definitions of its foreign keys.
-/

namespace VertexDB

/-- `foreignKeyColumnsLabel`. -/
def foreignKeyColumnsLabel (columns : List String) : String := ", ".intercalate columns

/-- `keyFromRow`. -/
def keyFromRow (t : Table) (row : Row) (columns : List String) : Option Value :=
  (columns.mapM t.columnIndex).map fun indexes =>
    match indexes.map row.at with
    | [part] => part
    | parts => .composite parts

/-- `keyHasNullPart`. -/
def keyHasNullPart : Value → Bool
  | .null => true
  | .composite parts => parts.any Value.isNull
  | _ => false

/-- `rowMatchesKey`. -/
def rowMatchesKey (t : Table) (row : Row) (columns : List String) (key : Value) : Bool :=
  match keyFromRow t row columns with
  | some actual => actual.beq key
  | none => false

section Visibility

variable (snapshot : ReadSnapshot) (transactions : TransactionManager)

/-- `parentKeyVisible`. -/
def parentKeyVisible (parent : Table) (parentColumns : List String) (value : Value) : Bool :=
  match parent.indexedLookup parentColumns value with
  | some (hit :: hits) =>
    !(parent.versions.visibleEntriesById (hit :: hits) snapshot transactions).isEmpty
  | _ =>
    (parent.visibleEntries snapshot transactions).any fun entry =>
      rowMatchesKey parent entry.2 parentColumns value

/-- `visibleChildrenForKey`. -/
def visibleChildrenForKey (child : Table) (childColumns : List String) (key : Value) :
    List (ℕ × Row) :=
  match child.indexedLookup childColumns key with
  | some hits => child.versions.visibleEntriesById hits snapshot transactions
  | none =>
    (child.visibleEntries snapshot transactions).filter fun entry =>
      rowMatchesKey child entry.2 childColumns key && !keyHasNullPart key

/-- The check of one constraint in `assertForeignKeysOnChildRow`. -/
def assertForeignKey (db : Database) (child : Table) (row : Row) (fk : ForeignKeyConstraint) :
    Except Error Unit :=
  match keyFromRow child row fk.childColumns with
  | none =>
    throw (.invalidArgument
      ("FOREIGN KEY child column not found: " ++ foreignKeyColumnsLabel fk.childColumns))
  | some key =>
    -- a NULL part switches the check off
    if keyHasNullPart key then pure ()
    else
      match db.table fk.parentTable with
      | none => throw (.invalidArgument ("FOREIGN KEY parent table not found: " ++ fk.parentTable))
      | some (_, parent) =>
        if parentKeyVisible snapshot transactions parent fk.parentColumns key then pure ()
        else
          throw (.invalidArgument ("FOREIGN KEY constraint violation on column " ++
            foreignKeyColumnsLabel fk.childColumns))

/-- `assertForeignKeysOnChildRow`. -/
def assertForeignKeysOnChildRow (db : Database) (child : Table) (row : Row) : Except Error Unit :=
  child.foreignKeys.forM (assertForeignKey snapshot transactions db child row)

end Visibility

/-- `ForeignKeyChildHit`; the table is given by its object and the name it has in the catalog. -/
structure ForeignKeyChildHit where
  table : ℕ
  tableName : String
  fk : ForeignKeyConstraint
  rowId : ℕ
  row : Row

/-- The old key of the parent row when the constraint is affected: the row is deleted, or the update
changes a column of the key and the key with it. -/
def affectedKey (parent : Table) (parentRow : Row) (updating : Option (ℕ × Value))
    (fk : ForeignKeyConstraint) : Option Value :=
  if fk.parentTable ≠ parent.name then none
  else
    match keyFromRow parent parentRow fk.parentColumns with
    | none => none
    | some oldKey =>
      if keyHasNullPart oldKey then none
      else
        match updating with
        | none => some oldKey
        | some (column, newValue) =>
          match parent.schema[column]? with
          | none => none
          | some updated =>
            if updated.name ∉ fk.parentColumns then none
            else
              match keyFromRow parent (parentRow.set column newValue) fk.parentColumns with
              | some newKey => if newKey.beq oldKey then none else some oldKey
              | none => some oldKey

/-- `collectReferencingChildren`. -/
def collectReferencingChildren (snapshot : ReadSnapshot) (transactions : TransactionManager)
    (db : Database) (parent : Table) (parentRow : Row) (updating : Option (ℕ × Value)) :
    List ForeignKeyChildHit :=
  db.tables.flatMap fun child =>
    child.2.foreignKeys.flatMap fun fk =>
      match affectedKey parent parentRow updating fk with
      | none => []
      | some oldKey =>
        (visibleChildrenForKey snapshot transactions child.2 fk.childColumns oldKey).map
          fun entry =>
            { table := child.1, tableName := child.2.name, fk, rowId := entry.1, row := entry.2 }

/-- `assertNoActionParentKeyNotReferenced`. -/
def assertNoActionParentKeyNotReferenced (refs : List ForeignKeyChildHit) (forUpdate : Bool) :
    Except Error Unit :=
  if refs.any fun hit => (if forUpdate then hit.fk.onUpdate else hit.fk.onDelete) = .noAction then
    throw (.invalidArgument "FOREIGN KEY constraint violation: key is still referenced")
  else pure ()

theorem mem_collectReferencingChildren {snapshot : ReadSnapshot} {transactions : TransactionManager}
    {db : Database} {parent : Table} {parentRow : Row} {updating : Option (ℕ × Value)}
    {hit : ForeignKeyChildHit} :
    hit ∈ collectReferencingChildren snapshot transactions db parent parentRow updating ↔
      ∃ child oldKey, (hit.table, child) ∈ db.tables ∧ hit.tableName = child.name ∧
        hit.fk ∈ child.foreignKeys ∧ affectedKey parent parentRow updating hit.fk = some oldKey ∧
        (hit.rowId, hit.row) ∈
          visibleChildrenForKey snapshot transactions child hit.fk.childColumns oldKey := by
  simp only [collectReferencingChildren, List.mem_flatMap, Prod.exists]
  constructor
  · rintro ⟨id, child, hchild, fk, hfk, hmem⟩
    cases hkey : affectedKey parent parentRow updating fk with
    | none => simp [hkey] at hmem
    | some oldKey =>
      simp only [hkey, List.mem_map, Prod.exists] at hmem
      obtain ⟨r, row, hrow, rfl⟩ := hmem
      exact ⟨child, oldKey, hchild, rfl, hfk, hkey, hrow⟩
  · rintro ⟨child, oldKey, hchild, hname, hfk, hkey, hrow⟩
    refine ⟨hit.table, child, hchild, hit.fk, hfk, ?_⟩
    simp only [hkey, List.mem_map, Prod.exists]
    exact ⟨hit.rowId, hit.row, hrow, by rw [← hname]⟩

section Definitions

/-- `uniqueConstraintsFromSchema`. -/
def uniqueConstraintsFromSchema (schema : List Column) (tableLevel : List UniqueConstraint) :
    List UniqueConstraint :=
  schema.foldl (fun constraints column =>
    if (column.unique || column.primaryKey) &&
        !constraints.any fun constraint => constraint.columns = [column.name] then
      constraints ++ [{ columns := [column.name], primaryKey := column.primaryKey }]
    else constraints) tableLevel

/-- The loop of `validateForeignKeyDefinitions` over the pairs of a child and a parent column. -/
def validateForeignKeyColumns (childSchema parentSchema : List Column) (parentTable : String) :
    List (String × String) → Except Error Unit
  | [] => pure ()
  | (childName, parentName) :: columns =>
    match childSchema.find? fun column => column.name = childName with
    | none => throw (.invalidArgument ("FOREIGN KEY child column not found: " ++ childName))
    | some childCol =>
      match parentSchema.find? fun column => column.name = parentName with
      | none => throw (.invalidArgument ("FOREIGN KEY parent column not found: " ++ parentName))
      | some parentCol =>
        if parentCol.type ≠ childCol.type then
          throw (.invalidArgument ("FOREIGN KEY column type mismatch: " ++ childName ++ " vs " ++
            parentTable ++ "." ++ parentName))
        else validateForeignKeyColumns childSchema parentSchema parentTable columns

/-- The loop of `validateForeignKeyDefinitions` over the columns that a referential action sets to
NULL. -/
def validateSetNullColumns (childSchema : List Column) : List String → Except Error Unit
  | [] => pure ()
  | childName :: columns =>
    if (childSchema.find? fun column => column.name = childName).any (·.nullable) then
      validateSetNullColumns childSchema columns
    else
      throw (.invalidArgument
        ("FOREIGN KEY SET NULL requires nullable child column: " ++ childName))

/-- The columns and the UNIQUE constraints of the table that a constraint refers to. A table that is
being created is not in the catalog yet. -/
def foreignKeyParent (db : Database) (childTableName : String) (creatingSchema : List Column)
    (creatingUniques : List UniqueConstraint) (fk : ForeignKeyConstraint) :
    Except Error (List Column × List UniqueConstraint) :=
  if fk.parentTable = childTableName ∧ creatingSchema ≠ [] then
    pure (creatingSchema, uniqueConstraintsFromSchema creatingSchema creatingUniques)
  else
    match db.table fk.parentTable with
    | none => throw (.invalidArgument ("FOREIGN KEY parent table not found: " ++ fk.parentTable))
    | some (_, parent) => pure (parent.schema, parent.allUniqueConstraints)

/-- The checks of `validateForeignKeyDefinitions` on a constraint and the table it refers to. Every
value of the enumeration is a supported action. -/
def validateForeignKeyAgainst (childSchema : List Column) (fk : ForeignKeyConstraint)
    (parent : List Column × List UniqueConstraint) : Except Error Unit := do
  validateForeignKeyColumns childSchema parent.1 fk.parentTable
    (fk.childColumns.zip fk.parentColumns)
  if parent.2.any fun constraint => constraint.columns = fk.parentColumns then
    if fk.onDelete = .setNull ∨ fk.onUpdate = .setNull then
      validateSetNullColumns childSchema fk.childColumns
    else pure ()
  else
    throw (.invalidArgument ("FOREIGN KEY parent columns must be PRIMARY KEY or UNIQUE: " ++
      fk.parentTable ++ "(" ++ foreignKeyColumnsLabel fk.parentColumns ++ ")"))

/-- The round of `validateForeignKeyDefinitions` for one constraint. -/
def validateForeignKeyDefinition (db : Database) (childTableName : String)
    (childSchema creatingSchema : List Column) (creatingUniques : List UniqueConstraint)
    (fk : ForeignKeyConstraint) : Except Error Unit :=
  if fk.childColumns = [] ∨ fk.parentColumns = [] then
    throw (.invalidArgument "FOREIGN KEY requires at least one column")
  else if fk.childColumns.length ≠ fk.parentColumns.length then
    throw (.invalidArgument "FOREIGN KEY child/parent column count mismatch")
  else do
    let parent ← foreignKeyParent db childTableName creatingSchema creatingUniques fk
    validateForeignKeyAgainst childSchema fk parent

/-- `validateForeignKeyDefinitions`. -/
def validateForeignKeyDefinitions (db : Database) (childTableName : String)
    (childSchema : List Column) (foreignKeys : List ForeignKeyConstraint)
    (creatingSchema : List Column) (creatingUniques : List UniqueConstraint) : Except Error Unit :=
  foreignKeys.forM
    (validateForeignKeyDefinition db childTableName childSchema creatingSchema creatingUniques)

theorem validateSetNullColumns_eq_ok {childSchema : List Column} {columns : List String} :
    validateSetNullColumns childSchema columns = .ok () ↔ ∀ childName ∈ columns, ∃ column,
      childSchema.find? (fun column => column.name = childName) = some column ∧
        column.nullable = true := by
  induction columns with
  | nil => simp [validateSetNullColumns, pure, Except.pure]
  | cons childName columns ih =>
    rw [validateSetNullColumns, List.forall_mem_cons, ← ih]
    cases childSchema.find? fun column => column.name = childName with
    | none => simp
    | some column => cases hnullable : column.nullable <;>
        simp [hnullable]

/-- A key that was accepted refers to a UNIQUE key of a table, and its columns can be set to NULL
when they have to be. -/
theorem of_validateForeignKeyDefinitions {db : Database} {childTableName : String}
    {childSchema : List Column} {foreignKeys : List ForeignKeyConstraint}
    (h : validateForeignKeyDefinitions db childTableName childSchema foreignKeys [] [] = .ok ())
    {fk : ForeignKeyConstraint} (hfk : fk ∈ foreignKeys) :
    fk.childColumns ≠ [] ∧ (∃ id parent, db.table fk.parentTable = some (id, parent) ∧
        ∃ constraint ∈ parent.allUniqueConstraints, constraint.columns = fk.parentColumns) ∧
      (fk.onDelete = .setNull → ∀ childName ∈ fk.childColumns, ∃ column,
        childSchema.find? (fun column => column.name = childName) = some column ∧
          column.nullable = true) := by
  have hone := Exec.forM_except_eq_ok.mp h fk hfk
  rw [validateForeignKeyDefinition] at hone
  split_ifs at hone with hempty
  rw [foreignKeyParent, if_neg (by simp)] at hone
  cases hparent : db.table fk.parentTable with
  | none => simp [hparent] at hone
  | some entry =>
    obtain ⟨id, parent⟩ := entry
    rw [hparent] at hone
    have hagainst : validateForeignKeyAgainst childSchema fk
      (parent.schema, parent.allUniqueConstraints) = .ok () := hone
    rw [validateForeignKeyAgainst] at hagainst
    cases hcols : validateForeignKeyColumns childSchema parent.schema fk.parentTable
        (fk.childColumns.zip fk.parentColumns) with
    | error e => simp [hcols] at hagainst
    | ok u =>
      simp only [hcols, bind, Except.bind] at hagainst
      split_ifs at hagainst with hunique hnull
      · exact ⟨fun hnil => hempty (Or.inl hnil), ⟨id, parent, rfl, by simpa using hunique⟩,
          fun _ => validateSetNullColumns_eq_ok.mp hagainst⟩
      · exact ⟨fun hnil => hempty (Or.inl hnil), ⟨id, parent, rfl, by simpa using hunique⟩,
          fun hdelete => absurd (Or.inl hdelete) hnull⟩

end Definitions

end VertexDB
