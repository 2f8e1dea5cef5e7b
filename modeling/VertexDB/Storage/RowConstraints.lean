import VertexDB.Storage.IndexedTable
import Mathlib.Logic.Relation

/-!
# The constraints of a table through a change of its schema

ALTER TABLE rewrites the rows of a table together with its schema, the trees of its CHECK
constraints and the column lists of its keys. The rows stay acceptable because every constraint of
the changed table reads, in a changed row, what one of the constraints before read in the row
before. This file states that relation between two tables and proves it for each change.
-/

namespace VertexDB

open IndexManager List

variable {truth : TriBool} {check : CheckPredicate}

section Checks

variable {row row' : Row} {lookup lookup' : String → Option ℕ}

/-- What the name denotes in the row, `name'` denotes in the other row. -/
def SameCell (row row' : Row) (lookup lookup' : String → Option ℕ) (name name' : String) : Prop :=
  ∀ i, lookup name = some i → ∃ j, lookup' name' = some j ∧ row'.at j = row.at i

theorem renameName_self (name other : String) : renameName name name other = other := by
  rw [renameName]
  split_ifs with h
  · exact h.symm
  · rfl

theorem renameNameList_self (name : String) (names : List String) :
    renameNameList name name names = names := by
  rw [renameNameList, funext (renameName_self name), map_id']

theorem renameCheckColumn_self (name : String) (check : CheckPredicate) :
    renameCheckColumn name name check = check := by
  induction check with
  | and left right ihl ihr => rw [renameCheckColumn, ihl, ihr]
  | or left right ihl ihr => rw [renameCheckColumn, ihl, ihr]
  | comparison node =>
    rw [renameCheckColumn, renameName_self, funext (renameName_self name), Option.map_id']
  | _ => simp only [renameCheckColumn, renameName_self]

theorem evalCheckComparison_rename (oldName newName : String) {node : ComparisonPred}
    (h : ∀ name ∈ node.column :: node.rhsColumn.toList,
      SameCell row row' lookup lookup' name (renameName oldName newName name))
    (hok : evalCheckComparison node row lookup = .ok truth) :
    evalCheckComparison { node with
      column := renameName oldName newName node.column
      rhsColumn := node.rhsColumn.map (renameName oldName newName) } row' lookup' = .ok truth := by
  obtain ⟨hleft, hright⟩ := forall_mem_cons.mp h
  unfold evalCheckComparison at hok ⊢
  cases hexpr : node.expression with
  | some e => simp [hexpr] at hok
  | none =>
    rw [hexpr] at hok
    rcases hlookup : lookup node.column with _ | i
    · simp [hlookup] at hok
    obtain ⟨j, hj, hvalue⟩ := hleft i hlookup
    cases hcol : node.rhsColumn with
    | none => simpa [hlookup, hj, hvalue, hcol] using hok
    | some rhsColumn =>
      rw [hcol] at hright
      have hcell := hright rhsColumn (by simp)
      rcases hlookup' : lookup rhsColumn with _ | i'
      · by_cases hnull : (row.at i).isNull = true
        · simpa [hlookup, hlookup', hj, hvalue, hcol, hnull] using hok
        · simp [hlookup, hlookup', hcol, hnull] at hok
      · obtain ⟨j', hj', hvalue'⟩ := hcell i' hlookup'
        simpa [hlookup, hlookup', hj, hj', hvalue, hvalue', hcol] using hok

/-- What AND and OR of CHECK predicates have in common: `stop` by the left side, or by both. -/
def shortCircuit (stop go : TriBool) (left right : Except Error TriBool) :
    Except Error TriBool := do
  let l ← left
  if l = stop then return stop
  let r ← right
  if r = stop then return stop
  return if l = go ∧ r = go then go else .unknown

theorem shortCircuit_eq_ok_of {stop go : TriBool} {left left' right right' : Except Error TriBool}
    (hleft : ∀ l, left = .ok l → left' = .ok l) (hright : ∀ r, right = .ok r → right' = .ok r)
    (h : shortCircuit stop go left right = .ok truth) :
    shortCircuit stop go left' right' = .ok truth := by
  rcases left with e | l
  · cases h
  rw [hleft l rfl]
  simp only [shortCircuit, bind, Except.bind] at h ⊢
  split_ifs at h ⊢
  · exact h
  rcases right with e | r
  · cases h
  · rwa [hright r rfl]

/-- A CHECK that was evaluated has the same truth value over columns that hold the same. -/
theorem evalCheckTri_renameCheckColumn (oldName newName : String)
    (h : ∀ name ∈ collectCheckColumns check,
      SameCell row row' lookup lookup' name (renameName oldName newName name))
    (hok : evalCheckTri row lookup check = .ok truth) :
    evalCheckTri row' lookup' (renameCheckColumn oldName newName check) = .ok truth := by
  induction check generalizing truth with
  | and left right ihl ihr | or left right ihl ihr =>
    rw [collectCheckColumns, forall_mem_append] at h
    exact shortCircuit_eq_ok_of (fun _ => ihl h.1) (fun _ => ihr h.2) hok
  | comparison node =>
    rw [collectCheckColumns] at h
    exact evalCheckComparison_rename oldName newName h hok
  | _ => cases hok

theorem enforceChecks_eq_ok {checks : List CheckPredicate} :
    Table.enforceChecks row lookup checks = .ok () ↔
      ∀ check ∈ checks, ∃ truth, evalCheckTri row lookup check = .ok truth ∧ truth ≠ .false := by
  induction checks with
  | nil => simp [Table.enforceChecks, pure, Except.pure]
  | cons check checks ih =>
    rw [Table.enforceChecks, forall_mem_cons, ← ih, evalCheckPredicate]
    rcases evalCheckTri row lookup check with e | truth
    · simp
    · cases truth <;> simp [pure, Except.pure]

end Checks

namespace Table

variable {t t' t'' : Table} {R R' : Row → Row → Prop}

/-- In the rows `row'` that come of rows `row`, the column `name'` holds what `name` held. -/
def ColumnKept (t t' : Table) (R : Row → Row → Prop) (name name' : String) : Prop :=
  ∀ i, t.columnIndex name = some i → ∃ j, t'.columnIndex name' = some j ∧
    ∀ row row', R row row' → row'.at j = row.at i

/-- Every constraint of `t'` reads in the rows `row'` what one of `t` read in the rows `row`. -/
structure Carries (t t' : Table) (R : Row → Row → Prop) : Prop where
  checks : ∀ check' ∈ t'.checkConstraints, ∃ check ∈ t.checkConstraints, ∀ row row', R row row' →
    ∀ truth, evalCheckTri row t.columnIndex check = .ok truth →
      evalCheckTri row' t'.columnIndex check' = .ok truth
  keys : ∀ key' ∈ t'.allUniqueConstraints, ∃ key ∈ t.allUniqueConstraints, ∀ indexes,
    t.Resolves key indexes → ∃ indexes', t'.Resolves key' indexes' ∧ ∀ row row', R row row' →
      indexes'.map row'.at = indexes.map row.at

section Carries

theorem Carries.mono (h : Carries t t' R) (hR : ∀ row row', R' row row' → R row row') :
    Carries t t' R' where
  checks check' hcheck' := by
    obtain ⟨check, hcheck, htruth⟩ := h.checks check' hcheck'
    exact ⟨check, hcheck, fun row row' hrow => htruth row row' (hR row row' hrow)⟩
  keys key' hkey' := by
    obtain ⟨key, hkey, hresolves⟩ := h.keys key' hkey'
    refine ⟨key, hkey, fun indexes hidxs => ?_⟩
    obtain ⟨indexes', hidxs', hat⟩ := hresolves indexes hidxs
    exact ⟨indexes', hidxs', fun row row' hrow => hat row row' (hR row row' hrow)⟩

theorem Carries.trans (h : Carries t t' R) (h' : Carries t' t'' R') :
    Carries t t'' (Relation.Comp R R') where
  checks check'' hcheck'' := by
    obtain ⟨check', hcheck', htruth'⟩ := h'.checks check'' hcheck''
    obtain ⟨check, hcheck, htruth⟩ := h.checks check' hcheck'
    refine ⟨check, hcheck, ?_⟩
    rintro row row'' ⟨row', hrow, hrow'⟩ truth hok
    exact htruth' row' row'' hrow' truth (htruth row row' hrow truth hok)
  keys key'' hkey'' := by
    obtain ⟨key', hkey', hresolves'⟩ := h'.keys key'' hkey''
    obtain ⟨key, hkey, hresolves⟩ := h.keys key' hkey'
    refine ⟨key, hkey, fun indexes hidxs => ?_⟩
    obtain ⟨indexes', hidxs', hat⟩ := hresolves indexes hidxs
    obtain ⟨indexes'', hidxs'', hat'⟩ := hresolves' indexes' hidxs'
    refine ⟨indexes'', hidxs'', ?_⟩
    rintro row row'' ⟨row', hrow, hrow'⟩
    rw [hat' row' row'' hrow', hat row row' hrow]

theorem Carries.of_eq (hschema : t'.schema = t.schema)
    (hchecks : t'.checkConstraints = t.checkConstraints)
    (huniques : t'.uniqueConstraints = t.uniqueConstraints) : Carries t t' Eq where
  checks check hcheck := by
    have hlookup : t'.columnIndex = t.columnIndex := funext fun name => by
      rw [columnIndex, hschema, columnIndex]
    refine ⟨check, hchecks ▸ hcheck, ?_⟩
    rintro row _ rfl truth hok
    rwa [hlookup]
  keys key hkey := by
    have hlookup : t'.columnIndex = t.columnIndex := funext fun name => by
      rw [columnIndex, hschema, columnIndex]
    rw [allUniqueConstraints, hschema, huniques, ← allUniqueConstraints] at hkey
    refine ⟨key, hkey, fun indexes hidxs => ⟨indexes, ⟨hidxs.1, hlookup ▸ hidxs.2⟩, ?_⟩⟩
    rintro row _ rfl
    rfl

/-- The rows of a table whose constraints are carried over are still accepted. -/
theorem AllAccepted.carry {rows rows' : ℕ → Option Row} (h : t.AllAccepted rows)
    (hcarries : Carries t t' R)
    (hrows : ∀ i row', rows' i = some row' → ∃ row, rows i = some row ∧ R row row' ∧
      row'.length = t'.schema.length ∧ ∀ (j : ℕ) value column, row'[j]? = some value →
        t'.schema[j]? = some column → CellOk value column) : t'.AllAccepted rows' := by
  intro r row' hr'
  obtain ⟨row, hr, hrow, hlen, hcells⟩ := hrows r row' hr'
  have hold := h r row hr
  have hvalid : t'.validateRow row' = .ok () := by
    refine validateRow_eq_ok.mpr ⟨hlen, hcells, enforceChecks_eq_ok.mpr fun check' hcheck' => ?_⟩
    obtain ⟨check, hcheck, htruth⟩ := hcarries.checks check' hcheck'
    obtain ⟨truth, hok, htrue⟩ :=
      enforceChecks_eq_ok.mp (validateRow_eq_ok.mp hold.valid).2.2 check hcheck
    exact ⟨truth, htruth row row' hrow truth hok, htrue⟩
  refine ⟨hvalid, fun key' hkey' => ?_, fun r₂ other' hr₂' hne => ?_⟩
  · obtain ⟨key, hkey, hresolves⟩ := hcarries.keys key' hkey'
    obtain ⟨indexes, hidxs⟩ := hold.keys key hkey
    obtain ⟨indexes', hidxs', -⟩ := hresolves indexes hidxs
    exact ⟨indexes', hidxs'⟩
  · obtain ⟨other, hr₂, hother, -, -⟩ := hrows r₂ other' hr₂'
    rw [rowsConflictOnUnique, any_eq_false]
    intro key' hkey'
    obtain ⟨key, hkey, hresolves⟩ := hcarries.keys key' hkey'
    obtain ⟨indexes, hidxs⟩ := hold.keys key hkey
    obtain ⟨indexes', hidxs', hat⟩ := hresolves indexes hidxs
    have hconflict := any_eq_false.mp (hold.unique r₂ other hr₂ hne) key hkey
    -- the keys of the two rows are the keys they had before
    obtain ⟨k, hk⟩ := hidxs.exists_key row
    obtain ⟨k₂, hk₂⟩ := hidxs.exists_key other
    rw [uniqueRowsEqual_iff_key hidxs (isCell_of_validateRow hold.valid) hk hk₂] at hconflict
    rw [uniqueRowsEqual_iff_key hidxs' (isCell_of_validateRow hvalid)
      (hat row row' hrow ▸ hk) (hat other other' hother ▸ hk₂)]
    exact hconflict

end Carries

section Kept

/-- A CHECK whose columns are kept, with the names they have then. -/
theorem check_of_columnKept (oldName newName : String)
    (h : ∀ name ∈ collectCheckColumns check,
      ColumnKept t t' R name (renameName oldName newName name)) {row row' : Row} (hrow : R row row')
    (hok : evalCheckTri row t.columnIndex check = .ok truth) :
    evalCheckTri row' t'.columnIndex (renameCheckColumn oldName newName check) = .ok truth := by
  refine evalCheckTri_renameCheckColumn oldName newName (fun name hname i hi => ?_) hok
  obtain ⟨j, hj, hat⟩ := h name hname i hi
  exact ⟨j, hj, hat row row' hrow⟩

/-- A key whose columns are kept, with the names they have then. -/
theorem resolves_of_columnKept (oldName newName : String) {key key' : UniqueConstraint}
    (hkey' : key'.columns = renameNameList oldName newName key.columns)
    (h : ∀ name ∈ key.columns, ColumnKept t t' R name (renameName oldName newName name))
    {indexes : List ℕ} (hidxs : t.Resolves key indexes) :
    ∃ indexes', t'.Resolves key' indexes' ∧ ∀ row row', R row row' →
      indexes'.map row'.at = indexes.map row.at := by
  obtain ⟨hne, hmap⟩ := hidxs
  suffices hsuff : ∃ indexes' : List ℕ, indexes'.length = indexes.length ∧
      (renameNameList oldName newName key.columns).map t'.columnIndex = indexes'.map some ∧
      ∀ row row', R row row' → indexes'.map row'.at = indexes.map row.at by
    obtain ⟨indexes', hlen, hresolves, hat⟩ := hsuff
    refine ⟨indexes', ⟨fun hnil => hne ?_, hkey' ▸ hresolves⟩, hat⟩
    rw [hnil, length_nil] at hlen
    exact length_eq_zero_iff.mp hlen.symm
  clear hne hkey'
  generalize key.columns = columns at hmap h
  induction columns generalizing indexes with
  | nil =>
    obtain rfl := map_eq_nil_iff.mp hmap.symm
    exact ⟨[], rfl, rfl, fun _ _ _ => rfl⟩
  | cons column columns ih =>
    obtain ⟨hcol, hcols⟩ := forall_mem_cons.mp h
    obtain ⟨i, rest, rfl, hi, hrest⟩ := map_eq_cons_iff.mp hmap.symm
    obtain ⟨j, hj, hat⟩ := hcol i hi.symm
    obtain ⟨indexes', hlen, hresolves, hats⟩ := ih hrest.symm hcols
    refine ⟨j :: indexes', by simp [hlen], ?_, fun row row' hrow => ?_⟩
    · rw [renameNameList, map_cons, map_cons, hj, ← renameNameList, hresolves, map_cons]
    · rw [map_cons, map_cons, hat row row' hrow, hats row row' hrow]

theorem exists_key_of_flag {column : Column} (hmem : column ∈ t.schema)
    (hflag : (column.unique || column.primaryKey) = true) :
    ∃ key ∈ t.allUniqueConstraints, key.columns = [column.name] := by
  by_cases hcovered : t.uniqueConstraints.any (fun c => c.columns = [column.name]) = true
  · obtain ⟨key, hkey, hcols⟩ := any_eq_true.mp hcovered
    exact ⟨key, mem_append_left _ hkey, of_decide_eq_true hcols⟩
  · refine ⟨{ columns := [column.name], primaryKey := column.primaryKey },
      mem_append_right _ (mem_map.mpr ⟨column, mem_filter.mpr ⟨hmem, ?_⟩, rfl⟩), rfl⟩
    rw [hflag, Bool.not_eq_true _ |>.mp hcovered]
    rfl

/-- The keys of a table are those of its constraints and those of the flags of its columns. -/
theorem mem_allUniqueConstraints {key : UniqueConstraint} (h : key ∈ t.allUniqueConstraints) :
    key ∈ t.uniqueConstraints ∨ ∃ column ∈ t.schema, (column.unique || column.primaryKey) = true ∧
      key.columns = [column.name] := by
  rcases mem_append.mp h with h | h
  · exact Or.inl h
  · obtain ⟨column, hcol, rfl⟩ := mem_map.mp h
    obtain ⟨hmem, hflag⟩ := mem_filter.mp hcol
    exact Or.inr ⟨column, hmem, (Bool.and_eq_true_iff.mp hflag).1, rfl⟩

/-- Constraints whose columns are kept, with the names they have then. -/
theorem Carries.of_renamed (oldName newName : String)
    (hchecks : ∀ check' ∈ t'.checkConstraints, ∃ check ∈ t.checkConstraints,
      check' = renameCheckColumn oldName newName check ∧
        ∀ name ∈ collectCheckColumns check,
          ColumnKept t t' R name (renameName oldName newName name))
    (hkeys : ∀ key' ∈ t'.allUniqueConstraints, ∃ key ∈ t.allUniqueConstraints,
      key'.columns = renameNameList oldName newName key.columns ∧
        ∀ name ∈ key.columns, ColumnKept t t' R name (renameName oldName newName name)) :
    Carries t t' R where
  checks check' hcheck' := by
    obtain ⟨check, hcheck, rfl, hkept⟩ := hchecks check' hcheck'
    exact ⟨check, hcheck, fun row row' hrow _ hok =>
      check_of_columnKept oldName newName hkept hrow hok⟩
  keys key' hkey' := by
    obtain ⟨key, hkey, hcols, hkept⟩ := hkeys key' hkey'
    exact ⟨key, hkey, fun _ hidxs =>
      resolves_of_columnKept oldName newName hcols hkept hidxs⟩

theorem check_of_kept (h : ∀ name ∈ collectCheckColumns check, ColumnKept t t' R name name)
    {row row' : Row} (hrow : R row row') (hok : evalCheckTri row t.columnIndex check = .ok truth) :
    evalCheckTri row' t'.columnIndex check = .ok truth := by
  have hkept := check_of_columnKept "" "" (by simpa only [renameName_self] using h) hrow hok
  rwa [renameCheckColumn_self] at hkept

theorem resolves_of_kept {key key' : UniqueConstraint} (hkey' : key'.columns = key.columns)
    (h : ∀ name ∈ key.columns, ColumnKept t t' R name name) {indexes : List ℕ}
    (hidxs : t.Resolves key indexes) :
    ∃ indexes', t'.Resolves key' indexes' ∧ ∀ row row', R row row' →
      indexes'.map row'.at = indexes.map row.at :=
  resolves_of_columnKept "" "" (by rw [renameNameList_self, hkey'])
    (by simpa only [renameName_self] using h) hidxs

theorem Carries.of_kept
    (hchecks : ∀ check ∈ t'.checkConstraints, check ∈ t.checkConstraints ∧
      ∀ name ∈ collectCheckColumns check, ColumnKept t t' R name name)
    (hkeys : ∀ key' ∈ t'.allUniqueConstraints, ∃ key ∈ t.allUniqueConstraints,
      key'.columns = key.columns ∧ ∀ name ∈ key.columns, ColumnKept t t' R name name) :
    Carries t t' R where
  checks check hcheck :=
    ⟨check, (hchecks check hcheck).1, fun _ _ hrow _ hok =>
      check_of_kept (hchecks check hcheck).2 hrow hok⟩
  keys key' hkey' := by
    obtain ⟨key, hkey, hcols, hkept⟩ := hkeys key' hkey'
    exact ⟨key, hkey, fun _ hidxs => resolves_of_kept hcols hkept hidxs⟩

end Kept

section Columns

variable {column : Column} {index : ℕ} {name : String}
  {schema : List Column} {cascade : Bool} {capture : DroppedColumnCapture}

theorem columnKept_append (hschema : t'.schema = t.schema ++ [column]) (pad : Value) :
    ColumnKept t t' (fun row row' => row.length = t.schema.length ∧ row' = row ++ [pad])
      name name := by
  intro i hi
  refine ⟨i, ?_, ?_⟩
  · rw [columnIndex, hschema]
    exact findColumn_append hi column
  · rintro row _ ⟨hlen, rfl⟩
    exact at_append_of_lt (hlen ▸ lt_length_of_findColumn hi) pad

theorem at_eraseIdx {row : Row} {i : ℕ} (hne : i ≠ index) :
    Row.at (row.eraseIdx index) (IndexManager.shiftErased index i) = row.at i := by
  rw [Row.at, Row.at, getD, getD, getElem?_eraseIdx, shiftErased]
  by_cases hlt : index < i
  · rw [if_pos hlt, if_neg (by omega), Nat.sub_add_cancel (by omega)]
  · rw [if_neg hlt, if_pos (by omega)]

theorem columnKept_eraseIdx {dropped : String} (hidx : t.columnIndex dropped = some index)
    (hschema : t'.schema = t.schema.eraseIdx index) (hne : name ≠ dropped) :
    ColumnKept t t' (fun row row' => row' = row.eraseIdx index) name name := by
  intro i hi
  have hi' : i ≠ index := by
    rintro rfl
    exact hne ((columnName_of_findColumn hi).symm.trans (columnName_of_findColumn hidx))
  refine ⟨shiftErased index i, ?_, ?_⟩
  · rw [columnIndex, hschema]
    exact findColumn_eraseIdx hi hi'
  · rintro row _ rfl
    exact at_eraseIdx hi'

theorem columnKept_insertIdx (hschema : t'.schema = t.schema.insertIdx index column)
    (hne : column.name ≠ name) :
    ColumnKept t t' (fun row row' => row = row'.eraseIdx index) name name := by
  intro i hi
  have hi' : shiftInserted index i ≠ index := by
    rw [shiftInserted]
    split_ifs <;> omega
  have hback : shiftErased index (shiftInserted index i) = i := by
    rw [shiftInserted, shiftErased]
    split_ifs <;> omega
  refine ⟨shiftInserted index i, ?_, ?_⟩
  · rw [columnIndex, hschema]
    exact findColumn_insertIdx hi hne
  · rintro _ row' rfl
    rw [← at_eraseIdx hi', hback]

theorem columnKept_modify {oldName newName : String} (hold : t.columnIndex oldName = some index)
    (hnew : t.columnIndex newName = none)
    (hschema : t'.schema = t.schema.modify index fun column => { column with name := newName }) :
    ColumnKept t t' Eq name (renameName oldName newName name) := by
  intro i hi
  refine ⟨i, ?_, ?_⟩
  · rw [columnIndex, hschema]
    exact findColumn_modify hold hnew hi
  · rintro row _ rfl
    rfl

/-- Every constraint reads in a row with one more value what it read before. -/
theorem Carries.of_addColumn (hflag : (column.unique || column.primaryKey) = false)
    (hschema : t'.schema = t.schema ++ [column])
    (hchecks : t'.checkConstraints = t.checkConstraints)
    (huniques : t'.uniqueConstraints = t.uniqueConstraints) (pad : Value) :
    Carries t t' fun row row' => row.length = t.schema.length ∧ row' = row ++ [pad] := by
  have hkeys : t'.allUniqueConstraints = t.allUniqueConstraints := by
    rw [allUniqueConstraints, hschema, huniques, filter_append, filter_singleton, hflag,
      Bool.false_and, allUniqueConstraints]
    simp
  refine Carries.of_kept (fun check hcheck => ⟨hchecks ▸ hcheck, fun _ _ =>
    columnKept_append hschema pad⟩) fun key hkey => ⟨key, hkeys ▸ hkey, rfl, fun _ _ =>
      columnKept_append hschema pad⟩

theorem rejectOrCascade_eq_ok {dependent : Bool} {message : String} :
    rejectOrCascade cascade dependent message = .ok () ↔ (dependent = true → cascade = true) := by
  cases cascade <;> cases dependent <;>
    simp [rejectOrCascade, pure, Except.pure]

/-- What `dropColumn` captures; without CASCADE there is nothing to capture. -/
theorem captureDependents_eq_ok {dependents : DroppedColumnCapture}
    (h : t.captureDependents column index name cascade = .ok dependents) :
    (cascade = false → (∀ check ∈ t.checkConstraints, name ∉ collectCheckColumns check) ∧
      ∀ key ∈ t.uniqueConstraints, name ∉ key.columns) ∧
    dependents.column = column ∧ dependents.columnIndex = index ∧ dependents.cascaded = cascade ∧
    dependents.droppedChecks = t.checkConstraints.filter (checkReferencesColumn · name) ∧
    dependents.droppedUniques = t.uniquesOn column name := by
  simp only [captureDependents, bind_unit_eq_ok, rejectOrCascade_eq_ok] at h
  obtain ⟨-, hchecks, -, -, huniques, h⟩ := h
  obtain rfl := Except.ok.inj h
  refine ⟨fun hcascade => ⟨fun check hcheck hname => ?_, fun key hkey hname => ?_⟩, rfl, rfl, rfl,
    rfl, rfl⟩
  · have hmem : check ∈ t.checkConstraints.filter (checkReferencesColumn · name) :=
      mem_filter.mpr ⟨hcheck, contains_iff_mem.mpr hname⟩
    have := hchecks (by simpa using ⟨check, mem_filter.mp hmem⟩)
    rw [hcascade] at this
    cases this
  · have := huniques (any_eq_true.mpr ⟨key, hkey, contains_iff_mem.mpr hname⟩)
    rw [hcascade] at this
    cases this

/-- The constraints that are left after `dropColumn` do not name the column. -/
theorem dropColumn_constraints (hs : t.rowStore.Valid) {database : Option Database}
    (h : dropColumn name database cascade t = .ok capture t') :
    (∀ check ∈ t'.checkConstraints, check ∈ t.checkConstraints ∧
      name ∉ collectCheckColumns check) ∧
    ∀ key ∈ t'.uniqueConstraints, key ∈ t.uniqueConstraints ∧ name ∉ key.columns := by
  obtain ⟨index, column, dependents, t₁, -, -, hdeps, rfl, s, values, versions, m, m', -, -, -,
    -, -, rfl⟩ := dropColumn_eq_ok hs h
  obtain ⟨hnone, -⟩ := captureDependents_eq_ok hdeps
  cases cascade with
  | false =>
    obtain ⟨hchecks, hkeys⟩ := hnone rfl
    exact ⟨fun check hcheck => ⟨hcheck, hchecks check hcheck⟩,
      fun key hkey => ⟨hkey, hkeys key hkey⟩⟩
  | true =>
    refine ⟨fun check hcheck => ?_, fun key hkey => ?_⟩
    · obtain ⟨hmem, hname⟩ := mem_filter.mp hcheck
      exact ⟨hmem, by simpa [checkReferencesColumn] using hname⟩
    · obtain ⟨hmem, hname⟩ := mem_filter.mp hkey
      exact ⟨hmem, by simpa [uniqueReferencesColumn] using hname⟩

/-- The names of the columns are distinct. -/
def DistinctNames (schema : List Column) : Prop := (schema.map Column.name).Nodup

theorem DistinctNames.name_ne (h : DistinctNames schema)
    (hidx : findColumn schema name = some index) {i : ℕ} (hi : schema[i]? = some column)
    (hne : i ≠ index) : column.name ≠ name := by
  obtain ⟨⟨found, hfound, hname⟩, -⟩ := findColumn_eq_some.mp hidx
  intro heq
  have hnames : (schema.map Column.name)[i]? = (schema.map Column.name)[index]? := by
    rw [List.getElem?_map, List.getElem?_map, hi, hfound, Option.map_some,
      Option.map_some, heq, hname]
  have hlt : i < (schema.map Column.name).length := by
    rw [List.length_map]
    exact (List.getElem?_eq_some_iff.mp hi).1
  exact hne ((List.getElem?_inj hlt h).mp hnames)

theorem DistinctNames.of_mem_eraseIdx (h : DistinctNames schema)
    (hidx : findColumn schema name = some index) (hmem : column ∈ schema.eraseIdx index) :
    column ∈ schema ∧ column.name ≠ name := by
  obtain ⟨i, hi, hcol⟩ := mem_eraseIdx_iff_getElem?.mp hmem
  exact ⟨mem_of_getElem? hcol, h.name_ne hidx hcol hi⟩

/-- Every constraint that is left reads in a row without the column what it read before. -/
theorem Carries.of_dropColumn (hnames : DistinctNames t.schema) (hs : t.rowStore.Valid)
    {database : Option Database} (h : dropColumn name database cascade t = .ok capture t')
    (hidx : t.columnIndex name = some index) (hschema : t'.schema = t.schema.eraseIdx index) :
    Carries t t' fun row row' => row' = row.eraseIdx index := by
  obtain ⟨hchecks, huniques⟩ := dropColumn_constraints hs h
  have hkept : ∀ {names : List String}, name ∉ names → ∀ other ∈ names,
      ColumnKept t t' (fun row row' => row' = row.eraseIdx index) other other := by
    intro names hnot other hother
    refine columnKept_eraseIdx hidx hschema ?_
    rintro rfl
    exact hnot hother
  refine Carries.of_kept (fun check hcheck => ?_) fun key' hkey' => ?_
  · obtain ⟨hmem, hname⟩ := hchecks check hcheck
    exact ⟨hmem, hkept hname⟩
  · rcases mem_allUniqueConstraints hkey' with hmem | ⟨column, hmem, hflag, hcols⟩
    · obtain ⟨hmem', hname⟩ := huniques key' hmem
      exact ⟨key', mem_append_left _ hmem', rfl, hkept hname⟩
    · rw [hschema] at hmem
      obtain ⟨hcol, hne⟩ := hnames.of_mem_eraseIdx hidx hmem
      obtain ⟨key, hkey, hcols'⟩ := exists_key_of_flag hcol hflag
      refine ⟨key, hkey, hcols.trans hcols'.symm, hkept ?_⟩
      rw [hcols', mem_singleton]
      exact hne.symm

theorem DistinctNames.of_mem_modify (h : DistinctNames schema)
    {oldName newName : String} (hold : findColumn schema oldName = some index)
    (hmem : column ∈ schema.modify index fun column => { column with name := newName }) :
    ∃ old ∈ schema, column.name = renameName oldName newName old.name ∧ column.unique = old.unique ∧
      column.primaryKey = old.primaryKey := by
  obtain ⟨i, hi⟩ := mem_iff_getElem?.mp hmem
  rw [getElem?_modify, Option.map_eq_map, Option.map_eq_some_iff] at hi
  obtain ⟨old, hcol, rfl⟩ := hi
  refine ⟨old, mem_of_getElem? hcol, ?_⟩
  by_cases heq : index = i
  · subst heq
    obtain ⟨⟨found, hfound, hname⟩, -⟩ := findColumn_eq_some.mp hold
    obtain rfl := Option.mem_unique hcol hfound
    rw [if_pos rfl, renameName, if_pos hname]
    exact ⟨rfl, rfl, rfl⟩
  · rw [if_neg heq, renameName, if_neg (h.name_ne hold hcol (Ne.symm heq))]
    exact ⟨rfl, rfl, rfl⟩

/-- Every constraint reads under the new name what it read under the old one. -/
theorem Carries.of_withRenamedColumn (hnames : DistinctNames t.schema) {oldName newName : String}
    (hold : t.columnIndex oldName = some index) (hnew : t.columnIndex newName = none) :
    Carries t (t.withRenamedColumn index oldName newName) Eq := by
  have hkept : ∀ other, ColumnKept t (t.withRenamedColumn index oldName newName) Eq other
      (renameName oldName newName other) := fun _ => columnKept_modify hold hnew rfl
  refine Carries.of_renamed oldName newName (fun check' hcheck' => ?_) fun key' hkey' => ?_
  · obtain ⟨check, hcheck, rfl⟩ := mem_map.mp hcheck'
    exact ⟨check, hcheck, rfl, fun other _ => hkept other⟩
  · rcases mem_allUniqueConstraints hkey' with hmem | ⟨column, hmem, hflag, hcols⟩
    · obtain ⟨key, hkey, rfl⟩ := mem_map.mp hmem
      exact ⟨key, mem_append_left _ hkey, rfl, fun other _ => hkept other⟩
    · obtain ⟨old, hold', hname, hunique, hprimaryKey⟩ := hnames.of_mem_modify hold hmem
      rw [hunique, hprimaryKey] at hflag
      obtain ⟨key, hkey, hcols'⟩ := exists_key_of_flag hold' hflag
      refine ⟨key, hkey, ?_, fun other _ => hkept other⟩
      rw [hcols, hcols', hname]
      rfl

end Columns

end Table

end VertexDB
