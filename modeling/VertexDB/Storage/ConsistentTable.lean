import VertexDB.Storage.RowConstraints

/-!
# Tables that keep their constraints

In a consistent table the indexes are current, the names of the columns are distinct, the live rows
pass the checks of the table beside each other, and every version has the width of the schema. Each
operation that checks its rows keeps a table consistent, and so do the schema changes. What undoes a
dropped column depends on the rows it is applied to and is left to `VertexDB.Transaction.TableUndo`.
-/

namespace VertexDB

open Std.ExtTreeMap

variable {index : ℕ} {row : Row}

namespace MvccRowStore

variable {s s' : MvccRowStore} {n : ℕ}

/-- Every version has the width `n`. -/
def HasWidth (s : MvccRowStore) (n : ℕ) : Prop :=
  ∀ i, ∀ version ∈ s.chain i, version.row.length = n

section Width

theorem map_row_closeLatest (transactionId : ℕ) (versions : List RowVersion) :
    (closeLatest transactionId versions).map RowVersion.row = versions.map RowVersion.row := by
  rcases versions with _ | ⟨⟨_, _ | _, _⟩, _⟩ <;> rfl

theorem map_row_deleteLatest (transactionId : ℕ) (versions : List RowVersion) :
    (deleteLatest transactionId versions).map RowVersion.row = versions.map RowVersion.row := by
  cases versions <;> rfl

theorem map_row_openLatest (versions : List RowVersion) :
    (openLatest versions).map RowVersion.row = versions.map RowVersion.row := by
  cases versions <;> rfl

theorem hasWidth_iff : s.HasWidth n ↔ ∀ i, ∀ row ∈ (s.chain i).map RowVersion.row,
    row.length = n := by
  simp only [HasWidth, List.forall_mem_map]

theorem HasWidth.of_chain (h : s.HasWidth n) {i : ℕ}
    (hi : ∀ row ∈ (s'.chain i).map RowVersion.row, row.length = n)
    (hne : ∀ j, i ≠ j → s'.chain j = s.chain j) : s'.HasWidth n := by
  rw [hasWidth_iff] at h ⊢
  intro j
  by_cases hij : i = j
  · exact hij ▸ hi
  · rw [hne j hij]
    exact h j

theorem HasWidth.write (h : s.HasWidth n) (i : ℕ) (hrow : row.length = n)
    (transactionId : ℕ) : (s.write i row transactionId).HasWidth n := by
  refine h.of_chain ?_ fun j hij => by rw [chain_write, if_neg hij]
  rw [chain_write, if_pos rfl, List.map_cons, map_row_closeLatest]
  exact List.forall_mem_cons.mpr ⟨hrow, hasWidth_iff.mp h i⟩

theorem HasWidth.erase (h : s.HasWidth n) (i transactionId : ℕ) :
    (s.erase i transactionId).HasWidth n := by
  refine h.of_chain ?_ fun j hij => by rw [chain_erase, if_neg hij]
  rw [chain_erase, if_pos rfl, map_row_deleteLatest]
  exact hasWidth_iff.mp h i

theorem HasWidth.popLatestVersion (h : s.HasWidth n) (i : ℕ) :
    (s.popLatestVersion i).2.HasWidth n := by
  refine h.of_chain ?_ fun j hij => by rw [chain_popLatestVersion, if_neg hij]
  rw [chain_popLatestVersion, if_pos rfl, map_row_openLatest, List.map_tail]
  exact fun row hrow => hasWidth_iff.mp h i row (List.mem_of_mem_tail hrow)

theorem HasWidth.clearLatestDeletedBy (h : s.HasWidth n) (i : ℕ) :
    (s.clearLatestDeletedBy i).2.HasWidth n := by
  refine h.of_chain ?_ fun j hij => by rw [chain_clearLatestDeletedBy, if_neg hij]
  rw [chain_clearLatestDeletedBy, if_pos rfl, map_row_openLatest]
  exact hasWidth_iff.mp h i

theorem chain_transformRows (s : MvccRowStore) (fn : Row → Row) (i : ℕ) :
    (s.transformRows fn).chain i =
      (s.chain i).map fun version => { version with row := fn version.row } := by
  rw [chain, chain, transformRows, getElem?_map]
  cases s.versions[i]? <;> rfl

theorem HasWidth.transformRows (h : s.HasWidth n) {fn : Row → Row} {m : ℕ}
    (hfn : ∀ row, row.length = n → (fn row).length = m) : (s.transformRows fn).HasWidth m := by
  intro i version hver
  rw [chain_transformRows] at hver
  obtain ⟨old, hold, rfl⟩ := List.mem_map.mp hver
  exact hfn old.row (h i old hold)

variable {values : List (ℕ × List Value)}

theorem HasWidth.extractColumn (h : s.HasWidth n) (hidx : index < n)
    (hok : s.extractColumn index = .ok (values, s')) :
    s'.HasWidth (n - 1) := by
  rw [MvccRowStore.extractColumn] at hok
  split_ifs at hok
  obtain ⟨-, rfl⟩ := Prod.mk.inj (Except.ok.inj hok)
  refine h.transformRows fun row hrow => ?_
  rw [List.length_eraseIdx_of_lt (hrow ▸ hidx), hrow]

theorem insertIntoChain_eq_ok {versions versions' : List RowVersion} {values : Option (List Value)}
    (hvers : ∀ version ∈ versions, version.row.length = n)
    (hok : insertIntoChain index versions values = .ok versions') :
    ∀ version ∈ versions', version.row.length = n + 1 := by
  cases values with
  | none => cases hok
  | some values =>
    simp only [insertIntoChain] at hok
    split_ifs at hok with hlen hwide
    obtain rfl := Except.ok.inj hok
    intro version hver
    rw [← List.map_uncurry_zip_eq_zipWith] at hver
    obtain ⟨⟨old, value⟩, hmem, rfl⟩ := List.mem_map.mp hver
    have hold := (List.of_mem_zip hmem).1
    have hnarrow : ¬old.row.length < index := fun hlt =>
      hwide (List.any_eq_true.mpr ⟨old, hold, decide_eq_true hlt⟩)
    rw [Function.uncurry_apply_pair, List.length_insertIdx_of_le_length (not_lt.mp hnarrow),
      hvers old hold]

theorem foldlM_insertColumn_eq_ok {entries : List (ℕ × List RowVersion)}
    (hentries : ∀ entry ∈ entries, ∀ version ∈ entry.2, version.row.length = n)
    (hok : entries.foldlM (fun (s : MvccRowStore) entry => do
      let columnValues :=
        (values.find? fun value : ℕ × List Value => value.1 = entry.1).map Prod.snd
      let chain ← insertIntoChain index entry.2 columnValues
      return ({ versions := s.versions.insert entry.1 chain } : MvccRowStore)) s = .ok s') (i : ℕ) :
    (i ∈ entries.map Prod.fst → ∀ version ∈ s'.chain i, version.row.length = n + 1) ∧
      (i ∉ entries.map Prod.fst → s'.chain i = s.chain i) := by
  induction entries generalizing s with
  | nil =>
    obtain rfl := Except.ok.inj hok
    simp
  | cons entry entries ih =>
    obtain ⟨hhead, htail⟩ := List.forall_mem_cons.mp hentries
    rw [List.foldlM_cons] at hok
    rcases hchain : insertIntoChain index entry.2
        ((values.find? fun value => value.1 = entry.1).map Prod.snd) with e | chain
    · simp only [hchain, bind, Except.bind] at hok
      cases hok
    simp only [hchain, bind, Except.bind, pure, Except.pure] at hok
    obtain ⟨hin, hout⟩ := ih htail hok
    have hnew := insertIntoChain_eq_ok hhead hchain
    rw [List.map_cons, List.mem_cons, not_or]
    refine ⟨fun hi => ?_, fun hi => ?_⟩
    · by_cases hmem : i ∈ entries.map Prod.fst
      · exact hin hmem
      · obtain rfl := hi.resolve_right hmem
        rw [hout hmem, MvccRowStore.chain, getElem?_insert_self]
        exact hnew
    · rw [hout hi.2, MvccRowStore.chain, MvccRowStore.chain, getElem?_insert,
        if_neg (by simpa using Ne.symm hi.1)]

theorem HasWidth.insertColumn (h : s.HasWidth n) (hok : s.insertColumn index values = .ok s') :
    s'.HasWidth (n + 1) := by
  have hentries : ∀ entry ∈ s.versions.toList, ∀ version ∈ entry.2, version.row.length = n := by
    rintro ⟨i, versions⟩ hentry version hver
    refine h i version ?_
    rwa [chain, mem_toList_iff_getElem?_eq_some.mp hentry]
  intro i version hver
  obtain ⟨hin, hout⟩ := foldlM_insertColumn_eq_ok hentries hok i
  by_cases hi : i ∈ s.versions.toList.map Prod.fst
  · exact hin hi version hver
  · -- a row id without versions has none afterwards
    have hnone : s.chain i = [] := by
      rcases hget : s.versions[i]? with _ | versions
      · rw [chain, hget]
        rfl
      · exact absurd (List.mem_map_of_mem (mem_toList_iff_getElem?_eq_some.mpr hget)) hi
    rw [hout hi, hnone] at hver
    cases hver

end Width

end MvccRowStore

namespace Table

open Exec

variable {t t' t'' : Table} {u : Unit} {done : Bool} {name : String}

/-- The invariant of a table. -/
structure Consistent (t : Table) : Prop where
  current : t.Current
  names : DistinctNames t.schema
  accepted : t.AllAccepted t.rowStore.get
  versions : t.versions.HasWidth t.schema.length

/-- Every live row has the width and the types of the schema, no NULL in a NOT NULL column and no
CHECK that is false, no two live rows agree on a key without NULL, and every version has the width
of the schema. -/
structure KeepsConstraints (t : Table) : Prop where
  width : ∀ i row, t.rowStore.get i = some row → row.length = t.schema.length
  cells : ∀ i row, t.rowStore.get i = some row → ∀ (j : ℕ) value column, row[j]? = some value →
    t.schema[j]? = some column → value.isNull = true ∧ column.nullable = true ∨
      value.type = .ok column.type
  checks : ∀ i row, t.rowStore.get i = some row → ∀ check ∈ t.checkConstraints,
    evalCheckTri row t.columnIndex check ≠ .ok .false
  keys : ∀ i row i' row', t.rowStore.get i = some row → t.rowStore.get i' = some row' → i ≠ i' →
    ∀ key ∈ t.allUniqueConstraints, ∀ indexes, t.Resolves key indexes →
      ∃ j ∈ indexes, (row.at j).isNull = true ∨ (row'.at j).isNull = true ∨
        (row.at j).beq (row'.at j) = false
  versions : ∀ i, ∀ version ∈ t.versions.chain i, version.row.length = t.schema.length

theorem Consistent.keepsConstraints (h : t.Consistent) : t.KeepsConstraints where
  width := h.current.rows.width
  cells i row hrow := (validateRow_eq_ok.mp (h.accepted i row hrow).valid).2.1
  checks i row hrow check hcheck hfalse := by
    obtain ⟨truth, hok, htrue⟩ := enforceChecks_eq_ok.mp
      (validateRow_eq_ok.mp (h.accepted i row hrow).valid).2.2 check hcheck
    exact htrue (Except.ok.inj (hok.symm.trans hfalse))
  keys i row i' row' hrow hrow' hne key hkey indexes hidxs := by
    have hconflict := List.any_eq_false.mp
      ((h.accepted i row hrow).unique i' row' hrow' (by simpa using hne)) key hkey
    rw [uniqueRowsEqual_eq hidxs, Bool.not_eq_true, List.all_eq_false] at hconflict
    obtain ⟨j, hj, hdiffers⟩ := hconflict
    refine ⟨j, hj, ?_⟩
    cases hnull : (row.at j).isNull <;> cases hnull' : (row'.at j).isNull <;>
      simp_all
  versions := h.versions

theorem Consistent.sound (h : t.Consistent) : t.Sound :=
  ⟨h.current.rows.valid, h.current.built.agrees, h.current.fits.positions, h.accepted⟩

section Rows

theorem AllAccepted.of_eq {rows : ℕ → Option Row} (h : t.AllAccepted rows)
    (hschema : t'.schema = t.schema) (hcarries : Carries t t' Eq) : t'.AllAccepted rows := by
  refine h.carry hcarries fun i row hrow => ⟨row, hrow, rfl, ?_⟩
  obtain ⟨hlen, hcells, -⟩ := validateRow_eq_ok.mp (h i row hrow).valid
  rw [hschema]
  exact ⟨hlen, hcells⟩

/-- An accepted row in one slot, or a slot that is free now. -/
theorem Consistent.slotChange (ht : t.Consistent) {i : ℕ} {row : Option Row}
    {versions : MvccRowStore}
    (hrow : ∀ stored, row = some stored → t.Accepts t.rowStore.get stored (some i))
    (hvers : versions.HasWidth t.schema.length) (h : SlotChange t i row versions t') :
    t'.Consistent := by
  have hschema : t'.schema = t.schema := by rw [h.rest]
  refine ⟨ht.current.slotChange
    (fun stored hstored => length_of_validateRow (hrow stored hstored).valid) h,
    hschema ▸ ht.names, ?_, ?_⟩
  · rw [h.get]
    refine AllAccepted.of_eq ?_ hschema (Carries.of_eq hschema (by rw [h.rest]) (by rw [h.rest]))
    cases row with
    | none => exact ht.accepted.erase i
    | some stored => exact ht.accepted.store (hrow stored rfl)
  · rw [hschema, h.rest]
    exact hvers

theorem Consistent.insert (ht : t.Consistent) {writerId i : ℕ}
    (h : insert row writerId t = .ok i t') : t'.Consistent := by
  obtain ⟨hvalid, hunique, hfree, hslot⟩ := insert_eq_ok ht.current.rows.valid h
  refine ht.slotChange (fun stored hstored => ?_)
    (ht.versions.write i (length_of_validateRow hvalid) writerId) hslot
  rw [← Option.some.inj hstored]
  exact ((ht.sound.assertUniqueRow_iff row none).mp
    (bind_unit_eq_ok.mpr ⟨hvalid, hunique⟩)).exclude_dead

theorem Sound.insert (ht : t.Sound) {writerId i : ℕ}
    (h : Table.insert row writerId t = .ok i t') : t'.Sound := by
  obtain ⟨hvalid, hunique, -, hslot⟩ := insert_eq_ok ht.store h
  obtain ⟨hstore, hindexes, hcanonical⟩ := ht.searchable.slotChange hslot
  have haccepts := (ht.assertUniqueRow_iff row none).mp (bind_unit_eq_ok.mpr ⟨hvalid, hunique⟩)
  have hschema : t'.schema = t.schema := by rw [hslot.rest]
  refine ⟨hstore, hindexes, hcanonical, ?_⟩
  rw [hslot.get]
  exact (ht.accepted.store haccepts.exclude_dead).of_eq hschema
    (Carries.of_eq hschema (by rw [hslot.rest]) (by rw [hslot.rest]))

theorem Consistent.update (ht : t.Consistent) {rowId writerId : ℕ} {value : Value}
    (h : update rowId index value writerId t = .ok done t') : t'.Consistent := by
  rcases update_eq_ok ht.current.rows.valid h with
    ⟨-, rfl⟩ | ⟨-, row, column, updated, hrow, hcol, hupd, hslot⟩
  · exact ht
  obtain ⟨hcell, hchecks, hunique, rfl⟩ := updatedRow_eq_ok hupd
  have hvalid := validateRow_set (ht.accepted rowId row hrow).valid hcol
    (validateCell_eq_ok.mp hcell) hchecks
  refine ht.slotChange (fun stored hstored => ?_)
    (ht.versions.write rowId (length_of_validateRow hvalid) writerId) hslot
  rw [← Option.some.inj hstored]
  exact (ht.sound.assertUniqueRow_iff _ _).mp (bind_unit_eq_ok.mpr ⟨hvalid, hunique⟩)

theorem Consistent.erase (ht : t.Consistent) {rowId writerId : ℕ}
    (h : erase rowId writerId t = .ok done t') : t'.Consistent := by
  rcases erase_eq_ok ht.current.rows.valid h with ⟨-, rfl⟩ | ⟨-, -, hslot⟩
  · exact ht
  · exact ht.slotChange (by simp) (ht.versions.erase rowId writerId) hslot

end Rows

/-- Only the indexes of the table have changed. -/
def IndexChange (t t' : Table) : Prop := ∃ m, t' = { t with indexManager := m }

section Indexes

theorem IndexChange.refl (t : Table) : IndexChange t t := ⟨t.indexManager, rfl⟩

theorem IndexChange.trans (h : IndexChange t t') (h' : IndexChange t' t'') : IndexChange t t'' := by
  obtain ⟨m, rfl⟩ := h
  obtain ⟨m', rfl⟩ := h'
  exact ⟨m', rfl⟩

theorem indexChange_onIndexes {α : Type} {x : Table → EStateM Error IndexManager α} {a : α}
    (h : onIndexes x t = .ok a t') : IndexChange t t' := by
  obtain ⟨m, -, rfl⟩ := onIndexes_eq_ok.mp h
  exact ⟨m, rfl⟩

theorem indexChange_createIndex {columns : List String}
    (h : createIndex name columns t = .ok done t') : IndexChange t t' := by
  simp only [createIndex, get_bind, ite_run] at h
  split_ifs at h
  · exact (pure_eq_ok.mp h).2 ▸ IndexChange.refl t
  rcases hcols : columns.mapM t.columnIndex with _ | indexes
  · rw [hcols] at h
    exact (pure_eq_ok.mp h).2 ▸ IndexChange.refl t
  · rw [hcols] at h
    exact indexChange_onIndexes h

theorem indexChange_createExpressionIndex {expression : IndexExpression}
    (h : createExpressionIndex name expression t = .ok done t') : IndexChange t t' := by
  simp only [createExpressionIndex, get_bind] at h
  rcases hcol : t.columnIndex expression.column with _ | index
  · rw [hcol] at h
    exact (pure_eq_ok.mp h).2 ▸ IndexChange.refl t
  · rw [hcol] at h
    exact indexChange_onIndexes h

theorem indexChange_dropIndex (h : dropIndex name t = .ok done t') :
    IndexChange t t' := by
  rw [dropIndex_run, EStateM.Result.ok.injEq] at h
  exact ⟨_, h.2.symm⟩

theorem indexChange_registerIndex {indexes : List ℕ}
    {expression : Option IndexExpression} {rebuild : Bool} {failed : Error}
    (h : (registerIndex name indexes expression rebuild >>= fun done =>
      if !done then throw failed else pure ()) t = .ok u t') : IndexChange t t' := by
  rw [bind_eq_ok] at h
  obtain ⟨done, t₁, hreg, h⟩ := h
  simp only [ite_run, throw_apply, ite_error_eq_ok] at h
  exact (pure_eq_ok.mp h.2).2 ▸ indexChange_onIndexes hreg

theorem indexChange_ensureConstraintIndex {context : String} {rebuild : Bool}
    {constraint : UniqueConstraint}
    (h : ensureConstraintIndex context rebuild constraint t = .ok u t') : IndexChange t t' := by
  simp only [ensureConstraintIndex, get_bind, ite_run] at h
  split_ifs at h
  · exact (pure_eq_ok.mp h).2 ▸ IndexChange.refl t
  rcases hcols : constraint.columns.mapM t.columnIndex with _ | indexes
  · rw [hcols] at h
    exact (throw_eq_ok.mp h).elim
  · rw [hcols] at h
    exact indexChange_registerIndex h

theorem indexChange_ensureConstraintIndexes
    (h : ensureConstraintIndexes t = .ok u t') : IndexChange t t' := by
  rw [ensureConstraintIndexes, get_bind] at h
  exact forM_ok_induction (P := IndexChange t) (fun _ _ _ _ _ ht hstep =>
    ht.trans (indexChange_ensureConstraintIndex hstep)) (IndexChange.refl t) h

theorem indexChange_restoreUserIndex {definition : IndexDefinition}
    (h : restoreUserIndex definition t = .ok u t') : IndexChange t t' := by
  rw [restoreUserIndex, get_bind] at h
  generalize List.mapM t.columnIndex _ = positions at h
  cases positions with
  | none => exact (throw_eq_ok.mp h).elim
  | some indexes => exact indexChange_registerIndex h

theorem indexChange_renameConstraintIndex {rename : String × UniqueConstraint}
    (h : renameConstraintIndex rename t = .ok u t') : IndexChange t t' := by
  simp only [renameConstraintIndex, ite_run] at h
  by_cases hsame : rename.1 = constraintIndexName rename.2
  · rw [if_pos hsame] at h
    exact (pure_eq_ok.mp h).2 ▸ IndexChange.refl t
  rw [if_neg hsame, bind_eq_ok] at h
  obtain ⟨found, t₁, hdrop, h⟩ := h
  refine (indexChange_dropIndex hdrop).trans ?_
  simp only [ite_run] at h
  split_ifs at h
  · exact (pure_eq_ok.mp h).2 ▸ IndexChange.refl t₁
  rw [get_bind] at h
  rcases hcols : rename.2.columns.mapM t₁.columnIndex with _ | indexes
  · rw [hcols] at h
    exact (throw_eq_ok.mp h).elim
  · rw [hcols] at h
    exact indexChange_registerIndex h

theorem IndexChange.carries (h : IndexChange t t') : Carries t t' Eq := by
  obtain ⟨m, rfl⟩ := h
  exact Carries.of_eq rfl rfl rfl

theorem IndexChange.consistent (h : IndexChange t t') (ht : t.Consistent) (hcur : t'.Current) :
    t'.Consistent := by
  obtain ⟨m, rfl⟩ := h
  exact ⟨hcur, ht.names, ht.accepted.of_eq rfl (Carries.of_eq rfl rfl rfl), ht.versions⟩

end Indexes

section Columns

variable {column : Column}

theorem Rewritten.exists_of_get {rewrite : ℕ × Row → Except Error Row} {s s' : PageRowStore}
    (h : Rewritten rewrite s s') {i : ℕ} {row' : Row} (hrow' : s'.get i = some row') :
    ∃ row, s.get i = some row ∧ rewrite (i, row) = .ok row' := by
  rcases hrow : s.get i with _ | row
  · rw [h.dead i hrow] at hrow'
    cases hrow'
  · obtain ⟨row'', hok, hget⟩ := h.live i row hrow
    rw [hget] at hrow'
    exact ⟨row, rfl, Option.some.inj hrow' ▸ hok⟩

/-- What the checks of `addColumn` say about the column and its value. -/
theorem validateNewColumn_eq_ok {fill : Option Value} (h : validateNewColumn column fill = .ok ()) :
    (column.unique || column.primaryKey) = false ∧ ∀ value, fill = some value →
      CellOk value column := by
  unfold validateNewColumn at h
  by_cases hflag : (column.unique || column.primaryKey) = true
  · rw [if_pos hflag] at h
    cases h
  rw [if_neg hflag] at h
  by_cases hname : column.name = ""
  · rw [if_pos hname] at h
    cases h
  rw [if_neg hname] at h
  refine ⟨Bool.not_eq_true _ |>.mp hflag, ?_⟩
  rintro value rfl
  by_cases hnull : value.isNull = true
  · simp only [hnull, if_true] at h
    cases hnullable : column.nullable with
    | true => exact Or.inl ⟨hnull, hnullable⟩
    | false =>
      rw [hnullable] at h
      cases h
  · simp only [hnull] at h
    cases htype : value.type with
    | error e =>
      rw [htype] at h
      cases h
    | ok type =>
      rw [htype] at h
      by_cases heq : type = column.type
      · exact Or.inr (htype.trans (heq ▸ rfl))
      · simp [heq] at h

variable {schema : List Column}

theorem distinctNames_append (h : DistinctNames schema)
    (hnew : findColumn schema column.name = none) : DistinctNames (schema ++ [column]) := by
  rw [DistinctNames, List.map_append, List.map_singleton, ← List.concat_eq_append]
  refine List.Nodup.concat ?_ h
  intro hmem
  obtain ⟨other, hother, hname⟩ := List.mem_map.mp hmem
  exact findColumn_eq_none.mp hnew other hother hname

theorem Consistent.addColumn (ht : t.Consistent) {fill : Option Value}
    (h : addColumn column fill t = .ok u t') : t'.Consistent := by
  have hcur := ht.current.addColumn h
  obtain ⟨hvalid, hnew, hrequired, s, hs, rfl⟩ := addColumn_eq_ok ht.current.rows.valid h
  obtain ⟨hflag, hfill⟩ := validateNewColumn_eq_ok hvalid
  have hcarries : Carries t { t with
      schema := t.schema ++ [column]
      rowStore := s
      versions := t.versions.transformRows fun row => row ++ [fill.getD .null] }
      fun row row' => row.length = t.schema.length ∧ row' = row ++ [fill.getD .null] :=
    Carries.of_addColumn hflag (by rfl) (by rfl) (by rfl) (fill.getD .null)
  refine ⟨hcur, distinctNames_append ht.names hnew, ht.accepted.carry hcarries ?_, ?_⟩
  · intro i row' hrow'
    obtain ⟨row, hrow, hok⟩ := hs.exists_of_get hrow'
    obtain rfl := Except.ok.inj hok
    obtain ⟨hlen, hcells, -⟩ := validateRow_eq_ok.mp (ht.accepted i row hrow).valid
    refine ⟨row, hrow, ⟨hlen, rfl⟩, by simp [hlen], fun j value c hvalue hc => ?_⟩
    by_cases hj : j < row.length
    · rw [List.getElem?_append_left hj] at hvalue
      rw [List.getElem?_append_left (hlen ▸ hj)] at hc
      exact hcells j value c hvalue hc
    · rw [List.getElem?_append_right (not_lt.mp hj), List.getElem?_singleton] at hvalue
      rw [List.getElem?_append_right (hlen ▸ not_lt.mp hj), List.getElem?_singleton] at hc
      split_ifs at hvalue hc
      obtain rfl := Option.some.inj hvalue
      obtain rfl := Option.some.inj hc
      cases fill with
      | some value => exact hfill value rfl
      | none =>
        -- there is a row, so the column is nullable
        cases hnullable : column.nullable with
        | true => exact Or.inl ⟨rfl, hnullable⟩
        | false =>
          rw [hrequired rfl hnullable i] at hrow
          cases hrow
  · rw [List.length_append]
    exact ht.versions.transformRows fun row hrow => by simp [hrow]

theorem distinctNames_eraseIdx (h : DistinctNames schema) (index : ℕ) :
    DistinctNames (schema.eraseIdx index) :=
  h.sublist ((List.eraseIdx_sublist schema index).map Column.name)

theorem narrowRow_eq_ok {entry : ℕ × Row} {row' : Row} (h : narrowRow index entry = .ok row') :
    row' = entry.2.eraseIdx index := by
  rw [narrowRow] at h
  split_ifs at h
  exact (Except.ok.inj h).symm

theorem Consistent.dropColumn (ht : t.Consistent) {columnName : String} {database : Option Database}
    {cascade : Bool} {capture : DroppedColumnCapture}
    (h : dropColumn columnName database cascade t = .ok capture t') : t'.Consistent := by
  have hs := ht.current.rows.valid
  have hcur := current_of_dropColumn ht.current.rows ht.current.fits h
  obtain ⟨index, column, dependents, t₁, hidx, -, -, -, s, values, versions, m, m', hrows, hextract,
    -, -, -, ht'⟩ := dropColumn_eq_ok hs h
  have hschema : t'.schema = t.schema.eraseIdx index := by rw [ht']
  have hlt : index < t.schema.length := lt_length_of_findColumn hidx
  refine ⟨hcur, hschema ▸ distinctNames_eraseIdx ht.names index,
    ht.accepted.carry (Carries.of_dropColumn ht.names hs h hidx hschema) ?_, ?_⟩
  · intro i row' hrow'
    rw [ht'] at hrow'
    obtain ⟨row, hrow, hok⟩ := hrows.exists_of_get hrow'
    obtain rfl := narrowRow_eq_ok hok
    obtain ⟨hlen, hcells, -⟩ := validateRow_eq_ok.mp (ht.accepted i row hrow).valid
    rw [hschema]
    refine ⟨row, hrow, rfl, ?_, fun j value c hvalue hc => ?_⟩
    · rw [List.length_eraseIdx_of_lt hlt, List.length_eraseIdx_of_lt (hlen ▸ hlt), hlen]
    · rw [List.getElem?_eraseIdx] at hvalue hc
      split_ifs at hvalue hc
      · exact hcells j value c hvalue hc
      · exact hcells (j + 1) value c hvalue hc
  · rw [hschema, List.length_eraseIdx_of_lt hlt, ht']
    exact ht.versions.extractColumn hlt hextract

theorem map_name_modify (schema : List Column) (index : ℕ) (newName : String) :
    (schema.modify index fun column => { column with name := newName }).map Column.name =
      (schema.map Column.name).set index newName := by
  refine List.ext_getElem? fun i => ?_
  rw [List.getElem?_map, List.getElem?_modify, List.getElem?_set, List.getElem?_map]
  by_cases hi : index = i
  · subst hi
    by_cases hlt : index < schema.length
    · simp [hlt]
    · simp [hlt]
  · simp [hi]

variable {newName : String}

theorem distinctNames_modify (h : DistinctNames schema) (index : ℕ)
    (hnew : findColumn schema newName = none) :
    DistinctNames (schema.modify index fun column => { column with name := newName }) := by
  rw [DistinctNames, map_name_modify]
  refine List.Nodup.set h ?_
  intro hmem
  obtain ⟨other, hother, hname⟩ := List.mem_map.mp hmem
  exact findColumn_eq_none.mp hnew other hother hname

theorem cells_modify
    (h : ∀ (j : ℕ) value column, row[j]? = some value → schema[j]? = some column →
      CellOk value column) (j : ℕ) (value : Value) (column : Column) (hvalue : row[j]? = some value)
    (hcol : (schema.modify index fun column => { column with name := newName })[j]? = some column) :
    CellOk value column := by
  rw [List.getElem?_modify, Option.map_eq_map, Option.map_eq_some_iff] at hcol
  obtain ⟨old, hold, rfl⟩ := hcol
  have hcell := h j value old hvalue hold
  split_ifs <;> exact hcell

theorem Consistent.withRenamedColumn (ht : t.Consistent) {oldName : String}
    (hold : t.columnIndex oldName = some index) (hnew : t.columnIndex newName = none) :
    (t.withRenamedColumn index oldName newName).Consistent := by
  refine ⟨ht.current.withRenamedColumn hold hnew, distinctNames_modify ht.names index hnew,
    ht.accepted.carry (Carries.of_withRenamedColumn ht.names hold hnew) fun i row hrow => ?_, ?_⟩
  · obtain ⟨hlen, hcells, -⟩ := validateRow_eq_ok.mp (ht.accepted i row hrow).valid
    exact ⟨row, hrow, rfl, hlen.trans (List.length_modify ..).symm, cells_modify hcells⟩
  · rw [Table.withRenamedColumn, List.length_modify]
    exact ht.versions

theorem Consistent.renameColumn (ht : t.Consistent) {oldName : String}
    (h : renameColumn oldName newName t = .ok u t') : t'.Consistent := by
  have hcur := ht.current.renameColumn h
  rcases renameColumn_eq_ok h with ⟨-, rfl⟩ | ⟨index, -, hold, hnew, hrename⟩
  · exact ht
  · refine IndexChange.consistent ?_ (ht.withRenamedColumn hold hnew) hcur
    exact forM_ok_induction (fun _ _ _ _ _ hchange hstep =>
      hchange.trans (indexChange_renameConstraintIndex hstep)) (IndexChange.refl _) hrename

end Columns

end Table

end VertexDB
