import VertexDB.Storage.RowConstraints

/-!
# Rows with cells set to NULL

ON DELETE SET NULL and ON UPDATE SET NULL write NULL into the cells of a foreign key. A CHECK
predicate is evaluated in three values, and a NULL can only make its value unknown; a UNIQUE
constraint exempts rows with a NULL among its columns. So a row that a table accepts is accepted
with NULL in any cells whose columns allow it.
-/

namespace VertexDB

open List

namespace Row

variable {P Q : ℕ → Prop}

open Classical in
/-- The row with NULL in the cells at the positions `P`. -/
noncomputable def nullWhere (P : ℕ → Prop) (row : Row) : Row :=
  row.mapIdx fun i value => if P i then .null else value

open Classical in
theorem getElem?_nullWhere (P : ℕ → Prop) (row : Row) (i : ℕ) :
    (row.nullWhere P)[i]? = row[i]?.map fun value => if P i then .null else value :=
  getElem?_mapIdx

@[simp] theorem length_nullWhere (P : ℕ → Prop) (row : Row) :
    (row.nullWhere P).length = row.length :=
  length_mapIdx

theorem at_nullWhere_of_not {row : Row} {i : ℕ} (h : ¬P i) : (row.nullWhere P).at i = row.at i := by
  simp [Row.at, List.getD, getElem?_nullWhere, h]

theorem at_nullWhere_of {row : Row} {i : ℕ} (h : P i) : (row.nullWhere P).at i = .null := by
  simp only [Row.at, List.getD, getElem?_nullWhere, if_pos h]
  cases row[i]? <;> rfl

theorem at_nullWhere (P : ℕ → Prop) (row : Row) (i : ℕ) :
    (row.nullWhere P).at i = .null ∨ (row.nullWhere P).at i = row.at i := by
  by_cases h : P i
  · exact Or.inl (at_nullWhere_of h)
  · exact Or.inr (at_nullWhere_of_not h)

theorem nullWhere_congr (h : ∀ i, P i ↔ Q i) : nullWhere P = nullWhere Q := by
  obtain rfl : P = Q := funext fun i => propext (h i)
  rfl

theorem nullWhere_of_forall_not (h : ∀ i, ¬P i) (row : Row) : row.nullWhere P = row :=
  ext_getElem? fun i => by simp [getElem?_nullWhere, h i]

theorem nullWhere_nullWhere (P Q : ℕ → Prop) (row : Row) :
    (row.nullWhere P).nullWhere Q = row.nullWhere fun i => P i ∨ Q i := by
  refine ext_getElem? fun i => ?_
  simp only [getElem?_nullWhere, Option.map_map]
  congr 1
  funext value
  by_cases hP : P i <;> by_cases hQ : Q i <;> simp [hP, hQ]

theorem set_null (row : Row) (i : ℕ) : row.set i .null = row.nullWhere (· = i) := by
  refine ext_getElem? fun j => ?_
  rw [getElem?_set, getElem?_nullWhere]
  by_cases hj : j = i
  · subst hj
    by_cases hlen : j < row.length <;> simp [hlen]
  · simp [hj, Ne.symm hj]

theorem foldl_set_null (indexes : List ℕ) (row : Row) :
    indexes.foldl (fun row index => row.set index .null) row = row.nullWhere (· ∈ indexes) := by
  induction indexes generalizing row with
  | nil => exact (nullWhere_of_forall_not (by simp) row).symm
  | cons index indexes ih =>
    rw [foldl_cons, ih, set_null, nullWhere_nullWhere]
    exact congrFun (nullWhere_congr fun i => by simp) row

end Row

variable {P Q : ℕ → Prop} {row : Row} {lookup : String → Option ℕ}

/-- A comparison with a NULL is unknown. -/
theorem evalCheckComparison_nullWhere {node : ComparisonPred} {truth truth' : TriBool}
    (h : evalCheckComparison node row lookup = .ok truth)
    (h' : evalCheckComparison node (row.nullWhere P) lookup = .ok truth') :
    truth' = truth ∨ truth' = .unknown := by
  unfold evalCheckComparison at h h'
  cases hexpr : node.expression with
  | some e => simp [hexpr] at h
  | none =>
    cases hleft : lookup node.column with
    | none => simp [hexpr, hleft] at h
    | some i =>
      simp only [hexpr, hleft, Option.isSome_none, Bool.false_eq_true, if_false] at h h'
      rcases Row.at_nullWhere P row i with hi | hi
      · rw [hi] at h'
        exact Or.inr (Except.ok.inj h').symm
      rw [hi] at h'
      by_cases hnull : (row.at i).isNull = true
      · simp only [hnull, if_true] at h'
        exact Or.inr (Except.ok.inj h').symm
      simp only [hnull] at h h'
      cases hright : node.rhsColumn with
      | none =>
        simp only [hright] at h h'
        exact Or.inl (Except.ok.inj (h'.symm.trans h))
      | some column =>
        simp only [hright] at h h'
        cases hj : lookup column with
        | none => simp [hj] at h
        | some j =>
          simp only [hj] at h h'
          rcases Row.at_nullWhere P row j with hjnull | hjnull
          · rw [hjnull] at h'
            exact Or.inr (Except.ok.inj h').symm
          · rw [hjnull] at h'
            exact Or.inl (Except.ok.inj (h'.symm.trans h))

section ShortCircuit

variable {stop go truth truth' : TriBool} {left left' right right' : Except Error TriBool}

theorem shortCircuit_eq_error {e : Error} (h : shortCircuit stop go left right = .error e) :
    left = .error e ∨ right = .error e := by
  rcases left with e' | l
  · exact Or.inl h
  rcases right with
    e' | r <;> simp only [shortCircuit, bind, Except.bind, pure, Except.pure] at h <;>
    split_ifs at h
  exact Or.inr h

/-- Sides that keep their value or become unknown do the same to the whole. -/
theorem shortCircuit_unknown (hstop : stop ≠ .unknown) (hgo : stop ≠ go)
    (hleft : ∀ l l', left = .ok l → left' = .ok l' → l' = l ∨ l' = .unknown)
    (hright : ∀ r r', right = .ok r → right' = .ok r' → r' = r ∨ r' = .unknown)
    (h : shortCircuit stop go left right = .ok truth)
    (h' : shortCircuit stop go left' right' = .ok truth') : truth' = truth ∨ truth' = .unknown := by
  rcases left with e | l
  · cases h
  rcases left' with e | l'
  · cases h'
  have hl := hleft l l' rfl rfl
  simp only [shortCircuit, bind, Except.bind, pure, Except.pure] at h h'
  rcases right with e | r <;> rcases right' with e' | r' <;> grind

end ShortCircuit

/-- A NULL makes the value of a CHECK predicate unknown or leaves it as it is. -/
theorem evalCheckTri_nullWhere {check : CheckPredicate} {truth truth' : TriBool}
    (h : evalCheckTri row lookup check = .ok truth)
    (h' : evalCheckTri (row.nullWhere P) lookup check = .ok truth') :
    truth' = truth ∨ truth' = .unknown := by
  induction check generalizing truth truth' with
  | comparison node => exact evalCheckComparison_nullWhere h h'
  | and left right ihl ihr =>
    exact shortCircuit_unknown (by decide : TriBool.false ≠ .unknown) (by decide : _ ≠ TriBool.true)
      (fun _ _ => ihl) (fun _ _ => ihr) h h'
  | or left right ihl ihr =>
    exact shortCircuit_unknown (by decide : TriBool.true ≠ .unknown) (by decide : _ ≠ TriBool.false)
      (fun _ _ => ihl) (fun _ _ => ihr) h h'
  | _ => cases h

/-- The only exception of an accepted CHECK predicate is about a column that is not there. -/
theorem column_of_evalCheckTri_eq_error {check : CheckPredicate} {e : Error}
    (hsimple : assertSimpleCheckConstraint check = .ok ())
    (h : evalCheckTri row lookup check = .error e) : ∃ column ∈ collectCheckColumns check,
      lookup column = none ∧ e = .runtimeError ("unknown CHECK column " ++ column) := by
  induction check with
  | comparison node =>
    have hexpr : node.expression = none := by
      by_contra hsome
      simp [assertSimpleCheckConstraint, Option.isSome_iff_ne_none.mpr hsome] at hsimple
    simp only [evalCheckTri, evalCheckComparison, hexpr, throw, throwThe, MonadExceptOf.throw,
      pure, Except.pure] at h
    grind [collectCheckColumns]
  | and left right ihl ihr | or left right ihl ihr =>
    rw [collectCheckColumns]
    rcases hleft : assertSimpleCheckConstraint left with e' | _ <;>
      simp only [assertSimpleCheckConstraint, hleft, bind, Except.bind] at hsimple
    · cases hsimple
    rcases shortCircuit_eq_error h with he | he
    · obtain ⟨column, hcol, herror⟩ := ihl hleft he
      exact ⟨column, mem_append_left _ hcol, herror⟩
    · obtain ⟨column, hcol, herror⟩ := ihr hsimple he
      exact ⟨column, mem_append_right _ hcol, herror⟩
  | _ => cases hsimple

namespace Table

variable {t : Table}

/-- No CHECK predicate of the table throws, whatever the row. -/
def ChecksTotal (t : Table) : Prop :=
  ∀ check ∈ t.checkConstraints, ∀ row, ∃ truth, evalCheckTri row t.columnIndex check = .ok truth

/-- A row that passes the CHECKs passes them with NULL in some cells, if they do not throw then. -/
theorem enforceChecks_nullWhere (hrow : t.enforceCheckConstraints row = .ok ())
    (htotal : ∀ check ∈ t.checkConstraints,
      ∃ truth, evalCheckTri (row.nullWhere P) t.columnIndex check = .ok truth) :
    t.enforceCheckConstraints (row.nullWhere P) = .ok () := by
  refine enforceChecks_eq_ok.mpr fun check hcheck => ?_
  obtain ⟨truth, htruth, hne⟩ := enforceChecks_eq_ok.mp hrow check hcheck
  obtain ⟨truth', htruth'⟩ := htotal check hcheck
  refine ⟨truth', htruth', ?_⟩
  rcases evalCheckTri_nullWhere htruth htruth' with rfl | rfl
  · exact hne
  · simp

/-- Setting cells of nullable columns to NULL keeps a row valid. -/
theorem validateRow_nullWhere (hchecks : t.ChecksTotal) (hrow : t.validateRow row = .ok ())
    (hnullable : ∀ i column, P i → t.schema[i]? = some column → column.nullable = true) :
    t.validateRow (row.nullWhere P) = .ok () := by
  obtain ⟨hlen, hcells, henforce⟩ := validateRow_eq_ok.mp hrow
  refine validateRow_eq_ok.mpr ⟨by simpa using hlen, fun i value column hvalue hcol => ?_,
    enforceChecks_nullWhere henforce fun check hcheck => hchecks check hcheck _⟩
  · rw [Row.getElem?_nullWhere, Option.map_eq_some_iff] at hvalue
    obtain ⟨old, hold, hvalue⟩ := hvalue
    split_ifs at hvalue with hi
    · exact Or.inl ⟨hvalue ▸ rfl, hnullable i column hi hcol⟩
    · exact hvalue ▸ hcells i old column hold hcol

/-- Setting cells to NULL makes an accepted CHECK predicate unknown, leaves its value, or has it
throw for a column that is not there. So a row that passes the CHECKs of a table, which name columns
of the table, passes them after every cell of a SET NULL action. -/
theorem checks_of_setNull (row : Row) :
    (∀ (check : CheckPredicate) (lookup : String → Option ℕ) (P : ℕ → Prop) (truth : TriBool),
      assertSimpleCheckConstraint check = .ok () → evalCheckTri row lookup check = .ok truth →
        (∃ truth', evalCheckTri (row.nullWhere P) lookup check = .ok truth' ∧
          (truth' = truth ∨ truth' = .unknown)) ∨
        ∃ column ∈ collectCheckColumns check, lookup column = none ∧
          evalCheckTri (row.nullWhere P) lookup check =
            .error (.runtimeError ("unknown CHECK column " ++ column))) ∧
    ∀ t : Table, (∀ check ∈ t.checkConstraints, assertSimpleCheckConstraint check = .ok () ∧
        ∀ column ∈ collectCheckColumns check, t.columnIndex column ≠ none) →
      t.enforceCheckConstraints row = .ok () → ∀ (targetIndexes : List ℕ) (done : ℕ),
        t.enforceCheckConstraints
          ((targetIndexes.take done).foldl (fun row index => row.set index .null) row) =
            .ok () := by
  refine ⟨fun check lookup P truth hsimple htruth => ?_, fun t ht hrow targetIndexes done => ?_⟩
  · rcases htruth' : evalCheckTri (row.nullWhere P) lookup check with e | truth'
    · obtain ⟨column, hcol, hnone, rfl⟩ := column_of_evalCheckTri_eq_error hsimple htruth'
      exact Or.inr ⟨column, hcol, hnone, rfl⟩
    · exact Or.inl ⟨truth', rfl, evalCheckTri_nullWhere htruth htruth'⟩
  · rw [Row.foldl_set_null]
    refine enforceChecks_nullWhere hrow fun check hcheck => ?_
    rcases htruth' : evalCheckTri _ t.columnIndex check with e | truth'
    · obtain ⟨column, hcol, hnone, -⟩ := column_of_evalCheckTri_eq_error (ht check hcheck).1 htruth'
      exact absurd hnone ((ht check hcheck).2 column hcol)
    · exact ⟨truth', rfl⟩

/-- A table with `CHECK (a < b OR a = 1)`. -/
def leastOrLess : Table where
  name := "t"
  schema := [{ name := "a", type := .int }, { name := "b", type := .int }]
  checkConstraints := [.or (.comparison { column := "a", op := .less, rhsColumn := some "b" })
    (.comparison { column := "a", op := .equal, value := .int 1 })]

theorem checks_of_setNull_leastOrLess :
    leastOrLess.enforceCheckConstraints [.int 2, .int 3] = .ok () ∧
    ∀ done, leastOrLess.enforceCheckConstraints
      (([0, 1].take done).foldl (fun row index => row.set index .null) [.int 2, .int 3]) = .ok () :=
  ⟨by decide, (checks_of_setNull _).2 leastOrLess (by decide) (by decide) [0, 1]⟩

/-- Rows that agree on a UNIQUE constraint with some cells set to NULL agreed on it before. -/
theorem rowsConflictOnUnique_nullWhere {left right : Row}
    (h : t.rowsConflictOnUnique (left.nullWhere P) (right.nullWhere Q) = true) :
    t.rowsConflictOnUnique left right = true := by
  rw [rowsConflictOnUnique, any_eq_true] at h ⊢
  obtain ⟨constraint, hcon, hequal⟩ := h
  refine ⟨constraint, hcon, ?_⟩
  rw [uniqueRowsEqual, all_eq_true] at hequal ⊢
  intro column hcol
  have hcell := hequal column hcol
  cases hidx : t.columnIndex column with
  | none => simp [hidx] at hcell
  | some i =>
    simp only [hidx, Bool.and_eq_true, Bool.not_eq_true'] at hcell ⊢
    rcases Row.at_nullWhere P left i with hl | hl
    · simp [hl, Value.isNull] at hcell
    rcases Row.at_nullWhere Q right i with hr | hr
    · simp [hr, Value.isNull] at hcell
    rwa [hl, hr] at hcell

end Table

end VertexDB
