import Mathlib.Data.Fin.VecNotation
import Mathlib.Data.Fintype.Basic
import Mathlib.Data.List.TakeWhile
import Mathlib.Tactic.FinCases
import VertexDB.Lib.SemiNaive
import VertexDB.Storage.IndexedTable

/-!
# Materialization of a group of recursive common table expressions

The rounds in which the tables of mutually recursive entries are filled, after
`materializeRecursiveGroup` in `src/execution/subquery_runtime_cte.cpp`. The evaluation of a SELECT
is a parameter. A temporary table is its definition and its rows in the order of insertion; its
indexes are left out. Rows are the same when they are equal or compare as equal.
-/

namespace VertexDB

open Exec List

/-- The result of a SELECT. -/
structure SelectResult where
  success : Bool := true
  message : String := ""
  columns : List String
  rows : List Row

/-- A temporary table. -/
structure TempTable where
  definition : Table
  rows : List Row := []

/-- `Table::insert` of several rows into a table without unique keys. -/
def TempTable.insertAll (t : TempTable) (rows : List Row) : Except Error TempTable := do
  rows.forM t.definition.validateRow
  return { t with rows := t.rows ++ rows }

/-- The type of a column: that of its first value that is not NULL. -/
def columnTypeOf (rows : List Row) (i : ℕ) : Except Error ColumnType :=
  ((rows.map (·.at i)).find? (!·.isNull)).elim (pure .int) Value.type

/-- The name of a column without its qualifier: what stands after the last dot. -/
def bareName (columnName : String) : String :=
  String.ofList (columnName.toList.reverse.takeWhile (· ≠ '.')).reverse

/-- `tableFromQueryResult`. -/
def tableFromQueryResult (name : String) (bodyResult : SelectResult) : Except Error TempTable := do
  if !bodyResult.success then throw (.runtimeError bodyResult.message)
  let schema ← bodyResult.columns.zipIdx.mapM fun column => do
    let type ← columnTypeOf bodyResult.rows column.2
    return ({ name := bareName column.1, type, nullable := true } : Column)
  if schema = [] then throw (.runtimeError "materialized CTE produced no columns")
  TempTable.insertAll { definition := ← Table.construct name schema [] [] [] } bodyResult.rows

/-- The rows of a list that `seen.insert` finds new, one after another. -/
def newRows : (seen rows : List Row) → List Row
  | _, [] => []
  | seen, row :: rows =>
    if seen.any (Value.beqParts row) then newRows seen rows else row :: newRows (seen ++ [row]) rows

/-- `deduplicateRows`. -/
def deduplicateRows (rows : List Row) : List Row := newRows [] rows

/-- `RecursiveCteLimits`. -/
structure RecursiveCteLimits where
  maxIterations : ℕ := 1000
  maxRows : ℕ := 100000

/-- The parts of a `CteEntry` that are evaluated; `S` is the type of SELECTs. -/
structure GroupEntry (S : Type) where
  name : String
  body : Option S
  recursiveArm : Option S
  recursiveDistinct : Bool := true
  recursiveBindAccumulator : Bool := false

/-- `RecursiveWorking`. -/
structure RecursiveWorking (S : Type) where
  cte : GroupEntry S
  arm : S
  result : TempTable
  delta : TempTable
  seen : List Row

/-- The tables by their names. -/
abbrev Temps := String → Option TempTable

section Model

variable {S : Type} (evaluate : S → Temps → Except Error SelectResult) (limits : RecursiveCteLimits)
  (extraTemps : Temps)

/-- A loop over the places of a vector that fills another one. -/
def fillVector {α : Type} : {n : ℕ} → (Fin n → Except Error α) → Except Error (Fin n → α)
  | 0, _ => pure Fin.elim0
  | _ + 1, f => do
    let first ← f 0
    let rest ← fillVector fun i => f i.succ
    return Fin.cons first rest

/-- The start of the loop over the group: the anchor of an entry. -/
def startWorking (cte : GroupEntry S) : Except Error (RecursiveWorking S) :=
  match cte.body, cte.recursiveArm with
  | some body, some arm => do
    let anchor ← evaluate body extraTemps
    let rows := if cte.recursiveDistinct then deduplicateRows anchor.rows else anchor.rows
    let result ← tableFromQueryResult cte.name { anchor with rows }
    let delta ← tableFromQueryResult (cte.name ++ "#delta") { anchor with rows }
    return ⟨cte, arm, result, delta, if cte.recursiveDistinct then deduplicateRows rows else []⟩
  | _, _ => throw (.runtimeError "recursive CTE is missing a recursive arm")

/-- The rows of a step that are kept, and the rows seen then. -/
def keepNew (w : RecursiveWorking S) (step : SelectResult) : RecursiveWorking S × SelectResult :=
  if w.cte.recursiveDistinct then
    let rows := newRows w.seen step.rows
    ({ w with seen := w.seen ++ rows }, { step with rows })
  else (w, step)

/-- The rows of a step are inserted and become the delta. -/
def absorb (entry : RecursiveWorking S × SelectResult) : Except Error (RecursiveWorking S) := do
  let columns := entry.1.result.definition.schema.map Column.name
  let result ← entry.1.result.insertAll entry.2.rows
  let delta ← tableFromQueryResult (entry.1.cte.name ++ "#delta") { entry.2 with columns }
  return { entry.1 with result, delta }

variable {n : ℕ} (group : Fin n → GroupEntry S)

/-- The tables of the group under their names. -/
def bindTables (tables : Fin n → TempTable) : Temps :=
  (List.finRange n).foldl (fun temps i => Function.update temps (group i).name (some (tables i)))
    extraTemps

/-- The loop of `materializeRecursiveGroup`, with `left` iterations left. -/
def iterate : (left : ℕ) → (Fin n → RecursiveWorking S) → Except Error (Fin n → RecursiveWorking S)
  | 0, workings => pure workings
  | left + 1, workings => do
    if ∀ i, (workings i).delta.rows = [] then return workings
    let temps := bindTables extraTemps group fun i =>
      if (workings i).cte.recursiveBindAccumulator then (workings i).result else (workings i).delta
    let steps ← fillVector fun i => evaluate (workings i).arm temps
    let kept := fun i => keepNew (workings i) (steps i)
    if ((List.finRange n).map fun i => (kept i).1.result.rows.length + (kept i).2.rows.length).sum >
        limits.maxRows then
      throw (.runtimeError "WITH RECURSIVE exceeded maximum row count")
    let workings ← fillVector fun i => absorb (kept i)
    if left = 0 ∧ ∃ i, (workings i).delta.rows ≠ [] then
      throw (.runtimeError "WITH RECURSIVE exceeded maximum iteration count")
    iterate left workings

/-- `materializeRecursiveGroup`. -/
def materializeRecursiveGroup : Except Error (Fin n → String × TempTable) := do
  if n = 0 then throw (.runtimeError "recursive CTE group is empty")
  let workings ← fillVector fun i => startWorking evaluate extraTemps (group i)
  let workings ← iterate evaluate limits extraTemps group limits.maxIterations workings
  return fun i => ((workings i).cte.name, (workings i).result)

end Model

section Rows

/-- The rows that are the same as one of a list. -/
def relation (rows : List Row) : Set Row := { x | ∃ y ∈ rows, x = y ∨ Value.beqParts x y = true }

variable {rows : List Row}

theorem relation_append (rows rows' : List Row) :
    relation (rows ++ rows') = relation rows ∪ relation rows' := by
  ext x
  simp [relation, or_and_right, exists_or]

theorem relation_nonempty : (relation rows).Nonempty ↔ rows ≠ [] :=
  ⟨fun h => h.elim fun _ h => h.elim fun _ h => ne_nil_of_mem h.1, fun h =>
    ⟨rows.head h, rows.head h, head_mem h, Or.inl rfl⟩⟩

theorem subset_relation {rows' : List Row} (h : ∀ y ∈ rows, y ∈ relation rows') :
    relation rows ⊆ relation rows' := by
  rintro x ⟨y, hy, hsame⟩
  obtain ⟨z, hz, hsame'⟩ := h y hy
  refine ⟨z, hz, ?_⟩
  rcases hsame with rfl | hxy
  · exact hsame'
  · exact Or.inr (hsame'.elim (fun h => h ▸ hxy) fun hyz => Value.beqParts_trans hxy hyz)

theorem mem_of_mem_newRows (seen : List Row) {x : Row} (h : x ∈ newRows seen rows) : x ∈ rows := by
  fun_induction newRows seen rows with
  | case1 => exact h
  | case2 seen row rows hseen ih => exact mem_cons_of_mem row (ih h)
  | case3 seen row rows hseen ih =>
    exact (mem_cons.mp h).elim (· ▸ mem_cons_self) fun h => mem_cons_of_mem row (ih h)

/-- Every row is the same as one seen before or a new one. -/
theorem mem_relation_newRows (seen : List Row) :
    ∀ x ∈ rows, x ∈ relation (seen ++ newRows seen rows) := by
  fun_induction newRows seen rows with
  | case1 => simp
  | case2 seen row rows hseen ih =>
    refine forall_mem_cons.mpr ⟨?_, ih⟩
    obtain ⟨y, hy, hsame⟩ := any_eq_true.mp hseen
    exact ⟨y, mem_append_left _ hy, Or.inr hsame⟩
  | case3 seen row rows hseen ih =>
    refine forall_mem_cons.mpr ⟨⟨row, by simp, Or.inl rfl⟩, fun x hx => ?_⟩
    simpa using ih x hx

/-- No two of the rows compare as equal. -/
def Distinct (rows : List Row) : Prop := rows.Pairwise fun x y => Value.beqParts x y = false

theorem distinct_newRows {seen : List Row} (h : Distinct seen) :
    Distinct (seen ++ newRows seen rows) := by
  fun_induction newRows seen rows with
  | case1 => simpa using h
  | case2 seen row rows hseen ih => exact ih h
  | case3 seen row rows hseen ih =>
    rw [append_cons]
    refine ih (pairwise_append.mpr ⟨h, pairwise_singleton _ _, fun x hx y hy => ?_⟩)
    obtain rfl := mem_singleton.mp hy
    rw [Value.beqParts_comm]
    simpa using any_eq_false.mp (Bool.not_eq_true _ ▸ hseen) x hx

theorem newRows_eq_self {seen : List Row} (h : Distinct (seen ++ rows)) :
    newRows seen rows = rows := by
  induction rows generalizing seen with
  | nil => rfl
  | cons row rows ih =>
    have hnew : ¬seen.any (Value.beqParts row) = true := by
      simp only [any_eq_true, not_exists, not_and, Bool.not_eq_true]
      intro x hx
      rw [Value.beqParts_comm]
      exact (pairwise_append.mp h).2.2 x hx row mem_cons_self
    rw [newRows, if_neg hnew, ih (by simpa using h)]

end Rows

section Rounds

variable {S : Type} {evaluate : S → Temps → Except Error SelectResult} {limits : RecursiveCteLimits}
  {extraTemps : Temps} {w w' : RecursiveWorking S}

theorem of_fillVector {α : Type} {n : ℕ} {f : Fin n → Except Error α} {g : Fin n → α}
    (h : fillVector f = .ok g) (i : Fin n) : f i = .ok (g i) := by
  induction n with
  | zero => exact i.elim0
  | succ n ih =>
    obtain ⟨first, hfirst, h⟩ := except_bind_eq_ok.mp h
    obtain ⟨rest, hrest, h⟩ := except_bind_eq_ok.mp h
    obtain rfl := Except.ok.inj h
    exact Fin.cases hfirst (fun i => ih hrest i) i

/-- A table with these columns, and rows of their number. -/
def TempTable.HasColumns (t : TempTable) (columns : List String) : Prop :=
  t.definition.schema.map Column.name = columns ∧ ∀ row ∈ t.rows, row.length = columns.length

theorem of_insertAll {t t' : TempTable} {rows : List Row} (h : t.insertAll rows = .ok t') :
    t'.rows = t.rows ++ rows ∧ ∀ columns, t.HasColumns columns → t'.HasColumns columns := by
  obtain ⟨_, hvalid, h⟩ := except_bind_eq_ok.mp h
  obtain rfl := Except.ok.inj h
  refine ⟨rfl, fun columns hcols => ⟨hcols.1, fun row hrow => ?_⟩⟩
  rcases mem_append.mp hrow with hrow | hrow
  · exact hcols.2 row hrow
  · rw [Table.length_of_validateRow (forM_except_eq_ok.mp hvalid row hrow), ← hcols.1, length_map]

theorem bareName_bareName (columnName : String) :
    bareName (bareName columnName) = bareName columnName := by
  simp [bareName, takeWhile_takeWhile]

theorem of_tableFromQueryResult {name : String} {r : SelectResult} {t : TempTable}
    (h : tableFromQueryResult name r = .ok t) :
    t.rows = r.rows ∧ t.HasColumns (r.columns.map bareName) := by
  rw [tableFromQueryResult] at h
  split at h
  · cases h
  obtain ⟨schema, hschema, h⟩ := except_bind_eq_ok.mp h
  split at h
  · cases h
  obtain ⟨definition, hnew, h⟩ := except_bind_eq_ok.mp h
  obtain ⟨hrows, hcols⟩ := of_insertAll h
  obtain ⟨_, _, -, hunique, -, rfl⟩ := Table.construct_eq_ok hnew
  obtain rfl := Except.ok.inj hunique
  have hnames : schema.map Column.name = r.columns.zipIdx.map (bareName ∘ Prod.fst) :=
    map_of_mapM_eq_ok (fun column made hmade => by
      obtain ⟨_, -, hmade⟩ := except_bind_eq_ok.mp hmade
      exact (Except.ok.inj hmade) ▸ rfl) hschema
  refine ⟨hrows, hcols _ ⟨hnames.trans ?_, by simp⟩⟩
  rw [← map_map, zipIdx_map_fst]

/-- The new rows of a step go into the table, the delta and the rows seen. -/
theorem absorb_keepNew {step : SelectResult} (hdistinct : w.cte.recursiveDistinct = true)
    (h : absorb (keepNew w step) = .ok w') :
    w'.cte = w.cte ∧ w'.arm = w.arm ∧ w'.result.rows = w.result.rows ++ newRows w.seen step.rows ∧
      w'.delta.rows = newRows w.seen step.rows ∧ w'.seen = w.seen ++ newRows w.seen step.rows := by
  rw [keepNew, if_pos hdistinct] at h
  obtain ⟨result, hresult, h⟩ := except_bind_eq_ok.mp h
  obtain ⟨delta, hdelta, h⟩ := except_bind_eq_ok.mp h
  obtain rfl := Except.ok.inj h
  exact ⟨rfl, rfl, (of_insertAll hresult).1, (of_tableFromQueryResult hdelta).1, rfl⟩

/-- A step keeps the columns of the table, and the delta gets them. -/
theorem hasColumns_absorb {entry : RecursiveWorking S × SelectResult} {columns : List String}
    (hcols : entry.1.result.HasColumns columns) (hbare : columns.map bareName = columns)
    (h : absorb entry = .ok w') : w'.result.HasColumns columns ∧ w'.delta.HasColumns columns := by
  obtain ⟨result, hresult, h⟩ := except_bind_eq_ok.mp h
  obtain ⟨delta, hdelta, h⟩ := except_bind_eq_ok.mp h
  obtain rfl := Except.ok.inj h
  have hnew := (of_tableFromQueryResult hdelta).2
  rw [hcols.1, hbare] at hnew
  exact ⟨(of_insertAll hresult).2 columns hcols, hnew⟩

variable {n : ℕ} {group : Fin n → GroupEntry S} {columns : Fin n → List String}
  {A : Fin n → Set Row}
  {F : (Fin n → Set Row) → Fin n → Set Row} (hF : ∀ X Y, F (X ⊔ Y) = F X ⊔ F Y)
  {workings workings' : Fin n → RecursiveWorking S}

/-- The anchors have the given columns and the relations `A`. From tables with these columns under
the names of the group the arms compute `F` of the relations of the tables. -/
structure Evaluates (evaluate : S → Temps → Except Error SelectResult) (extraTemps : Temps)
    (group : Fin n → GroupEntry S) (columns : Fin n → List String) (A : Fin n → Set Row)
    (F : (Fin n → Set Row) → Fin n → Set Row) : Prop where
  anchor : ∀ i body r, (group i).body = some body → evaluate body extraTemps = .ok r →
    r.columns.map bareName = columns i ∧ relation r.rows = A i
  arm : ∀ i arm tables r, (group i).recursiveArm = some arm →
    (∀ j, (tables j).HasColumns (columns j)) →
    evaluate arm (bindTables extraTemps group tables) = .ok r →
    relation r.rows = F (fun j => relation (tables j).rows) i

/-- What holds between the rounds. -/
structure Running (group : Fin n → GroupEntry S) (columns : Fin n → List String)
    (A : Fin n → Set Row) (hF : ∀ X Y, F (X ⊔ Y) = F X ⊔ F Y)
    (workings : Fin n → RecursiveWorking S) : Prop where
  cte : ∀ i, (workings i).cte = group i ∧ (group i).recursiveArm = some (workings i).arm
  bare : ∀ i, (columns i).map bareName = columns i
  columns : ∀ i, (workings i).result.HasColumns (columns i) ∧
    (workings i).delta.HasColumns (columns i)
  seen : ∀ i, (workings i).seen = (workings i).result.rows ∧ Distinct (workings i).result.rows
  progress : SemiNaive.Partial hF A (fun i => relation (workings i).result.rows) fun i =>
    relation (workings i).delta.rows

variable (hgroup : ∀ i, (group i).recursiveDistinct = true)
  (heval : Evaluates evaluate extraTemps group columns A F)
include hgroup heval

/-- Before the first round the tables and the deltas are the anchors. -/
theorem running_start
    (h : fillVector (fun i => startWorking evaluate extraTemps (group i)) = .ok workings) :
    Running group columns A hF workings ∧ (fun i => relation (workings i).result.rows) = A ∧
      (fun i => relation (workings i).delta.rows) = A := by
  have hspec : ∀ i, ((workings i).cte = group i ∧ (group i).recursiveArm = some (workings i).arm) ∧
      ((workings i).seen = (workings i).result.rows ∧ Distinct (workings i).result.rows) ∧
      (relation (workings i).result.rows = A i ∧ relation (workings i).delta.rows = A i) ∧
      (columns i).map bareName = columns i ∧ (workings i).result.HasColumns (columns i) ∧
      (workings i).delta.HasColumns (columns i) := by
    intro i
    have hw := of_fillVector h i
    rw [startWorking] at hw
    split at hw
    · rename_i body arm hbody harm
      obtain ⟨r, hr, hw⟩ := except_bind_eq_ok.mp hw
      obtain ⟨result, hresult, hw⟩ := except_bind_eq_ok.mp hw
      obtain ⟨delta, hdelta, hw⟩ := except_bind_eq_ok.mp hw
      have hdist : Distinct (deduplicateRows r.rows) := distinct_newRows (.nil : Distinct [])
      obtain ⟨hcols, hrows⟩ := heval.anchor i body r hbody hr
      have hrelation : relation (deduplicateRows r.rows) = A i := by
        rw [← hrows]
        refine Set.Subset.antisymm (subset_relation fun x hx => ?_) (subset_relation ?_)
        · exact ⟨x, mem_of_mem_newRows [] hx, Or.inl rfl⟩
        · exact mem_relation_newRows []
      simp only [hgroup i, if_true] at hresult hdelta hw
      obtain ⟨hresult, hrescols⟩ := of_tableFromQueryResult hresult
      obtain ⟨hdelta, hdelcols⟩ := of_tableFromQueryResult hdelta
      rw [← Except.ok.inj hw]
      refine ⟨⟨rfl, harm⟩, ⟨(newRows_eq_self hdist).trans hresult.symm, hresult ▸ hdist⟩,
        ⟨hresult ▸ hrelation, hdelta ▸ hrelation⟩, ?_, hcols ▸ hrescols, hcols ▸ hdelcols⟩
      simp [← hcols, bareName_bareName]
    · cases hw
  have hresult := funext fun i => (hspec i).2.2.1.1
  have hdelta := funext fun i => (hspec i).2.2.1.2
  refine ⟨⟨fun i => (hspec i).1, fun i => (hspec i).2.2.2.1, fun i => (hspec i).2.2.2.2,
    fun i => (hspec i).2.1, ?_⟩, hresult, hdelta⟩
  rw [hresult, hdelta]
  exact SemiNaive.partial_start hF A

theorem Running.round (h : Running group columns A hF workings) {steps : Fin n → SelectResult}
    (hsteps : fillVector (fun i => evaluate (workings i).arm (bindTables extraTemps group fun i =>
      if (workings i).cte.recursiveBindAccumulator then (workings i).result
        else (workings i).delta)) =
        .ok steps)
    (habsorb : fillVector (fun i => absorb (keepNew (workings i) (steps i))) = .ok workings') :
    Running group columns A hF workings' ∧ F ⊥ ≤ fun i => relation (workings' i).result.rows := by
  have hnew := fun i => absorb_keepNew ((h.cte i).1 ▸ hgroup i) (of_fillVector habsorb i)
  have harm := fun i => heval.arm i _ _ _ (h.cte i).2 (fun j => by
    split_ifs
    exacts [(h.columns j).1, (h.columns j).2]) (of_fillVector hsteps i)
  set b : Fin n → Set Row := fun j => relation
    (if (workings j).cte.recursiveBindAccumulator then (workings j).result
      else (workings j).delta).rows
    with hb
  have hfound : (fun i => relation (workings' i).result.rows) =
      (fun i => relation (workings i).result.rows) ⊔ fun i =>
        relation (workings' i).delta.rows := by
    funext i
    rw [(hnew i).2.2.1, relation_append, ← (hnew i).2.2.2.1]
    rfl
  have hall : F b ≤ (fun i => relation (workings i).result.rows) ⊔ fun i =>
      relation (workings' i).delta.rows := by
    intro i
    rw [← harm i, ← hfound]
    show relation (steps i).rows ⊆ relation (workings' i).result.rows
    rw [(hnew i).2.2.1, ← (h.seen i).1]
    exact subset_relation (mem_relation_newRows _)
  have hbound : (fun i => relation (workings i).delta.rows) ≤ b ∧
      b ≤ fun i => relation (workings i).result.rows := by
    refine ⟨fun i => ?_, fun i => ?_⟩ <;> simp only [hb] <;> split_ifs
    · exact h.progress.new_le i
    · exact le_rfl
    · exact le_rfl
    · exact h.progress.new_le i
  refine ⟨⟨fun i => ?_, h.bare, fun i => ?_, fun i => ?_, ?_⟩, ?_⟩
  · rw [(hnew i).1, (hnew i).2.1]
    exact h.cte i
  · refine hasColumns_absorb ?_ (h.bare i) (of_fillVector habsorb i)
    rw [keepNew]
    split_ifs <;> exact (h.columns i).1
  · rw [(hnew i).2.2.2.2, (hnew i).2.2.1, (h.seen i).1]
    exact ⟨rfl, distinct_newRows (h.seen i).2⟩
  · rw [hfound]
    refine h.progress.round hF hbound.1 hbound.2 (fun i => ?_) hall
    rw [← harm i, (hnew i).2.2.2.1]
    exact subset_relation fun x hx => ⟨x, mem_of_mem_newRows _ hx, Or.inl rfl⟩
  · rw [hfound]
    exact (SemiNaive.monotone hF bot_le).trans hall

/-- A run of the loop makes no round, or it ends when nothing is new. -/
theorem Running.iterate (h : Running group columns A hF workings) {left : ℕ}
    (hrun : iterate evaluate limits extraTemps group left workings = .ok workings') :
    Running group columns A hF workings' ∧
      ((left = 0 ∨ ∀ i, (workings i).delta.rows = []) ∧ workings' = workings ∨
        ¬(left = 0 ∨ ∀ i, (workings i).delta.rows = []) ∧ (∀ i, (workings' i).delta.rows = []) ∧
          F ⊥ ≤ fun i => relation (workings' i).result.rows) := by
  induction left generalizing workings with
  | zero =>
    obtain rfl := Except.ok.inj hrun
    exact ⟨h, Or.inl ⟨Or.inl rfl, rfl⟩⟩
  | succ left ih =>
    rw [VertexDB.iterate] at hrun
    split at hrun
    · rename_i hempty
      obtain rfl := Except.ok.inj hrun
      exact ⟨h, Or.inl ⟨Or.inr hempty, rfl⟩⟩
    rename_i hsome
    obtain ⟨steps, hsteps, hrun⟩ := except_bind_eq_ok.mp hrun
    dsimp only at hrun
    split at hrun
    · cases hrun
    obtain ⟨next, hnext, hrun⟩ := except_bind_eq_ok.mp hrun
    split at hrun
    · cases hrun
    rename_i hgrowing
    obtain ⟨hround, hbot⟩ := h.round hF hgroup heval hsteps hnext
    obtain ⟨h', hend⟩ := ih hround hrun
    refine ⟨h', Or.inr ⟨by simpa using hsome, ?_⟩⟩
    rcases hend with ⟨hstop, rfl⟩ | ⟨-, hend⟩
    · refine ⟨hstop.elim (fun hleft => ?_) id, hbot⟩
      simpa [hleft] using hgrowing
    · exact hend

end Rounds

/-- The tables of a group of UNION entries whose arms keep unions hold the least fixpoint without
duplicates just when a round is made or the anchors are closed under the arms. No round is made when
all anchors are empty, whatever the arms return then. -/
theorem materializeRecursiveGroup_closure_iff {S : Type}
    (evaluate : S → Temps → Except Error SelectResult) (limits : RecursiveCteLimits)
    (extraTemps : Temps) {n : ℕ} (group : Fin n → GroupEntry S)
    (hgroup : ∀ i, (group i).recursiveDistinct = true) (columns : Fin n → List String)
    (A : Fin n → Set Row) (F : (Fin n → Set Row) → Fin n → Set Row)
    (hF : ∀ X Y, F (X ⊔ Y) = F X ⊔ F Y) (heval : Evaluates evaluate extraTemps group columns A F)
    (out : Fin n → String × TempTable)
    (hout : materializeRecursiveGroup evaluate limits extraTemps group = .ok out) :
    (∀ i, Distinct (out i).2.rows ∧ relation (out i).2.rows = SemiNaive.closure hF A i) ↔
      (0 < limits.maxIterations ∧ ∃ i, (A i).Nonempty) ∨ F A ≤ A := by
  rw [materializeRecursiveGroup] at hout
  split at hout
  · cases hout
  obtain ⟨workings, hstart, hout⟩ := except_bind_eq_ok.mp hout
  obtain ⟨workings', hrun, hout⟩ := except_bind_eq_ok.mp hout
  obtain rfl := Except.ok.inj hout
  obtain ⟨h, hresult, hdelta⟩ := running_start hF hgroup heval hstart
  obtain ⟨h', hend⟩ := h.iterate hF hgroup heval hrun
  have hgoal : (∀ i, Distinct (workings' i).result.rows ∧
      relation (workings' i).result.rows = SemiNaive.closure hF A i) ↔
      (fun i => relation (workings' i).result.rows) = SemiNaive.closure hF A :=
    ⟨fun hall => funext fun i => (hall i).2, fun heq i => ⟨(h'.seen i).2, congrFun heq i⟩⟩
  have hrounds : (0 < limits.maxIterations ∧ ∃ i, (A i).Nonempty) ↔
      ¬(limits.maxIterations = 0 ∨ ∀ i, (workings i).delta.rows = []) := by
    simp [← hdelta, relation_nonempty, Nat.pos_iff_ne_zero]
  rw [hrounds]
  refine hgoal.trans ?_
  rcases hend with ⟨hstop, rfl⟩ | ⟨hran, hempty, hbot⟩
  · -- the tables are the anchors
    rw [hresult, or_iff_right (not_not_intro hstop)]
    refine ⟨fun heq => ?_, fun hclosed => ?_⟩
    · rw [heq]
      exact le_sup_right.trans (SemiNaive.closure_eq hF).le
    · exact le_antisymm (SemiNaive.partial_start hF A).le_closure
        (SemiNaive.closure_le hF le_rfl hclosed)
  · have hnone : (fun i => relation (workings' i).delta.rows) = ⊥ := funext fun i => by
      rw [hempty i]
      exact Set.not_nonempty_iff_eq_empty.mp (relation_nonempty.not.mpr (by simp))
    exact iff_of_true (SemiNaive.Partial.eq_closure hF (hnone ▸ h'.progress) hbot) (Or.inl hran)

/-- VALUES with one column `id`, or the column of a table by its name. -/
inductive ColumnSelect
  | values (rows : List Row)
  | column (tableName columnName : String)

/-- The evaluation of these SELECTs. -/
def ColumnSelect.evaluate : ColumnSelect → Temps → Except Error SelectResult
  | .values rows, _ => pure { columns := ["id"], rows }
  | .column tableName columnName, temps => do
    match (temps tableName).bind fun t => (t.definition.columnIndex columnName).map (t, ·) with
    | none => throw (.runtimeError "unknown column")
    | some (t, i) =>
      pure { columns := [tableName ++ "." ++ columnName], rows := t.rows.map fun row => [row.at i] }

/-- Two entries that start with a row each and take the rows of one another. -/
def mutualGroup : Fin 2 → GroupEntry ColumnSelect :=
  ![⟨"a", some (.values [[.int 1]]), some (.column "b" "id"), true, false⟩,
    ⟨"b", some (.values [[.int 2]]), some (.column "a" "id"), true, true⟩]

/-- The column of a table that has no other one. -/
theorem ColumnSelect.rows_of_evaluate {tableName : String} {temps : Temps} {t : TempTable}
    (htemps : temps tableName = some t) (ht : t.HasColumns ["id"]) {r : SelectResult}
    (h : evaluate (.column tableName "id") temps = .ok r) : r.rows = t.rows := by
  obtain ⟨hnames, hwidth⟩ := ht
  obtain ⟨column, hschema, hname⟩ := map_eq_singleton_iff.mp hnames
  have hindex : t.definition.columnIndex "id" = some 0 := by
    simp [Table.columnIndex, findColumn, hschema, hname]
  rw [evaluate, htemps, Option.bind_some, hindex] at h
  obtain rfl := Except.ok.inj h
  refine (map_congr_left fun row hrow => ?_).trans (map_id _)
  obtain ⟨value, rfl⟩ := length_eq_one_iff.mp (hwidth row hrow)
  rfl

theorem evaluates_mutualGroup : Evaluates ColumnSelect.evaluate (fun _ => none) mutualGroup
    (fun _ => ["id"]) ![relation [[.int 1]], relation [[.int 2]]] fun X i => X i.rev := by
  constructor
  · intro i body r hbody hr
    fin_cases i <;> cases hbody <;> obtain rfl := Except.ok.inj hr <;> exact ⟨rfl, rfl⟩
  · intro i arm tables r harm hcols hr
    fin_cases i <;> cases harm
    · rw [ColumnSelect.rows_of_evaluate rfl (hcols 1) hr]
      rfl
    · rw [ColumnSelect.rows_of_evaluate rfl (hcols 0) hr]
      rfl

/-- Each of the two tables gets the row of the other one. -/
theorem materializeRecursiveGroup_mutual : ∃ out,
    materializeRecursiveGroup ColumnSelect.evaluate {} (fun _ => none) mutualGroup = .ok out ∧
    ((out 0).2.rows = [[.int 1], [.int 2]] ∧ (out 1).2.rows = [[.int 2], [.int 1]]) ∧
    ∀ i, Distinct (out i).2.rows ∧ relation (out i).2.rows =
      SemiNaive.closure (F := fun X i => X i.rev) (fun _ _ => rfl)
        ![relation [[.int 1]], relation [[.int 2]]] i :=
  ⟨_, rfl, ⟨rfl, rfl⟩, (materializeRecursiveGroup_closure_iff ColumnSelect.evaluate {} _ mutualGroup
    (by decide) _ _ _ _ evaluates_mutualGroup _ rfl).mpr
      (Or.inl ⟨by decide, 0, relation_nonempty.mpr (by simp)⟩)⟩

/-- With an empty anchor the table stays empty, and the least fixpoint has the row of the arm. -/
theorem not_closure_constant :
    let group : Fin 1 → GroupEntry ColumnSelect :=
      fun _ => ⟨"r", some (.values []), some (.values [[.int 1]]), true, false⟩
    ∃ out, materializeRecursiveGroup ColumnSelect.evaluate {} (fun _ => none) group = .ok out ∧
      (out 0).2.rows = [] ∧
      Evaluates ColumnSelect.evaluate (fun _ => none) group (fun _ => ["id"]) (fun _ => relation [])
        (fun _ _ => relation [[.int 1]]) ∧
      [.int 1] ∈ SemiNaive.closure (F := fun _ _ => relation [[.int 1]])
        (fun _ _ => (sup_idem _).symm) (fun _ : Fin 1 => relation []) 0 := by
  refine ⟨_, rfl, rfl, ⟨?_, ?_⟩, ?_⟩
  · rintro i _ r ⟨⟩ ⟨⟩
    exact ⟨rfl, rfl⟩
  · rintro i _ tables r ⟨⟩ - ⟨⟩
    rfl
  · rw [← SemiNaive.closure_eq]
    exact Or.inr ⟨_, mem_singleton_self _, Or.inl rfl⟩

end VertexDB
