import VertexDB.Execution.PredicateEval
import VertexDB.Planner.QueryPlanner
import Mathlib.Data.List.Sort
import Mathlib.Data.List.TakeWhile

/-!
# Scans

The execution of a plan on one table, as in `src/execution/select_engine_scan.cpp` and
`select_engine_bitmap.cpp`: the row ids of the index probes, the visible rows among them and the
residual filters.
-/

namespace VertexDB

open List MvccRowStore

section SortedLists

/-- `std::set_intersection`. -/
def setIntersection : List ℕ → List ℕ → List ℕ
  | [], _ => []
  | a :: as, bs =>
    match bs.dropWhile (· < a) with
    | [] => []
    | b :: rest =>
      if a < b then setIntersection as (b :: rest) else a :: setIntersection as rest

/-- `std::set_union`. -/
def setUnion : List ℕ → List ℕ → List ℕ
  | [], bs => bs
  | a :: as, bs =>
    bs.takeWhile (· < a) ++ a ::
      match bs.dropWhile (· < a) with
      | [] => as
      | b :: rest => if a < b then setUnion as (b :: rest) else setUnion as rest

variable {as bs rest : List ℕ} {a b x : ℕ}

private theorem le_of_dropWhile_eq_cons (h : bs.dropWhile (· < a) = b :: rest) : a ≤ b := by
  have hhead := head_dropWhile_not (p := fun x : ℕ => decide (x < a)) (l := bs) (by simp [h])
  simpa [h] using hhead

/-- What is left of a sorted list behind the bound, without one occurrence of it. -/
private theorem erase_of_dropWhile_eq_cons (hbs : bs.Pairwise (· ≤ ·))
    (h : bs.dropWhile (· < a) = b :: rest) :
    (b :: rest).erase a = if a < b then b :: rest else rest := by
  have hsorted := hbs.sublist (dropWhile_sublist (· < a))
  rw [h] at hsorted
  have hb := le_of_dropWhile_eq_cons h
  split
  · refine erase_of_not_mem fun ha => ?_
    rcases mem_cons.mp ha with rfl | ha
    · omega
    · have := (pairwise_cons.mp hsorted).1 a ha
      omega
  · obtain rfl : b = a := by omega
    rw [erase_cons_head]

theorem setUnion_cons (hbs : bs.Pairwise (· ≤ ·)) : setUnion (a :: as) bs =
    bs.takeWhile (· < a) ++ a :: setUnion as ((bs.dropWhile (· < a)).erase a) := by
  rw [setUnion]
  rcases hdrop : bs.dropWhile (· < a) with _ | ⟨b, rest⟩
  · cases as <;> simp [setUnion]
  · rw [erase_of_dropWhile_eq_cons hbs hdrop]
    simp only
    split <;> rfl

theorem setIntersection_cons (hbs : bs.Pairwise (· ≤ ·)) : setIntersection (a :: as) bs =
    if a ∈ bs.dropWhile (· < a) then a :: setIntersection as ((bs.dropWhile (· < a)).erase a)
    else setIntersection as ((bs.dropWhile (· < a)).erase a) := by
  rw [setIntersection]
  rcases hdrop : bs.dropWhile (· < a) with _ | ⟨b, rest⟩
  · cases as <;> simp [setIntersection]
  · have herase := erase_of_dropWhile_eq_cons hbs hdrop
    have hmem : a ∈ b :: rest ↔ ¬a < b := by
      refine ⟨fun ha hab => ?_, fun hab => ?_⟩
      · rw [if_pos hab] at herase
        have := length_erase_of_mem ha
        rw [herase, length_cons] at this
        omega
      · obtain rfl : b = a := by
          have := le_of_dropWhile_eq_cons hdrop
          omega
        exact mem_cons_self
    rw [herase]
    simp only [hmem]
    split <;> rfl

private theorem count_takeWhile (bs : List ℕ)
    (hax : a ≤ x) : (bs.takeWhile (· < a)).count x = 0 := by
  refine count_eq_zero_of_not_mem fun hx => ?_
  have := mem_takeWhile_imp hx
  simp only [decide_eq_true_eq] at this
  omega

private theorem count_takeWhile_add (bs : List ℕ) (a x : ℕ) :
    (bs.takeWhile (· < a)).count x + (bs.dropWhile (· < a)).count x = bs.count x := by
  rw [← count_append, takeWhile_append_dropWhile]

private theorem count_eq_zero_of_lt (has : ∀ y ∈ as, a ≤ y) (hxa : x < a) : as.count x = 0 :=
  count_eq_zero_of_not_mem fun hx => absurd (has x hx) (not_le.mpr hxa)

private theorem le_of_mem_dropWhile (hbs : bs.Pairwise (· ≤ ·)) (hx : x ∈ bs.dropWhile (· < a)) :
    a ≤ x := by
  have hsorted := hbs.sublist (dropWhile_sublist (· < a))
  rcases hdrop : bs.dropWhile (· < a) with _ | ⟨b, rest⟩
  · simp [hdrop] at hx
  · rw [hdrop] at hsorted hx
    have hb := le_of_dropWhile_eq_cons hdrop
    rcases mem_cons.mp hx with rfl | hx
    · exact hb
    · exact hb.trans ((pairwise_cons.mp hsorted).1 x hx)

section Sorted

variable (has : as.Pairwise (· ≤ ·)) (hbs : bs.Pairwise (· ≤ ·))
include has hbs

/-- An intersection has a value as often as the list that has it less often. -/
theorem count_setIntersection (x : ℕ) :
    (setIntersection as bs).count x = min (as.count x) (bs.count x) := by
  induction as generalizing bs with
  | nil => simp [setIntersection]
  | cons a as ih =>
    obtain ⟨hle, has'⟩ := pairwise_cons.mp has
    have hsorted := (hbs.sublist (dropWhile_sublist (· < a))).sublist (erase_sublist (a := a))
    have hbefore := count_takeWhile (x := x) (a := a) bs
    have hsplit := count_takeWhile_add bs a x
    have hsmaller : x < a → as.count x = 0 := count_eq_zero_of_lt hle
    have hrest := ih has' hsorted
    rw [setIntersection_cons hbs]
    rcases eq_or_ne a x with rfl | hne
    · rw [count_erase_self] at hrest
      rw [count_cons_self]
      split
      · have := count_pos_iff.mpr ‹_›
        rw [count_cons_self]
        omega
      · have := count_eq_zero_of_not_mem ‹_›
        omega
    · rw [count_erase_of_ne hne.symm] at hrest
      rw [count_cons_of_ne hne]
      split
      · rw [count_cons_of_ne hne]
        omega
      · omega

/-- A union has a value as often as the list that has it more often. -/
theorem count_setUnion (x : ℕ) : (setUnion as bs).count x = max (as.count x) (bs.count x) := by
  induction as generalizing bs with
  | nil => simp [setUnion]
  | cons a as ih =>
    obtain ⟨hle, has'⟩ := pairwise_cons.mp has
    have hsorted := (hbs.sublist (dropWhile_sublist (· < a))).sublist (erase_sublist (a := a))
    have hbefore := count_takeWhile (x := x) (a := a) bs
    have hsplit := count_takeWhile_add bs a x
    have hsmaller : x < a → as.count x = 0 := count_eq_zero_of_lt hle
    rw [setUnion_cons hbs, count_append]
    rcases eq_or_ne a x with rfl | hne
    · rw [count_cons_self, count_cons_self, ih has' hsorted, count_erase_self]
      omega
    · rw [count_cons_of_ne hne, count_cons_of_ne hne, ih has' hsorted, count_erase_of_ne hne.symm]
      omega

theorem pairwise_setIntersection : (setIntersection as bs).Pairwise (· ≤ ·) := by
  induction as generalizing bs with
  | nil => exact Pairwise.nil
  | cons a as ih =>
    obtain ⟨hle, has'⟩ := pairwise_cons.mp has
    have hsorted := (hbs.sublist (dropWhile_sublist (· < a))).sublist (erase_sublist (a := a))
    rw [setIntersection_cons hbs]
    split
    · refine pairwise_cons.mpr ⟨fun y hy => hle y ?_, ih has' hsorted⟩
      have := count_pos_iff.mpr hy
      rw [count_setIntersection has' hsorted] at this
      exact count_pos_iff.mp (by omega)
    · exact ih has' hsorted

theorem pairwise_setUnion : (setUnion as bs).Pairwise (· ≤ ·) := by
  induction as generalizing bs with
  | nil => exact hbs
  | cons a as ih =>
    obtain ⟨hle, has'⟩ := pairwise_cons.mp has
    have hsorted := (hbs.sublist (dropWhile_sublist (· < a))).sublist (erase_sublist (a := a))
    have hge : ∀ y ∈ setUnion as ((bs.dropWhile (· < a)).erase a), a ≤ y := fun y hy => by
      by_contra hlt
      have := count_pos_iff.mpr hy
      rw [count_setUnion has' hsorted, count_eq_zero_of_lt hle (not_le.mp hlt),
        count_eq_zero_of_lt (fun z hz => le_of_mem_dropWhile hbs (mem_of_mem_erase hz))
          (not_le.mp hlt)] at this
      exact lt_irrefl 0 this
    rw [setUnion_cons hbs, pairwise_append]
    refine ⟨hbs.sublist (takeWhile_sublist _), pairwise_cons.mpr ⟨hge, ih has' hsorted⟩,
      fun y hy z hz => ?_⟩
    have hya : y < a := by simpa using mem_takeWhile_imp hy
    rcases mem_cons.mp hz with rfl | hz
    · exact hya.le
    · exact hya.le.trans (hge z hz)

end Sorted

variable {lists : List (List ℕ)} (hlists : ∀ l ∈ lists, l.Pairwise (· ≤ ·))
  (has : as.Pairwise (· ≤ ·))

include hlists has

/-- Sorted lists combined one after another are sorted, and have a value as often as the combination
of the counts says. -/
private theorem sorted_foldl {op : List ℕ → List ℕ → List ℕ} {f : ℕ → ℕ → ℕ}
    (hop : ∀ as bs : List ℕ, as.Pairwise (· ≤ ·) → bs.Pairwise (· ≤ ·) →
      (op as bs).Pairwise (· ≤ ·) ∧ (op as bs).count x = f (as.count x) (bs.count x)) :
    (lists.foldl op as).Pairwise (· ≤ ·) ∧
      (lists.foldl op as).count x = (lists.map (count x)).foldl f (as.count x) := by
  induction lists generalizing as with
  | nil => exact ⟨has, rfl⟩
  | cons l lists ih =>
    obtain ⟨hl, hlists⟩ := forall_mem_cons.mp hlists
    obtain ⟨hsorted, hcount⟩ := hop as l has hl
    rw [map_cons, foldl_cons, foldl_cons, ← hcount]
    exact ih hlists hsorted

theorem sorted_foldl_setUnion (x : ℕ) : (lists.foldl setUnion as).Pairwise (· ≤ ·) ∧
    (lists.foldl setUnion as).count x = (lists.map (count x)).foldl max (as.count x) :=
  sorted_foldl hlists has fun _ _ has hbs => ⟨pairwise_setUnion has hbs, count_setUnion has hbs x⟩

theorem sorted_foldl_setIntersection (x : ℕ) :
    (lists.foldl setIntersection as).Pairwise (· ≤ ·) ∧
      (lists.foldl setIntersection as).count x = (lists.map (count x)).foldl min (as.count x) :=
  sorted_foldl hlists has fun _ _ has hbs =>
    ⟨pairwise_setIntersection has hbs, count_setIntersection has hbs x⟩

end SortedLists

/-- The hash lookup of a path or probe: by its expression, or else by its column. -/
def probeLookup (t : Table) (column : String) (expression : Option IndexExpression)
    (value : Value) :
    Option (List ℕ) :=
  match expression with
  | some expression => t.expressionLookup expression value
  | none => t.indexedLookup [column] value

/-- The ordered lookup of a path: by its expression, or else by its column. -/
def rangeLookup (t : Table) (column : String) (expression : Option IndexExpression)
    (op : ComparisonOperator) (value : Value) : Option (List ℕ) :=
  match expression with
  | some expression => t.orderedExpressionLookup expression op value
  | none => t.orderedLookup column op value

mutual

/-- `evalBitmapNode`. -/
def evalBitmapNode (t : Table) : IndexBitmapNode → List ℕ
  | .probe probe =>
    ((probeLookup t probe.column probe.expression probe.value).getD []).insertionSort (· ≤ ·)
  | .intersect children => evalIntersectChildren t none children
  | .union children => evalUnionChildren t none children

/-- `evalBitmapChildren` for an intersection, with what has been combined so far. -/
def evalIntersectChildren (t : Table) (combined : Option (List ℕ)) : List IndexBitmapNode → List ℕ
  | [] => combined.getD []
  | child :: children =>
    match evalBitmapNode t child with
    | [] => []
    | id :: ids =>
      match combined with
      | none => evalIntersectChildren t (some (id :: ids)) children
      | some sofar =>
        match setIntersection sofar (id :: ids) with
        | [] => []
        | next :: nexts => evalIntersectChildren t (some (next :: nexts)) children

/-- `evalBitmapChildren` for a union, with what has been combined so far. -/
def evalUnionChildren (t : Table) (combined : Option (List ℕ)) : List IndexBitmapNode → List ℕ
  | [] => combined.getD []
  | child :: children =>
    match evalBitmapNode t child with
    | [] => evalUnionChildren t combined children
    | id :: ids =>
      match combined with
      | none => evalUnionChildren t (some (id :: ids)) children
      | some sofar => evalUnionChildren t (some (setUnion sofar (id :: ids))) children

end

section Bitmaps

variable {t : Table}

/-- A union combines the row ids of its children one after another. -/
theorem evalUnionChildren_eq (combined : Option (List ℕ)) (children : List IndexBitmapNode) :
    evalUnionChildren t combined children =
      (children.map (evalBitmapNode t)).foldl setUnion (combined.getD []) := by
  induction children generalizing combined with
  | nil => rw [evalUnionChildren, map_nil, foldl_nil]
  | cons child children ih =>
    rw [evalUnionChildren.eq_def, map_cons, foldl_cons]
    simp only
    rcases evalBitmapNode t child with _ | ⟨id, ids⟩
    · have hnil : ∀ as, setUnion as [] = as := fun as => by cases as <;> simp [setUnion]
      rw [hnil]
      exact ih combined
    · cases combined with
      | none => exact ih (some (id :: ids))
      | some sofar => exact ih (some (setUnion sofar (id :: ids)))

theorem foldl_setIntersection_nil (lists : List (List ℕ)) :
    lists.foldl setIntersection [] = [] := by
  induction lists with
  | nil => rfl
  | cons l lists ih => exact ih

/-- An intersection does so too; an empty one is found at once. -/
theorem evalIntersectChildren_some (sofar : List ℕ) (children : List IndexBitmapNode) :
    evalIntersectChildren t (some sofar) children =
      (children.map (evalBitmapNode t)).foldl setIntersection sofar := by
  induction children generalizing sofar with
  | nil => rw [evalIntersectChildren, map_nil, foldl_nil, Option.getD_some]
  | cons child children ih =>
    rw [evalIntersectChildren.eq_def, map_cons, foldl_cons]
    simp only
    rcases evalBitmapNode t child with _ | ⟨id, ids⟩
    · have hnil : setIntersection sofar [] = [] := by cases sofar <;> simp [setIntersection]
      rw [hnil, foldl_setIntersection_nil]
    · simp only
      rcases setIntersection sofar (id :: ids) with _ | ⟨next, nexts⟩
      · rw [foldl_setIntersection_nil]
      · exact ih (next :: nexts)

theorem evalIntersectChildren_cons (child : IndexBitmapNode) (children : List IndexBitmapNode) :
    evalIntersectChildren t none (child :: children) =
      (children.map (evalBitmapNode t)).foldl setIntersection (evalBitmapNode t child) := by
  rw [evalIntersectChildren.eq_def]
  simp only
  rcases evalBitmapNode t child with _ | ⟨id, ids⟩
  · rw [foldl_setIntersection_nil]
  · exact evalIntersectChildren_some (id :: ids) children

mutual

theorem pairwise_evalBitmapNode : (node : IndexBitmapNode) →
    (evalBitmapNode t node).Pairwise (· ≤ ·)
  | .probe probe => by
    rw [evalBitmapNode]
    exact pairwise_insertionSort _ _
  | .intersect [] => by
    rw [evalBitmapNode, evalIntersectChildren]
    exact Pairwise.nil
  | .intersect (child :: children) => by
    rw [evalBitmapNode, evalIntersectChildren_cons]
    exact (sorted_foldl_setIntersection (pairwise_evalBitmapNodes children)
      (pairwise_evalBitmapNode child) 0).1
  | .union children => by
    rw [evalBitmapNode, evalUnionChildren_eq]
    exact (sorted_foldl_setUnion (pairwise_evalBitmapNodes children) Pairwise.nil 0).1

theorem pairwise_evalBitmapNodes : (children : List IndexBitmapNode) →
    ∀ ids ∈ children.map (evalBitmapNode t), ids.Pairwise (· ≤ ·)
  | [] => by simp
  | child :: children => forall_mem_cons.mpr
    ⟨pairwise_evalBitmapNode child, pairwise_evalBitmapNodes children⟩

end

theorem count_evalUnionChildren (children : List IndexBitmapNode) (r : ℕ) :
    (evalUnionChildren t none children).count r =
      (children.map fun child => (evalBitmapNode t child).count r).foldl max 0 := by
  rw [evalUnionChildren_eq, Option.getD_none,
    (sorted_foldl_setUnion (pairwise_evalBitmapNodes children) Pairwise.nil r).2, map_map]
  rfl

theorem count_evalIntersectChildren (child : IndexBitmapNode) (children : List IndexBitmapNode)
    (r : ℕ) :
    (evalIntersectChildren t none (child :: children)).count r =
      (children.map fun child => (evalBitmapNode t child).count r).foldl min
        ((evalBitmapNode t child).count r) := by
  rw [evalIntersectChildren_cons, (sorted_foldl_setIntersection (pairwise_evalBitmapNodes children)
    (pairwise_evalBitmapNode child) r).2, map_map]
  rfl

theorem mem_evalUnionChildren (children : List IndexBitmapNode) (r : ℕ) :
    r ∈ evalUnionChildren t none children ↔ ∃ child ∈ children, r ∈ evalBitmapNode t child := by
  have hpos : ∀ (counts : List ℕ) n, 0 < counts.foldl max n ↔ 0 < n ∨ ∃ k ∈ counts, 0 < k := by
    intro counts
    induction counts with
    | nil => simp
    | cons k counts ih => intro n; simp [ih, or_assoc]
  rw [← count_pos_iff, count_evalUnionChildren, hpos]
  simp

theorem mem_evalIntersectChildren {children : List IndexBitmapNode} (hne : children ≠ []) (r : ℕ) :
    r ∈ evalIntersectChildren t none children ↔ ∀ child ∈ children, r ∈ evalBitmapNode t child := by
  have hpos : ∀ (counts : List ℕ) n, 0 < counts.foldl min n ↔ 0 < n ∧ ∀ k ∈ counts, 0 < k := by
    intro counts
    induction counts with
    | nil => simp
    | cons k counts ih => intro n; simp [ih, and_assoc]
  cases children with
  | nil => exact absurd rfl hne
  | cons child children =>
    rw [← count_pos_iff, count_evalIntersectChildren, hpos]
    simp

end Bitmaps

/-- The entries on which the predicate evaluates to true. -/
def filterEntries (eval : Row → Except Error Bool) :
    List (ℕ × Row) → Except Error (List (ℕ × Row))
  | [] => pure []
  | entry :: entries => do
    let keep ← eval entry.2
    let rest ← filterEntries eval entries
    return if keep then entry :: rest else rest

/-- A filter succeeds when the predicate evaluates on every entry, and keeps those where it is
true. -/
theorem filterEntries_eq_ok {eval : Row → Except Error Bool} {entries kept : List (ℕ × Row)} :
    filterEntries eval entries = .ok kept ↔
      (∀ entry ∈ entries, ∃ keep, eval entry.2 = .ok keep) ∧
        kept = entries.filter fun entry => (eval entry.2).toOption.getD false := by
  induction entries generalizing kept with
  | nil =>
    rw [filterEntries]
    constructor
    · intro h
      exact ⟨fun _ h => absurd h not_mem_nil, (Except.ok.inj h).symm⟩
    · rintro ⟨-, rfl⟩
      rfl
  | cons entry entries ih =>
    rw [filterEntries, forall_mem_cons, filter_cons]
    rcases hkeep : eval entry.2 with e | keep
    · constructor
      · intro h
        cases h
      · rintro ⟨⟨⟨_, h⟩, -⟩, -⟩
        cases h
    · rcases hrest : filterEntries eval entries with e | rest
      · constructor
        · intro h
          cases h
        · rintro ⟨⟨-, hall⟩, -⟩
          have hok := ih.mpr ⟨hall, rfl⟩
          rw [hrest] at hok
          cases hok
      · obtain ⟨hall, rfl⟩ := ih.mp hrest
        constructor
        · intro h
          exact ⟨⟨⟨keep, rfl⟩, hall⟩, (Except.ok.inj h).symm⟩
        · rintro ⟨-, rfl⟩
          rfl

/-- The lambda `applyResidual` of `collectVisibleEntries`. -/
def applyResidual {σ : Type} (eval : Predicate σ → Row → Except Error Bool)
    (residual : Option (Predicate σ)) (entries : List (ℕ × Row)) : Except Error (List (ℕ × Row)) :=
  match residual with
  | none => return entries
  | some residual => filterEntries (eval residual) entries

/-- The complementary scans of `collectVisibleEntries`: the visible rows outside of `seen` that
satisfy the predicate. -/
def complementaryScan {σ : Type} (eval : Predicate σ → Row → Except Error Bool)
    (visible : List (ℕ × Row)) (seen : List ℕ) (predicate : Predicate σ) :
    Except Error (List (ℕ × Row)) :=
  filterEntries (eval predicate) (visible.filter fun entry => !seen.contains entry.1)

/-- `SelectEngine::collectVisibleEntries`: the visible entries come from the version store, read by
the snapshot of the session. -/
def collectVisibleEntries {σ : Type} (runtime : PredicateRuntime σ) (t : Table) (scope : String)
    (snapshot : ReadSnapshot) (transactions : TransactionManager) (filter : Option (Predicate σ))
    (plan : QueryPlan σ) : Except Error (List (ℕ × Row)) :=
  let eval (predicate : Predicate σ) (row : Row) := matchesPredicate runtime t scope row predicate
  let entriesById (rowIds : List ℕ) := t.versions.visibleEntriesById rowIds snapshot transactions
  let visible := t.versions.visibleEntries snapshot transactions
  match plan.path with
  | .hashEq indexColumn indexExpression indexValue indexColumns =>
    let rowIds :=
      if indexExpression.isNone ∧ indexColumns ≠ [] then t.indexedLookup indexColumns indexValue
      else probeLookup t indexColumn indexExpression indexValue
    match rowIds with
    | some rowIds => applyResidual eval plan.residual (entriesById rowIds)
    | none => return []
  | .orderedRange indexColumn indexExpression indexOp indexValue =>
    match rangeLookup t indexColumn indexExpression indexOp indexValue with
    | some rowIds => applyResidual eval plan.residual (entriesById rowIds)
    | none => return []
  | .hashIn indexColumn indexExpression indexValues =>
    let rowIds := indexValues.flatMap fun value =>
      (probeLookup t indexColumn indexExpression value).getD []
    applyResidual eval plan.residual (entriesById rowIds)
  | .prefixLike indexColumn literal =>
    let exact := (t.indexedLookup [indexColumn] (.string literal)).getD []
    let greater := (t.orderedLookup indexColumn .greater (.string literal)).getD []
    applyResidual eval plan.residual (entriesById (exact ++ greater))
  | .intersect children => do
    let intersection := evalIntersectChildren t none children
    let out ←
      if intersection = [] then pure []
      else applyResidual eval plan.residual (entriesById intersection)
    match plan.complementaryResidual with
    | none => return out
    | some complementary =>
        return out ++ (← complementaryScan eval visible (out.map Prod.fst) complementary)
  | .union children => do
    let rowIds := evalUnionChildren t none children
    match plan.residual with
    | none => return entriesById rowIds
    | some residual =>
      -- the residual is an OR arm here: it adds rows instead of filtering them
      return entriesById rowIds ++ (← complementaryScan eval visible rowIds residual)
  | .fullScan =>
    match filter with
    | none => return visible
    | some predicate => filterEntries (eval predicate) visible

section Candidates

/-- The row ids that the lookups of a path return, in their order. -/
def candidates (t : Table) : AccessPathPlan → List ℕ
  | .fullScan => []
  | .hashEq column expression value columns =>
    (if expression.isNone ∧ columns ≠ [] then t.indexedLookup columns value
      else probeLookup t column expression value).getD []
  | .orderedRange column expression op value => (rangeLookup t column expression op value).getD []
  | .hashIn column expression values =>
    values.flatMap fun value => (probeLookup t column expression value).getD []
  | .prefixLike column literal => (t.indexedLookup [column] (.string literal)).getD [] ++
      (t.orderedLookup column .greater (.string literal)).getD []
  | .intersect children => evalIntersectChildren t none children
  | .union children => evalUnionChildren t none children

variable {σ : Type}

/-- What filters the candidates: the residual, but for a union, where it adds rows. -/
def candidateFilter (plan : QueryPlan σ) : Option (Predicate σ) :=
  match plan.path with
  | .union _ => none
  | _ => plan.residual

variable {runtime : PredicateRuntime σ} {t : Table} {scope : String} {snapshot : ReadSnapshot}
  {m : TransactionManager} {filter residual : Option (Predicate σ)} {plan : QueryPlan σ}
  {eval : Predicate σ → Row → Except Error Bool} {kept out added : List (ℕ × Row)}

/-- The shortcut for an empty intersection changes nothing. -/
theorem ite_applyResidual (eval : Predicate σ → Row → Except Error Bool)
    (residual : Option (Predicate σ)) (rowIds : List ℕ) :
    (if rowIds = [] then pure []
      else applyResidual eval residual (t.versions.visibleEntriesById rowIds snapshot m)) =
      applyResidual eval residual (t.versions.visibleEntriesById rowIds snapshot m) := by
  split
  · rename_i h
    subst h
    cases residual <;> rfl
  · rfl

/-- The shortcut for an empty intersection, before a complementary scan. -/
theorem ite_applyResidual_bind (eval : Predicate σ → Row → Except Error Bool)
    (residual : Option (Predicate σ)) (rowIds : List ℕ)
    (k : List (ℕ × Row) → Except Error (List (ℕ × Row))) :
    (if rowIds = [] then pure [] >>= k
      else applyResidual eval residual (t.versions.visibleEntriesById rowIds snapshot m) >>= k) =
      applyResidual eval residual (t.versions.visibleEntriesById rowIds snapshot m) >>= k := by
  rw [← ite_applyResidual]
  split <;> rfl

/-- The entries are rows that the snapshot sees, in their order, and none of those before. -/
def Adds (t : Table) (snapshot : ReadSnapshot) (m : TransactionManager)
    (out added : List (ℕ × Row)) :
    Prop :=
  added.Sublist (t.versions.visibleEntries snapshot m) ∧ ∀ r ∈ out.map Prod.fst,
    r ∉ added.map Prod.fst

theorem adds_nil : Adds t snapshot m out [] := ⟨nil_sublist _, fun _ _ => not_mem_nil⟩

theorem adds_complementaryScan {seen : List ℕ} {p : Predicate σ}
    (hseen : ∀ r ∈ out.map Prod.fst, r ∈ seen)
    (hok : complementaryScan eval (t.versions.visibleEntries snapshot m) seen p = .ok added) :
    Adds t snapshot m out added := by
  obtain ⟨-, rfl⟩ := filterEntries_eq_ok.mp hok
  refine ⟨filter_sublist.trans filter_sublist, fun r hr hadded => ?_⟩
  obtain ⟨entry, hentry, rfl⟩ := mem_map.mp hadded
  have hnot := (mem_filter.mp (mem_filter.mp hentry).1).2
  simp [hseen _ hr] at hnot

/-- What a scan returns: the visible rows among the candidates of the path that the filter keeps,
and rows of a scan over the others. -/
theorem of_collectVisibleEntries
    (hok : collectVisibleEntries runtime t scope snapshot m filter plan = .ok kept) :
    ∃ out added, kept = out ++ added ∧ Adds t snapshot m out added ∧
      applyResidual (fun p row => matchesPredicate runtime t scope row p) (candidateFilter plan)
        (t.versions.visibleEntriesById (candidates t plan.path) snapshot m) = .ok out := by
  have hnone : ∀ residual,
    applyResidual (fun p row => matchesPredicate runtime t scope row p) residual
      (t.versions.visibleEntriesById [] snapshot m) = .ok [] := fun residual => by
    cases residual <;> rfl
  obtain ⟨path, residual, complementary⟩ := plan
  cases path with
  | hashEq column expression value columns =>
    refine ⟨kept, [], (append_nil _).symm, adds_nil, ?_⟩
    simp only [collectVisibleEntries] at hok
    simp only [candidates, candidateFilter]
    split at hok
    · rename_i rowIds hrowIds
      rwa [hrowIds]
    · rename_i hrowIds
      rw [hrowIds]
      exact (hnone residual).trans hok
  | orderedRange column expression op value =>
    refine ⟨kept, [], (append_nil _).symm, adds_nil, ?_⟩
    simp only [collectVisibleEntries] at hok
    simp only [candidates, candidateFilter]
    split at hok
    · rename_i rowIds hrowIds
      rwa [hrowIds]
    · rename_i hrowIds
      rw [hrowIds]
      exact (hnone residual).trans hok
  | hashIn | prefixLike => exact ⟨kept, [], (append_nil _).symm, adds_nil, hok⟩
  | intersect children =>
    simp only [collectVisibleEntries] at hok
    rw [ite_applyResidual_bind] at hok
    obtain ⟨out, hout, hok⟩ := Exec.except_bind_eq_ok.mp hok
    refine ⟨out, ?_⟩
    cases complementary with
    | none =>
      obtain rfl := Except.ok.inj hok
      exact ⟨[], (append_nil _).symm, adds_nil, hout⟩
    | some p =>
      obtain ⟨added, hadded, hok⟩ := Exec.except_bind_eq_ok.mp hok
      exact ⟨added, (Except.ok.inj hok).symm, adds_complementaryScan (fun _ hr => hr) hadded, hout⟩
  | union children =>
    refine ⟨t.versions.visibleEntriesById (evalUnionChildren t none children) snapshot m, ?_⟩
    cases residual with
    | none =>
      obtain rfl := Except.ok.inj hok
      exact ⟨[], (append_nil _).symm, adds_nil, rfl⟩
    | some p =>
      obtain ⟨added, hadded, hok⟩ := Exec.except_bind_eq_ok.mp hok
      refine ⟨added, (Except.ok.inj hok).symm, adds_complementaryScan (fun r hr => ?_) hadded, rfl⟩
      obtain ⟨entry, hentry, rfl⟩ := mem_map.mp hr
      exact ((mem_visibleEntriesById ..).mp hentry).1
  | fullScan =>
    refine ⟨[], kept, rfl, ⟨?_, by simp⟩, hnone residual⟩
    cases filter with
    | none =>
      obtain rfl := Except.ok.inj hok
      exact Sublist.refl _
    | some p =>
      obtain ⟨-, rfl⟩ := filterEntries_eq_ok.mp hok
      exact filter_sublist

theorem read_of_collectVisibleEntries
    (hok : collectVisibleEntries runtime t scope snapshot m filter plan = .ok kept) {r : ℕ}
    {row : Row} (hmem : (r, row) ∈ kept) : t.versions.read r snapshot m = some row := by
  obtain ⟨out, added, rfl, ⟨hvis, -⟩, hout⟩ := of_collectVisibleEntries hok
  rcases mem_append.mp hmem with hmem | hmem
  · have hcandidate : (r, row) ∈
        t.versions.visibleEntriesById (candidates t plan.path) snapshot m := by
      cases hfilter : candidateFilter plan with
      | none =>
        rw [hfilter] at hout
        exact Except.ok.inj hout ▸ hmem
      | some p =>
        rw [hfilter] at hout
        obtain ⟨-, rfl⟩ := filterEntries_eq_ok.mp hout
        exact (mem_filter.mp hmem).1
    exact ((mem_visibleEntriesById ..).mp hcandidate).2
  · exact (mem_visibleEntries ..).mp (hvis.subset hmem)

end Candidates

end VertexDB
