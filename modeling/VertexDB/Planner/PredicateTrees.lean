import VertexDB.Execution.PredicateEval
import VertexDB.Planner.QueryPlanner

/-!
# Evaluation of the trees that the planner takes apart

The planner splits a predicate into its conjuncts and disjuncts, puts some of them together again,
and rewrites equalities on one column into an IN list. Evaluation stops at the first conjunct that
is false and at the first disjunct that is true, and an exception ends it. The lists are evaluated
the same way, so the planner keeps the outcome on every row, exceptions included.
-/

namespace VertexDB

open Planner List Option

variable {σ : Type}

/-- The conjunction of the list, from left to right. -/
def evalAll (eval : Predicate σ → Except Error Bool) : List (Predicate σ) → Except Error Bool
  | [] => pure true
  | p :: ps => do if ← eval p then evalAll eval ps else return false

/-- The disjunction of the list, from left to right. -/
def evalAny (eval : Predicate σ → Except Error Bool) : List (Predicate σ) → Except Error Bool
  | [] => pure false
  | p :: ps => do if ← eval p then return true else evalAny eval ps

variable {p : Predicate σ} {ps : List (Predicate σ)}

section Lists

variable {eval : Predicate σ → Except Error Bool}

theorem evalAll_cons_true (h : eval p = .ok true) :
    evalAll eval (p :: ps) = evalAll eval ps := by
  rw [evalAll, h]
  rfl

theorem evalAll_cons_false (h : eval p = .ok false) :
    evalAll eval (p :: ps) = .ok false := by
  rw [evalAll, h]
  rfl

theorem evalAll_cons_error {e : Error} (h : eval p = .error e) :
    evalAll eval (p :: ps) = .error e := by
  rw [evalAll, h]
  rfl

theorem evalAll_append (ps qs : List (Predicate σ)) :
    evalAll eval (ps ++ qs) =
      (do if ← evalAll eval ps then evalAll eval qs else return false) := by
  induction ps with
  | nil => rfl
  | cons p ps ih =>
    rw [cons_append, evalAll, evalAll, ih]
    rcases eval p with e | (_ | _) <;> rfl

theorem evalAny_append (ps qs : List (Predicate σ)) :
    evalAny eval (ps ++ qs) =
      (do if ← evalAny eval ps then return true else evalAny eval qs) := by
  induction ps with
  | nil => rfl
  | cons p ps ih =>
    rw [cons_append, evalAny, evalAny, ih]
    rcases eval p with e | (_ | _) <;> rfl

theorem evalAll_eq_true :
    evalAll eval ps = .ok true ↔ ∀ p ∈ ps, eval p = .ok true := by
  induction ps with
  | nil => exact ⟨fun _ p hp => absurd hp not_mem_nil, fun _ => rfl⟩
  | cons p ps ih =>
    rw [forall_mem_cons]
    rcases hp : eval p with e | (_ | _)
    · simp [evalAll_cons_error hp]
    · simp [evalAll_cons_false hp]
    · simp [evalAll_cons_true hp, ih]

theorem evalAny_eq_false :
    evalAny eval ps = .ok false ↔ ∀ p ∈ ps, eval p = .ok false := by
  induction ps with
  | nil => exact ⟨fun _ p hp => absurd hp not_mem_nil, fun _ => rfl⟩
  | cons p ps ih =>
    rw [forall_mem_cons, evalAny]
    rcases hp : eval p with e | (_ | _)
    · simp
    · simpa using ih
    · simp [pure, Except.pure]

theorem exists_of_evalAny_eq_true (h : evalAny eval ps = .ok true) :
    ∃ p ∈ ps, eval p = .ok true := by
  induction ps with
  | nil => cases h
  | cons p ps ih =>
    rcases hp : eval p with e | (_ | _)
    · rw [evalAny, hp] at h
      cases h
    · rw [evalAny, hp] at h
      obtain ⟨q, hq, hqt⟩ := ih h
      exact ⟨q, mem_cons_of_mem _ hq, hqt⟩
    · exact ⟨p, mem_cons_self, hp⟩

theorem evalAll_eraseIdx {i : ℕ} (hi : ps[i]? = some p) (hp : eval p = .ok true) :
    evalAll eval (ps.eraseIdx i) = evalAll eval ps := by
  induction ps generalizing i with
  | nil => cases hi
  | cons q ps ih =>
    cases i with
    | zero =>
      obtain rfl : q = p := by simpa using hi
      rw [eraseIdx_cons_zero, evalAll_cons_true hp]
    | succ i =>
      rw [eraseIdx_cons_succ, evalAll, evalAll, ih (by simpa using hi)]

/-- When the others are true, the conjunction is the conjunct that was left out. -/
theorem evalAll_of_eraseIdx {i : ℕ} (hi : ps[i]? = some p)
    (hrest : evalAll eval (ps.eraseIdx i) = .ok true) :
    evalAll eval ps = eval p := by
  have hothers := evalAll_eq_true.mp hrest
  induction ps generalizing i with
  | nil => cases hi
  | cons q ps ih =>
    cases i with
    | zero =>
      obtain rfl : q = p := by simpa using hi
      rw [eraseIdx_cons_zero] at hrest
      rw [evalAll, hrest]
      rcases eval q with e | (_ | _) <;> rfl
    | succ i =>
      rw [eraseIdx_cons_succ, forall_mem_cons] at hothers
      rw [evalAll_cons_true hothers.1]
      exact ih (by simpa using hi) (evalAll_eq_true.mpr hothers.2) hothers.2

theorem evalAll_filter {α : Type} {ps : List α} {f : α → Predicate σ} {keep : α → Bool}
    (h : ∀ p ∈ ps, keep p = false → eval (f p) = .ok true) :
    evalAll eval ((ps.filter keep).map f) = evalAll eval (ps.map f) := by
  induction ps with
  | nil => rfl
  | cons p ps ih =>
    obtain ⟨hp, hps⟩ := forall_mem_cons.mp h
    rw [map_cons]
    cases hkeep : keep p with
    | true => rw [filter_cons_of_pos hkeep, map_cons, evalAll, evalAll, ih hps]
    | false => rw [filter_cons_of_neg (by simp [hkeep]), evalAll_cons_true (hp hkeep), ih hps]

/-- Disjuncts that are not true can be left out of a disjunction that evaluates. -/
theorem evalAny_filter {keep : Predicate σ → Bool} {b : Bool} (hb : evalAny eval ps = .ok b)
    (h : ∀ p ∈ ps, keep p = false → eval p ≠ .ok true) :
    evalAny eval (ps.filter keep) = .ok b := by
  induction ps with
  | nil => exact hb
  | cons p ps ih =>
    obtain ⟨hp, hps⟩ := forall_mem_cons.mp h
    rw [evalAny] at hb
    rcases hvalue : eval p with e | (_ | _) <;> rw [hvalue] at hb
    · cases hb
    · cases hkeep : keep p with
      | true =>
        rw [filter_cons_of_pos hkeep, evalAny, hvalue]
        exact ih hb hps
      | false =>
        rw [filter_cons_of_neg (by simp [hkeep])]
        exact ih hb hps
    · cases hkeep : keep p with
      | true =>
        rw [filter_cons_of_pos hkeep, evalAny, hvalue]
        exact hb
      | false => exact absurd hvalue (hp hkeep)

theorem evalAny_eq_true_iff {b : Bool} (h : evalAny eval ps = .ok b) :
    b = true ↔ ∃ p ∈ ps, eval p = .ok true := by
  cases b with
  | true => exact iff_of_true rfl (exists_of_evalAny_eq_true h)
  | false =>
    refine iff_of_false Bool.false_ne_true ?_
    rintro ⟨p, hp, htrue⟩
    rw [evalAny_eq_false.mp h p hp] at htrue
    cases htrue

theorem exists_of_evalAll_eq_false (h : evalAll eval ps = .ok false) :
    ∃ p ∈ ps, eval p = .ok false := by
  induction ps with
  | nil => cases h
  | cons p ps ih =>
    rcases hp : eval p with e | (_ | _)
    · rw [evalAll_cons_error hp] at h
      cases h
    · exact ⟨p, mem_cons_self, hp⟩
    · rw [evalAll_cons_true hp] at h
      obtain ⟨q, hq, hfalse⟩ := ih h
      exact ⟨q, mem_cons_of_mem p hq, hfalse⟩

theorem exists_evalAll (h : ∀ p ∈ ps, ∃ b, eval p = .ok b) :
    ∃ b, evalAll eval ps = .ok b := by
  induction ps with
  | nil => exact ⟨true, rfl⟩
  | cons p ps ih =>
    obtain ⟨⟨b, hb⟩, hps⟩ := forall_mem_cons.mp h
    cases b with
    | true =>
      rw [evalAll_cons_true hb]
      exact ih hps
    | false => exact ⟨false, evalAll_cons_false hb⟩

end Lists

section Trees

variable (runtime : PredicateRuntime σ) (t : Table) (scope : String) (row : Row)

theorem evalAll_collectAndConjuncts (p : Predicate σ) :
    evalAll (matchesPredicate runtime t scope row) (collectAndConjuncts p) =
      matchesPredicate runtime t scope row p := by
  induction p with
  | and left right ihl ihr =>
    rw [collectAndConjuncts, evalAll_append, ihl, ihr, matchesPredicate]
  | _ =>
    rw [collectAndConjuncts, evalAll]
    · generalize matchesPredicate runtime t scope row _ = x
      rcases x with e | (_ | _) <;> rfl
    · intro l r h
      cases h

theorem evalAny_collectOrDisjuncts (p : Predicate σ) :
    evalAny (matchesPredicate runtime t scope row) (collectOrDisjuncts p) =
      matchesPredicate runtime t scope row p := by
  induction p with
  | or left right ihl ihr =>
    rw [collectOrDisjuncts, evalAny_append, ihl, ihr, matchesPredicate]
  | _ =>
    rw [collectOrDisjuncts, evalAny]
    · generalize matchesPredicate runtime t scope row _ = x
      rcases x with e | (_ | _) <;> rfl
    · intro l r h
      cases h

theorem exists_buildAndTree (h : ps ≠ []) :
    ∃ p, buildAndTree ps = some p := by
  obtain ⟨first, rest, rfl⟩ := exists_cons_of_ne_nil h
  exact ⟨_, rfl⟩

theorem matchesPredicate_buildAndTree (h : buildAndTree ps = some p) :
    matchesPredicate runtime t scope row p =
      evalAll (matchesPredicate runtime t scope row) ps := by
  cases ps with
  | nil => cases h
  | cons first rest =>
    obtain rfl : rest.foldl .and first = p := by simpa [buildAndTree] using h
    clear h
    induction rest generalizing first with
    | nil =>
      rw [foldl_nil, evalAll]
      rcases matchesPredicate runtime t scope row first with e | (_ | _) <;> rfl
    | cons q rest ih =>
      rw [foldl_cons, ih, evalAll, matchesPredicate, evalAll]
      rcases matchesPredicate runtime t scope row first with e | (_ | _) <;> rfl

theorem matchesPredicate_buildOrTree (h : buildOrTree ps = some p) :
    matchesPredicate runtime t scope row p =
      evalAny (matchesPredicate runtime t scope row) ps := by
  cases ps with
  | nil => cases h
  | cons first rest =>
    obtain rfl : rest.foldl .or first = p := by simpa [buildOrTree] using h
    clear h
    induction rest generalizing first with
    | nil =>
      rw [foldl_nil, evalAny]
      rcases matchesPredicate runtime t scope row first with e | (_ | _) <;> rfl
    | cons q rest ih =>
      rw [foldl_cons, ih, evalAny, matchesPredicate, evalAny]
      rcases matchesPredicate runtime t scope row first with e | (_ | _) <;> rfl

theorem exists_buildOrTree (h : ps ≠ []) :
    ∃ p, buildOrTree ps = some p := by
  obtain ⟨first, rest, rfl⟩ := exists_cons_of_ne_nil h
  exact ⟨_, rfl⟩

/-- The left sides of two equalities on the same column or expression have the same outcome. -/
theorem sameOutcome_operandValue (lookup : String → Option ℕ) {column column' : String}
    {expression expression' : Option IndexExpression} (hcol : column = column')
    (hexpr : sameExpression expression expression' = true) :
    SameOutcome (operandValue column expression row lookup)
      (operandValue column' expression' row lookup) := by
  subst hcol
  match expression, expression', hexpr with
  | none, none, _ => exact SameOutcome.refl _
  | some a, some b, h => exact evaluateIndexExpression_congr h row lookup

theorem constantEquality_eq_some {node : ComparisonPred} (h : constantEquality p = some node) :
    p = .comparison node ∧ node.rhsColumn = none ∧ node.op = .equal := by
  cases p with
  | comparison n =>
    rw [constantEquality] at h
    split at h
    · cases h
    · rename_i hn
      obtain rfl : n = node := by simpa using h
      push Not at hn
      exact ⟨rfl, by simpa using hn.1, hn.2⟩
  | _ => cases h

/-- The evaluation of an equality with a constant. -/
theorem matchesPredicate_constantEquality {node : ComparisonPred}
    (h : constantEquality p = some node) :
    matchesPredicate runtime t scope row p =
      (operandValue node.column node.expression row (scopedLookup t scope)).map
        fun value => value.beq node.value := by
  obtain ⟨rfl, hrhs, hop⟩ := constantEquality_eq_some h
  rw [matchesPredicate, evalPredicate, evalComparison, hrhs, hop]
  rcases operandValue node.column node.expression row (scopedLookup t scope) with e | value <;> rfl

/-- Equalities on one column or expression are evaluated as the list of their values, once the left
side has a value. -/
theorem evalAny_equalityValues {first : ComparisonPred} {value : Value}
    (hfirst : operandValue first.column first.expression row (scopedLookup t scope) = .ok value)
    {disjuncts : List (Predicate σ)} {values : List Value}
    (h : equalityValues first disjuncts = some values) :
    evalAny (matchesPredicate runtime t scope row) disjuncts =
      .ok (values.any fun v => value.beq v) := by
  induction disjuncts generalizing values with
  | nil =>
    obtain rfl : [] = values := by simpa [equalityValues] using h
    rfl
  | cons p ps ih =>
    rw [equalityValues] at h
    obtain ⟨node, hnode, h⟩ := bind_eq_some_iff.mp h
    split at h
    · cases h
    · rename_i hsame
      obtain ⟨rest, hrest, h⟩ := bind_eq_some_iff.mp h
      obtain rfl : node.value :: rest = values := by simpa using h
      push Not at hsame
      have houtcome := sameOutcome_operandValue row (scopedLookup t scope) hsame.1
        (by simpa using hsame.2)
      rw [hfirst] at houtcome
      obtain ⟨other, hother, hvalues⟩ := houtcome.of_ok
      rw [evalAny, matchesPredicate_constantEquality runtime t scope row hnode, hother, ih hrest,
        any_cons, ← hvalues.beq_eq, Except.map]
      cases other.beq node.value <;> rfl

/-- What `tryRewriteSameColumnEqualityOrToIn` rewrites, and to what. -/
theorem tryRewriteSameColumnEqualityOrToIn_eq_some {q : Predicate σ}
    (h : tryRewriteSameColumnEqualityOrToIn p = some q) :
    ∃ disjunct disjuncts first values, collectOrDisjuncts p = disjunct :: disjuncts ∧
      constantEquality disjunct = some first ∧ equalityValues first disjuncts = some values ∧
      q = .inList
        { column := first.column
          inValues := first.value :: values
          expression := first.expression
          referencesOuter := first.referencesOuter } := by
  cases p with
  | or left right =>
    simp only [tryRewriteSameColumnEqualityOrToIn] at h
    split at h
    · rename_i disjunct disjuncts hdisjs
      obtain ⟨first, hfirst, h⟩ := bind_eq_some_iff.mp h
      obtain ⟨values, hvalues, h⟩ := bind_eq_some_iff.mp h
      exact ⟨disjunct, disjuncts, first, values, hdisjs, hfirst, hvalues, (Option.some.inj h).symm⟩
    · cases h
  | _ => cases h

/-- The rewriting of equalities into an IN list keeps the outcome. -/
theorem matchesPredicate_rewriteToIn (p : Predicate σ) :
    matchesPredicate runtime t scope row (rewriteToIn p) =
      matchesPredicate runtime t scope row p := by
  rw [rewriteToIn]
  rcases hrewrite : tryRewriteSameColumnEqualityOrToIn p with _ | q
  · rfl
  obtain ⟨disjunct, disjuncts, first, values, hdisjs, hfirst, hvalues, rfl⟩ :=
    tryRewriteSameColumnEqualityOrToIn_eq_some hrewrite
  rw [← evalAny_collectOrDisjuncts runtime t scope row p, hdisjs, evalAny,
    matchesPredicate_constantEquality runtime t scope row hfirst]
  simp only [getD_some, matchesPredicate, evalPredicate, evalInList]
  rcases hvalue : operandValue first.column first.expression row (scopedLookup t scope) with
    e | value
  · rfl
  · rw [evalAny_equalityValues runtime t scope row hvalue hvalues]
    show Except.ok (value.beq first.value || values.any fun v => value.beq v) = _
    rw [Except.map]
    cases value.beq first.value <;> rfl

theorem evalAll_planConjuncts (p : Predicate σ) :
    evalAll (matchesPredicate runtime t scope row) (planConjuncts p) =
      matchesPredicate runtime t scope row p := by
  have hmap : ∀ ps : List (Predicate σ),
      evalAll (matchesPredicate runtime t scope row) (ps.map rewriteToIn) =
        evalAll (matchesPredicate runtime t scope row) ps := by
    intro ps
    induction ps with
    | nil => rfl
    | cons p ps ih => rw [map_cons, evalAll, evalAll, matchesPredicate_rewriteToIn, ih]
  rw [planConjuncts, hmap, evalAll_collectAndConjuncts, matchesPredicate_rewriteToIn]

end Trees

section Shapes

variable {C : Type} [CostArith C]

theorem collectAndConjuncts_ne_nil (p : Predicate σ) : collectAndConjuncts p ≠ [] := by
  induction p with
  | and left right ihl ihr =>
    rw [collectAndConjuncts]
    exact append_ne_nil_of_left_ne_nil ihl _
  | _ => exact cons_ne_nil _ _

theorem eq_of_collectAndConjuncts_eq_singleton {q : Predicate σ} (h : collectAndConjuncts p = [q]) :
    p = q := by
  cases p with
  | and left right =>
    have hlen := congrArg length h
    have hleft := length_pos_iff.mpr (collectAndConjuncts_ne_nil left)
    have hright := length_pos_iff.mpr (collectAndConjuncts_ne_nil right)
    rw [collectAndConjuncts, length_append, length_singleton] at hlen
    omega
  | _ => exact singleton_inj.mp h

/-- What the rewriting leaves an OR is not rewritten. -/
theorem eq_or_of_rewriteToIn_eq_or {left right : Predicate σ} (h : rewriteToIn p = .or left right) :
    p = .or left right := by
  rw [rewriteToIn] at h
  rcases hrewrite : tryRewriteSameColumnEqualityOrToIn p with _ | q
  · rwa [hrewrite] at h
  · obtain ⟨_, _, _, _, _, _, _, rfl⟩ := tryRewriteSameColumnEqualityOrToIn_eq_some hrewrite
    rw [hrewrite] at h
    cases h

theorem tryPlanTopLevelOrUnion_or_ne_none (left right : Predicate σ) {stats : RelationStats C}
    {indexes : IndexCatalog} {cost : C} :
    tryPlanTopLevelOrUnion (.or left right) stats indexes cost ≠ none := by
  simp only [tryPlanTopLevelOrUnion]
  split
  · exact some_ne_none _
  · split <;> exact some_ne_none _

end Shapes

end VertexDB
