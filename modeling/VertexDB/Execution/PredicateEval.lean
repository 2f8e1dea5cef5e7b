import VertexDB.Storage.Table

/-!
# Evaluation of predicates

Two-valued evaluation of WHERE predicates on a row, as in `src/execution/predicate_eval.cpp` and
`SubqueryRuntime::matches`. Subqueries and regular expressions are evaluated by what the caller
provides.
-/

namespace VertexDB

variable {σ : Type}

/-- The left side of a comparison or of an IN list. -/
def operandValue (column : String) (expression : Option IndexExpression) (row : Row)
    (lookup : String → Option ℕ) : Except Error Value :=
  match expression with
  | some expression => evaluateIndexExpression expression row lookup
  | none =>
    match lookup column with
    | some index => pure (row.at index)
    | none => throw (.runtimeError "unknown predicate column")

/-- The branch of `evalPredicate` for LIKE and REGEXP. -/
def evalPattern (node : PatternPred) (row : Row) (lookup : String → Option ℕ)
    (matchPattern : List UInt8 → List UInt8 → Except Error Bool) : Except Error Bool :=
  match lookup node.column with
  | none => throw (.runtimeError "unknown predicate column")
  | some index =>
    match row.at index with
    | .null => return false
    | .string text => matchPattern text node.pattern
    | value => do
      -- `type` throws on a parameter and on a composite key
      let _ ← value.type
      return false

/-- The branch of `evalPredicate` for a comparison. -/
def evalComparison (node : ComparisonPred) (row : Row) (lookup : String → Option ℕ) :
    Except Error Bool := do
  let leftValue ← operandValue node.column node.expression row lookup
  match node.rhsColumn with
  | some rhsColumn =>
    match lookup rhsColumn with
    | none => throw (.runtimeError "unknown predicate column")
    | some rightIndex => return compareValues leftValue node.op (row.at rightIndex)
  | none => return compareValues leftValue node.op node.value

/-- The branch of `evalPredicate` for an IN list. -/
def evalInList (node : InListPred) (row : Row) (lookup : String → Option ℕ) :
    Except Error Bool := do
  let leftValue ← operandValue node.column node.expression row lookup
  return node.inValues.any fun value => leftValue.beq value

/-- `matchRegexPattern`, which the caller provides. -/
abbrev RegexMatcher := List UInt8 → List UInt8 → Except Error Bool

/-- `evalPredicate`. -/
def evalPredicate (regex : RegexMatcher) (row : Row) (lookup : String → Option ℕ) :
    Predicate σ → Except Error Bool
  | .and left right => do
    if ← evalPredicate regex row lookup left then evalPredicate regex row lookup right
    else return false
  | .or left right => do
    if ← evalPredicate regex row lookup left then return true
    else evalPredicate regex row lookup right
  | .inSubquery .. => throw (.runtimeError "IN subquery must be materialized before evaluation")
  | .exists .. => throw (.runtimeError "EXISTS must be evaluated by the executor")
  | .like node =>
    evalPattern node row lookup fun text pattern => return matchLikePattern text pattern
  | .regex node => evalPattern node row lookup regex
  | .comparison node => evalComparison node row lookup
  | .inList node => evalInList node row lookup

/-- `equalsIgnoreCase`. -/
def equalsIgnoreCase (lhs rhs : String) : Bool :=
  lhs.toList.map Char.toUpper = rhs.toList.map Char.toUpper

/-- The column lookup of `SubqueryRuntime::matches`: a column of the table, or one qualified by the
name of the table or its alias. -/
def scopedLookup (t : Table) (scope : String) (column : String) : Option ℕ :=
  match t.columnIndex column with
  | some index => some index
  | none =>
    match column.toList.span (· ≠ '.') with
    | (qualifier, _ :: rest) =>
      let qualifier := String.ofList qualifier
      if equalsIgnoreCase qualifier t.name || equalsIgnoreCase qualifier scope then
        t.columnIndex (String.ofList rest)
      else none
    | (_, []) => none

/-- What evaluation needs from the executor: regular expressions and subqueries. A subquery is
evaluated for the row whose columns it may refer to. -/
structure PredicateRuntime (σ : Type) where
  matchRegexPattern : RegexMatcher
  evaluateExists : σ → Bool → Row → Except Error Bool
  evaluateSubqueryValues : σ → Bool → Row → Except Error (List Value)

/-- The predicates without subqueries need no evaluation of one. -/
def PredicateRuntime.noSubquery (regex : RegexMatcher) : PredicateRuntime Empty where
  matchRegexPattern := regex
  evaluateExists := fun subquery => nomatch subquery
  evaluateSubqueryValues := fun subquery => nomatch subquery

/-- `SubqueryRuntime::matches`. -/
def matchesPredicate (runtime : PredicateRuntime σ) (t : Table) (scope : String) (row : Row) :
    Predicate σ → Except Error Bool
  | .and left right => do
    if ← matchesPredicate runtime t scope row left then matchesPredicate runtime t scope row right
    else return false
  | .or left right => do
    if ← matchesPredicate runtime t scope row left then return true
    else matchesPredicate runtime t scope row right
  | .exists subquery referencesOuter => runtime.evaluateExists subquery referencesOuter row
  | .inSubquery column subquery referencesOuter => do
    let values ← runtime.evaluateSubqueryValues subquery referencesOuter row
    match t.columnIndex column with
    | none => throw (.runtimeError "unknown predicate column")
    | some index => return values.any fun value => value.beq (row.at index)
  | .comparison node =>
    evalPredicate runtime.matchRegexPattern row (scopedLookup t scope)
      (.comparison node : Predicate σ)
  | .inList node =>
    evalPredicate runtime.matchRegexPattern row (scopedLookup t scope) (.inList node : Predicate σ)
  | .like node =>
    evalPredicate runtime.matchRegexPattern row (scopedLookup t scope) (.like node : Predicate σ)
  | .regex node =>
    evalPredicate runtime.matchRegexPattern row (scopedLookup t scope) (.regex node : Predicate σ)

end VertexDB
