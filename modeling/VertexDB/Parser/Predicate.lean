import VertexDB.Common.IndexExpression

/-!
# Predicates

The predicate trees of `include/VertexDB/parser/predicate.hpp`. A node that holds a subquery holds
a value of the type `σ`, so that predicates without subqueries are those over the empty type.
-/

namespace VertexDB

/-- `ComparisonPred`. -/
structure ComparisonPred where
  column : String
  op : ComparisonOperator
  value : Value := .null
  rhsColumn : Option String := none
  expression : Option IndexExpression := none
  referencesOuter : Bool := false
  deriving DecidableEq, Repr

/-- `InListPred`. -/
structure InListPred where
  column : String
  inValues : List Value
  expression : Option IndexExpression := none
  referencesOuter : Bool := false
  deriving DecidableEq, Repr

/-- `LikePred` and `RegexPred`. -/
structure PatternPred where
  column : String
  pattern : List UInt8
  referencesOuter : Bool := false
  deriving DecidableEq, Repr

/-- `Predicate`, over the type of the subqueries. -/
inductive Predicate (σ : Type) where
  | comparison (node : ComparisonPred)
  | and (left right : Predicate σ)
  | or (left right : Predicate σ)
  | inList (node : InListPred)
  | inSubquery (column : String) (subquery : σ) (referencesOuter : Bool)
  | exists (subquery : σ) (referencesOuter : Bool)
  | like (node : PatternPred)
  | regex (node : PatternPred)
  deriving DecidableEq, Repr

end VertexDB
