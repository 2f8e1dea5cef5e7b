import VertexDB.Storage.Table

/-!
# The query planner

The choice of an access path for the WHERE predicate of a scan, as in `src/planner`. The costs of
the source are doubles; the plan depends on them only through comparisons, so the model takes any
type with the operations the source applies, whatever laws they satisfy. Of the statistics it takes
what the planner asks of a histogram. The estimates and texts that only EXPLAIN shows are left out.
-/

namespace VertexDB

/-- The operations on costs. -/
class CostArith (C : Type) where
  ofNat : ℕ → C
  mul : C → C → C
  sub : C → C → C
  div : C → C → C
  lt : C → C → Bool
  eq : C → C → Bool

namespace CostArith

variable {C : Type} [CostArith C]

/-- `std::max`. -/
def max (a b : C) : C := if lt a b then b else a

/-- `std::clamp`. -/
def clamp (v lo hi : C) : C := if lt v lo then lo else if lt hi v then hi else v

end CostArith

/-- What the planner asks of a `ColumnHistogram`. -/
structure HistogramView (C : Type) where
  distinctCount : ℕ
  rangeSelectivity : ComparisonOperator → Value → C
  inSelectivity : List Value → C

/-- `RelationStats`. -/
structure RelationStats (C : Type) where
  rowCount : ℕ
  columnHistogram : String → Option (HistogramView C)

/-- `IndexCatalogView`. -/
structure IndexCatalog where
  hasIndex : List String → Bool
  hasExpressionIndex : IndexExpression → Bool
  indexDistinctCount : List String → Option ℕ
  expressionDistinctCount : IndexExpression → Option ℕ
  compositeIndexColumnLists : List (List String)

/-- A table as an `IndexCatalogView`. -/
def Table.catalog (t : Table) : IndexCatalog where
  hasIndex := fun columns => t.indexManager.hasIndex columns t.schema
  hasExpressionIndex := t.indexManager.hasExpressionIndex
  indexDistinctCount := fun columns => t.indexManager.indexDistinctCount columns t.schema
  expressionDistinctCount := t.indexManager.expressionDistinctCount
  compositeIndexColumnLists :=
    ((t.indexManager.indexDefinitions t.schema).filter fun definition =>
      definition.expression.isNone && 2 ≤ definition.columns.length).map IndexDefinition.columns

/-- `AccessPath`. -/
inductive AccessPath where
  | fullScan
  | hashEq
  | orderedRange
  | hashIn
  | intersect
  | union
  | prefixLike
  deriving DecidableEq, Repr

/-- `IndexEqualityProbe`. -/
structure IndexEqualityProbe where
  column : String
  expression : Option IndexExpression
  value : Value
  deriving DecidableEq, Repr

/-- `IndexBitmapNode`. -/
inductive IndexBitmapNode where
  | probe (probe : IndexEqualityProbe)
  | intersect (children : List IndexBitmapNode)
  | union (children : List IndexBitmapNode)
  deriving Repr

/-- `AccessPathPlan`. -/
inductive AccessPathPlan where
  | fullScan
  | hashEq (indexColumn : String) (indexExpression : Option IndexExpression) (indexValue : Value)
      (indexColumns : List String)
  | orderedRange (indexColumn : String) (indexExpression : Option IndexExpression)
      (indexOp : ComparisonOperator) (indexValue : Value)
  | hashIn (indexColumn : String) (indexExpression : Option IndexExpression)
      (indexValues : List Value)
  | intersect (children : List IndexBitmapNode)
  | union (children : List IndexBitmapNode)
  | prefixLike (indexColumn : String) (literal : List UInt8)
  deriving Repr

/-- `QueryPlan`, without the estimates. -/
structure QueryPlan (σ : Type) where
  path : AccessPathPlan := .fullScan
  residual : Option (Predicate σ) := none
  complementaryResidual : Option (Predicate σ) := none

namespace Planner

open CostArith

variable {σ C : Type} [CostArith C]

/-- `collectAndConjuncts`. -/
def collectAndConjuncts : Predicate σ → List (Predicate σ)
  | .and left right => collectAndConjuncts left ++ collectAndConjuncts right
  | predicate => [predicate]

/-- `collectOrDisjuncts`. -/
def collectOrDisjuncts : Predicate σ → List (Predicate σ)
  | .or left right => collectOrDisjuncts left ++ collectOrDisjuncts right
  | predicate => [predicate]

/-- `buildAndTree`. -/
def buildAndTree : List (Predicate σ) → Option (Predicate σ)
  | [] => none
  | first :: rest => some (rest.foldl .and first)

/-- `buildOrTree`. -/
def buildOrTree : List (Predicate σ) → Option (Predicate σ)
  | [] => none
  | first :: rest => some (rest.foldl .or first)

/-- `averageRowsPerKey`. -/
def averageRowsPerKey (rowCount distinctKeys : ℕ) : C :=
  if rowCount = 0 then ofNat 1 else div (ofNat rowCount) (ofNat (Nat.max distinctKeys 1))

/-- `distinctOrOne` on a column. -/
def distinctOrOne (stats : RelationStats C) (indexes : IndexCatalog) (column : String) : ℕ :=
  match indexes.indexDistinctCount [column] with
  | some distinct => Nat.max distinct 1
  | none =>
    match stats.columnHistogram column with
    | some histogram => Nat.max histogram.distinctCount 1
    | none => 1

/-- `distinctOrOne` on an expression. -/
def expressionDistinctOrOne (indexes : IndexCatalog) (expression : IndexExpression) : ℕ :=
  match indexes.expressionDistinctCount expression with
  | some distinct => Nat.max distinct 1
  | none => 1

/-- `rangeCost`. -/
def rangeCost (stats : RelationStats C) (column : String) (op : ComparisonOperator) (value : Value)
    (rowCount : ℕ) : C :=
  match stats.columnHistogram column with
  | some histogram =>
    CostArith.max (mul (histogram.rangeSelectivity op value) (ofNat (Nat.max rowCount 1))) (ofNat 1)
  | none => CostArith.max (div (ofNat rowCount) (ofNat 3)) (ofNat 1)

/-- `inCost`. -/
def inCost (stats : RelationStats C) (indexes : IndexCatalog) (column : String)
    (values : List Value) (rowCount : ℕ) : C :=
  match stats.columnHistogram column with
  | some histogram =>
    CostArith.max (mul (histogram.inSelectivity values) (ofNat (Nat.max rowCount 1))) (ofNat 1)
  | none =>
    mul (ofNat values.length) (averageRowsPerKey rowCount (distinctOrOne stats indexes column))

/-- `isIndexableComparison`: the path and the cost of an indexable comparison. -/
def isIndexableComparison (stats : RelationStats C) (indexes : IndexCatalog) (rowCount : ℕ) :
    Predicate σ → Option (AccessPath × C)
  | .comparison node =>
    if node.rhsColumn.isSome then none
    else
      match node.expression with
      | some expression =>
        if !indexes.hasExpressionIndex expression then none
        else if node.op = .equal then
          some (.hashEq, averageRowsPerKey rowCount (expressionDistinctOrOne indexes expression))
        else some (.orderedRange, CostArith.max (div (ofNat rowCount) (ofNat 3)) (ofNat 1))
      | none =>
        if !indexes.hasIndex [node.column] then none
        else if node.op = .equal then
          some (.hashEq, averageRowsPerKey rowCount (distinctOrOne stats indexes node.column))
        else some (.orderedRange, rangeCost stats node.column node.op node.value rowCount)
  | _ => none

/-- `isIndexableInList`: the cost of an indexable IN list. -/
def isIndexableInList (stats : RelationStats C) (indexes : IndexCatalog) (rowCount : ℕ) :
    Predicate σ → Option C
  | .inList node =>
    if node.inValues = [] then none
    else
      match node.expression with
      | some expression =>
        if !indexes.hasExpressionIndex expression then none
        else
          some (mul (ofNat node.inValues.length)
            (averageRowsPerKey rowCount (expressionDistinctOrOne indexes expression)))
      | none =>
        if !indexes.hasIndex [node.column] then none
        else some (inCost stats indexes node.column node.inValues rowCount)
  | _ => none

/-- The expression of the trigram index on a column. -/
def trigramExpression (column : String) : IndexExpression := { kind := .trigram, column := column }

/-- `isIndexableLike`: the path and the cost of an indexable LIKE, and the trigram probes. -/
def isIndexableLike (indexes : IndexCatalog) (rowCount : ℕ) :
    Predicate σ → Option (AccessPath × C × Option (List IndexBitmapNode))
  | .like node =>
    match likePrefixLiteral node.pattern with
    | some _ =>
      if !indexes.hasIndex [node.column] then none
      else some (.prefixLike, CostArith.max (div (ofNat rowCount) (ofNat 10)) (ofNat 1), none)
    | none =>
      match likeContainsLiteral node.pattern with
      | some needle =>
        if needle.length < 3 then none
        else if !indexes.hasExpressionIndex (trigramExpression node.column) then none
        else
          let grams := extractTrigrams needle
          if grams = [] then none
          else
            let probes := grams.map fun gram => IndexBitmapNode.probe
              { column := node.column
                expression := some (trigramExpression node.column)
                value := .string gram }
            some (.intersect, CostArith.max (div (ofNat rowCount) (ofNat 20)) (ofNat 1),
              some probes)
      | none => none
  | _ => none

/-- `isEqualityIndexProbe`. -/
def isEqualityIndexProbe (indexes : IndexCatalog) : Predicate σ → Bool
  | .comparison node =>
    node.rhsColumn.isNone && node.op = .equal &&
      match node.expression with
      | some expression => indexes.hasExpressionIndex expression
      | none => indexes.hasIndex [node.column]
  | _ => false

/-- `makeEqualityProbe`, for the predicates that `isEqualityIndexProbe` accepts. -/
def makeEqualityProbe : Predicate σ → IndexEqualityProbe
  | .comparison node =>
      { column := node.column, expression := node.expression, value := node.value }
  | _ => { column := "", expression := none, value := .null }

/-- The comparison of `tryRewriteSameColumnEqualityOrToIn`: an equality with a constant. -/
def constantEquality : Predicate σ → Option ComparisonPred
  | .comparison node => if node.rhsColumn.isSome ∨ node.op ≠ .equal then none else some node
  | _ => none

/-- `operator==` on optional expressions. -/
def sameExpression : Option IndexExpression → Option IndexExpression → Bool
  | none, none => true
  | some a, some b => a.beq b
  | _, _ => false

/-- The loop of `tryRewriteSameColumnEqualityOrToIn` after its first round: the values of the
disjuncts that compare the same column or expression. -/
def equalityValues (first : ComparisonPred) : List (Predicate σ) → Option (List Value)
  | [] => some []
  | disjunct :: disjuncts => do
    let node ← constantEquality disjunct
    if node.column ≠ first.column ∨ !sameExpression node.expression first.expression then none
    else return node.value :: (← equalityValues first disjuncts)

/-- `tryRewriteSameColumnEqualityOrToIn`. -/
def tryRewriteSameColumnEqualityOrToIn (predicate : Predicate σ) : Option (Predicate σ) :=
  match predicate with
  | .or _ _ =>
    match collectOrDisjuncts predicate with
    | disjunct :: disjuncts => do
      let first ← constantEquality disjunct
      let values ← equalityValues first disjuncts
      return .inList
        { column := first.column
          inValues := first.value :: values
          expression := first.expression
          referencesOuter := first.referencesOuter }
    | [] => none
  | _ => none

/-- The split of an OR into equality probes and other arms. -/
structure OrUnionSplit (σ : Type) where
  probes : List IndexBitmapNode
  residualDisjuncts : List (Predicate σ)

/-- The loop that splits disjuncts into equality probes and the rest. -/
def splitDisjuncts (indexes : IndexCatalog) (disjuncts : List (Predicate σ)) : OrUnionSplit σ :=
  { probes := (disjuncts.filter (isEqualityIndexProbe indexes)).map fun disjunct =>
      .probe (makeEqualityProbe disjunct)
    residualDisjuncts := disjuncts.filter fun disjunct => !isEqualityIndexProbe indexes disjunct }

/-- `tryMakeOrUnionSplit`. -/
def tryMakeOrUnionSplit (indexes : IndexCatalog) (predicate : Predicate σ) :
    Option (OrUnionSplit σ) :=
  match predicate with
  | .or _ _ =>
    let split := splitDisjuncts indexes (collectOrDisjuncts predicate)
    if split.probes.isEmpty then none else some split
  | _ => none

/-- `tryMakeFullyIndexableOrUnion`: the children of the union. -/
def tryMakeFullyIndexableOrUnion (indexes : IndexCatalog) (predicate : Predicate σ) :
    Option (List IndexBitmapNode) := do
  let split ← tryMakeOrUnionSplit indexes predicate
  if split.residualDisjuncts.isEmpty then some split.probes else none

/-- The selectivity of one equality probe. -/
def probeSelectivity (stats : RelationStats C) (indexes : IndexCatalog) (estimatedRows : ℕ)
    (probe : IndexEqualityProbe) : C :=
  let fanout : C :=
    match probe.expression with
    | some expression =>
        averageRowsPerKey estimatedRows (expressionDistinctOrOne indexes expression)
    | none => averageRowsPerKey estimatedRows (distinctOrOne stats indexes probe.column)
  clamp (div fanout (ofNat (Nat.max estimatedRows 1))) (ofNat 0) (ofNat 1)

/-- `unionSelectivity`. -/
def unionSelectivity (stats : RelationStats C) (indexes : IndexCatalog) (estimatedRows : ℕ)
    (children : List IndexBitmapNode) : C :=
  let missProduct := children.foldl (fun missProduct child =>
    match child with
    | .probe probe =>
      mul missProduct (sub (ofNat 1) (probeSelectivity stats indexes estimatedRows probe))
    | _ => missProduct) (ofNat 1 : C)
  sub (ofNat 1) missProduct

mutual

/-- `nodeSelectivity`. -/
def nodeSelectivity (stats : RelationStats C) (indexes : IndexCatalog) (estimatedRows : ℕ) :
    IndexBitmapNode → C
  | .probe probe => probeSelectivity stats indexes estimatedRows probe
  | .union children => unionSelectivity stats indexes estimatedRows children
  | .intersect children =>
    clamp (productSelectivity stats indexes estimatedRows (ofNat 1) children) (ofNat 0) (ofNat 1)

/-- The product of the selectivities of the children. -/
def productSelectivity (stats : RelationStats C) (indexes : IndexCatalog) (estimatedRows : ℕ)
    (product : C) : List IndexBitmapNode → C
  | [] => product
  | child :: children =>
    productSelectivity stats indexes estimatedRows
      (mul product (nodeSelectivity stats indexes estimatedRows child)) children

end

/-- `tryPlanTopLevelOrUnion`: a plan for every predicate that is an OR. -/
def tryPlanTopLevelOrUnion (predicate : Predicate σ) (stats : RelationStats C)
    (indexes : IndexCatalog) (fullScanCost : C) : Option (QueryPlan σ) :=
  match predicate with
  | .or _ _ =>
    let disjuncts := collectOrDisjuncts predicate
    let split := splitDisjuncts indexes disjuncts
    if split.probes.isEmpty then some { residual := some predicate }
    else
      let indexUnionCost := CostArith.max
        (mul (ofNat (Nat.max stats.rowCount 1))
          (unionSelectivity stats indexes stats.rowCount split.probes)) (ofNat 1)
      if !lt indexUnionCost fullScanCost then some { residual := some predicate }
      else some { path := .union split.probes, residual := buildOrTree split.residualDisjuncts }
  | _ => none

/-- `BestConjunctChoice`. -/
structure BestConjunctChoice (C : Type) where
  bestIndex : ℕ
  bestPath : AccessPath
  bestCost : C
  bestTrigramIntersect : Option (List IndexBitmapNode) := none
  bestUnion : Option (List IndexBitmapNode) := none

/-- The lambda `consider` of `chooseBestConjunctPath`. -/
def consider (i : ℕ) (path : AccessPath) (cost : C)
    (trigram unionPlan : Option (List IndexBitmapNode)) (choice : BestConjunctChoice C) :
    BestConjunctChoice C :=
  let betterCost := lt cost choice.bestCost
  let firstIndexAtParity :=
    eq cost choice.bestCost && choice.bestPath = .fullScan && path ≠ .fullScan
  let preferEquality :=
    eq cost choice.bestCost && path = .hashEq && choice.bestPath ≠ .hashEq &&
      choice.bestPath ≠ .fullScan
  if betterCost || firstIndexAtParity || preferEquality then
    { bestIndex := i
      bestPath := path
      bestCost := cost
      bestTrigramIntersect := trigram
      bestUnion := unionPlan }
  else choice

/-- The first offer of a round of `chooseBestConjunctPath`. -/
def considerComparison (stats : RelationStats C) (indexes : IndexCatalog) (estimatedRows : ℕ)
    (conjunct : Predicate σ) (i : ℕ) (choice : BestConjunctChoice C) : BestConjunctChoice C :=
  match isIndexableComparison stats indexes estimatedRows conjunct with
  | some (path, cost) => consider i path cost none none choice
  | none => choice

/-- The second offer of a round. -/
def considerInList (stats : RelationStats C) (indexes : IndexCatalog) (estimatedRows : ℕ)
    (conjunct : Predicate σ) (i : ℕ) (choice : BestConjunctChoice C) : BestConjunctChoice C :=
  match isIndexableInList stats indexes estimatedRows conjunct with
  | some cost => consider i .hashIn cost none none choice
  | none => choice

/-- The third offer of a round. -/
def considerLike (indexes : IndexCatalog) (estimatedRows : ℕ) (conjunct : Predicate σ) (i : ℕ)
    (choice : BestConjunctChoice C) : BestConjunctChoice C :=
  match isIndexableLike indexes estimatedRows conjunct with
  | some (path, cost, trigram) => consider i path cost trigram none choice
  | none => choice

/-- The last offer of a round: a fully indexable OR. -/
def considerUnion (stats : RelationStats C) (indexes : IndexCatalog) (estimatedRows : ℕ)
    (conjunct : Predicate σ) (i : ℕ) (choice : BestConjunctChoice C) : BestConjunctChoice C :=
  match tryMakeFullyIndexableOrUnion indexes conjunct with
  | some children =>
    let cost := CostArith.max (mul (ofNat (Nat.max estimatedRows 1))
      (unionSelectivity stats indexes estimatedRows children)) (ofNat 1)
    consider i .union cost none (some children) choice
  | none => choice

/-- One round of the loop of `chooseBestConjunctPath`. -/
def considerConjunct (stats : RelationStats C) (indexes : IndexCatalog) (estimatedRows : ℕ)
    (choice : BestConjunctChoice C) (entry : Predicate σ × ℕ) : BestConjunctChoice C :=
  considerUnion stats indexes estimatedRows entry.1 entry.2 <|
    considerLike indexes estimatedRows entry.1 entry.2 <|
      considerInList stats indexes estimatedRows entry.1 entry.2 <|
        considerComparison stats indexes estimatedRows entry.1 entry.2 choice

/-- `chooseBestConjunctPath`. -/
def chooseBestConjunctPath (conjuncts : List (Predicate σ)) (stats : RelationStats C)
    (indexes : IndexCatalog) (fullScanCost : C) (estimatedRows : ℕ) : BestConjunctChoice C :=
  conjuncts.zipIdx.foldl (considerConjunct stats indexes estimatedRows)
    { bestIndex := conjuncts.length, bestPath := .fullScan, bestCost := fullScanCost }

/-- A composite index that covers equality conjuncts, with the places of these conjuncts. -/
structure CompositeCandidate (C : Type) where
  columns : List String
  parts : List Value
  absorbed : List ℕ
  cost : C

/-- The column equalities among the conjuncts with their places; the first on a column counts. -/
def equalityByColumn (conjuncts : List (Predicate σ)) : List (String × ℕ × Value) :=
  conjuncts.zipIdx.foldl (fun found entry =>
    match entry.1 with
    | .comparison node =>
      if node.rhsColumn.isSome ∨ node.expression.isSome ∨ node.op ≠ .equal then found
      else if found.any (·.1 = node.column) then found
      else found ++ [(node.column, entry.2, node.value)]
    | _ => found) []

/-- The fallback of `tryPlanCompositeHashEq` when the index counts no keys. -/
def independentDistinct (stats : RelationStats C) (indexes : IndexCatalog) (n : ℕ) :
    List String → ℕ → ℕ
  | [], distinct => distinct
  | column :: columns, distinct =>
    let part := distinctOrOne stats indexes column
    if n / Nat.max part 1 < distinct then n
    else independentDistinct stats indexes n columns (distinct * part)

/-- The candidate that a composite index gives, when the equalities cover its columns. -/
def compositeCandidate (stats : RelationStats C) (indexes : IndexCatalog)
    (equalities : List (String × ℕ × Value)) (columns : List String) :
    Option (CompositeCandidate C) := do
  if columns.length < 2 ∨ !indexes.hasIndex columns then none
  let covered ← columns.mapM fun column => equalities.find? fun entry => entry.1 = column
  let n := Nat.max stats.rowCount 1
  let counted := (indexes.indexDistinctCount columns).getD 0
  let distinct :=
    if counted = 0 then Nat.min (independentDistinct stats indexes n columns 1) n else counted
  return {
    columns := columns
    parts := covered.map fun entry => entry.2.2
    absorbed := covered.map fun entry => entry.2.1
    cost := averageRowsPerKey n distinct }

/-- One round of the loop of `tryPlanCompositeHashEq`. -/
def considerComposite (bestCost : C) (best : Option (CompositeCandidate C))
    (candidate : CompositeCandidate C) : Option (CompositeCandidate C) :=
  if lt bestCost candidate.cost then best
  else
    match best with
    | none => some candidate
    | some b =>
      if lt candidate.cost b.cost ||
          (eq candidate.cost b.cost && b.columns.length < candidate.columns.length) then
        some candidate
      else best

/-- `tryPlanCompositeHashEq`. -/
def tryPlanCompositeHashEq (conjuncts : List (Predicate σ)) (stats : RelationStats C)
    (indexes : IndexCatalog) (bestCost : C) : Option (QueryPlan σ) :=
  let equalities := equalityByColumn conjuncts
  if equalities.length < 2 then none
  else
    let candidates :=
      indexes.compositeIndexColumnLists.filterMap (compositeCandidate stats indexes equalities)
    match candidates.foldl (considerComposite bestCost) none with
    | none => none
    | some best =>
      match Value.makeComposite best.parts with
      -- the width of a composite index is at least two
      | .error _ => none
      | .ok key =>
        some {
          path := .hashEq (best.columns.head?.getD "") none key best.columns
          residual := buildAndTree ((conjuncts.zipIdx.filter fun entry =>
            !best.absorbed.contains entry.2).map Prod.fst) }

/-- The bitmap node that a conjunct gives to an intersection, with the arms of an OR that no index
serves. -/
def intersectChild (indexes : IndexCatalog) (conjunct : Predicate σ) :
    Option (IndexBitmapNode × List (Predicate σ)) :=
  if isEqualityIndexProbe indexes conjunct then some (.probe (makeEqualityProbe conjunct), [])
  else
    match tryMakeOrUnionSplit indexes conjunct with
    | some split => some (.union split.probes, split.residualDisjuncts)
    | none => none

/-- The predicate of the complementary scan of `tryPlanAndIntersect`: the equalities, then the ORs
with only their unserved arms when they have some, then the other conjuncts. -/
def complementaryPredicate (indexes : IndexCatalog) (conjuncts : List (Predicate σ)) :
    Option (Predicate σ) :=
  let equalities := conjuncts.filter (isEqualityIndexProbe indexes)
  let others := conjuncts.filter fun conjunct => !isEqualityIndexProbe indexes conjunct
  let ors := others.filterMap fun conjunct =>
    match tryMakeOrUnionSplit indexes conjunct with
    | some split =>
      if split.residualDisjuncts.isEmpty then some conjunct else buildOrTree split.residualDisjuncts
    | none => none
  let residual := others.filter fun conjunct => (tryMakeOrUnionSplit indexes conjunct).isNone
  buildAndTree (equalities ++ ors ++ residual)

/-- `tryPlanAndIntersect`. -/
def tryPlanAndIntersect (conjuncts : List (Predicate σ)) (stats : RelationStats C)
    (indexes : IndexCatalog) (bestCost : C) : Option (QueryPlan σ) :=
  let children := conjuncts.filterMap (intersectChild indexes)
  if children.length < 2 then none
  else
    let intersectRows := productSelectivity stats indexes stats.rowCount
      (ofNat (Nat.max stats.rowCount 1)) (children.map Prod.fst)
    let intersectCost := CostArith.max intersectRows (ofNat 1)
    if !lt intersectCost bestCost then none
    else
      some {
        path := .intersect (children.map Prod.fst)
        residual := buildAndTree (conjuncts.filter fun conjunct =>
          (intersectChild indexes conjunct).isNone)
        complementaryResidual :=
          if children.any (fun child => !child.2.isEmpty) then
            complementaryPredicate indexes conjuncts
          else none }

/-- The access path that `finalizeBestAccessPath` builds for the chosen conjunct. -/
def chosenPath (chosen : Predicate σ) (choice : BestConjunctChoice C) : AccessPathPlan :=
  match choice.bestPath, chosen with
  | .hashEq, .comparison node => .hashEq node.column node.expression node.value []
  | .orderedRange, .comparison node =>
    .orderedRange node.column node.expression node.op node.value
  | .hashIn, .inList node => .hashIn node.column node.expression node.inValues
  | .prefixLike, .like node => .prefixLike node.column ((likePrefixLiteral node.pattern).getD [])
  | .intersect, _ =>
    match choice.bestTrigramIntersect with
    | some children => .intersect children
    | none => .fullScan
  | .union, _ =>
    match choice.bestUnion with
    | some children => .union children
    | none => .fullScan
  | _, _ => .fullScan

/-- The probes of a LIKE are approximate: the LIKE stays in the residual. -/
def keepsChosen (choice : BestConjunctChoice C) : Bool :=
  choice.bestPath = .prefixLike ||
    (choice.bestPath = .intersect && choice.bestTrigramIntersect.isSome)

/-- `finalizeBestAccessPath`. -/
def finalizeBestAccessPath (conjuncts : List (Predicate σ)) (choice : BestConjunctChoice C)
    (chosen : Predicate σ) : QueryPlan σ :=
  { path := chosenPath chosen choice
    residual := buildAndTree
      (if keepsChosen choice then conjuncts else conjuncts.eraseIdx choice.bestIndex) }

/-- The predicate after the rewriting of equalities on one column into an IN list. -/
def rewriteToIn (predicate : Predicate σ) : Predicate σ :=
  (tryRewriteSameColumnEqualityOrToIn predicate).getD predicate

/-- The conjuncts that `planSelect` considers. -/
def planConjuncts (predicate : Predicate σ) : List (Predicate σ) :=
  (collectAndConjuncts (rewriteToIn predicate)).map rewriteToIn

/-- The cost of a full scan. -/
def fullScanCost (stats : RelationStats C) : C := ofNat (Nat.max stats.rowCount 1)

/-- The choice that `planSelect` makes among the conjuncts. -/
def bestChoice (predicate : Predicate σ) (stats : RelationStats C) (indexes : IndexCatalog) :
    BestConjunctChoice C :=
  chooseBestConjunctPath (planConjuncts predicate) stats indexes (fullScanCost stats) stats.rowCount

/-- `QueryPlanner::planSelect`. -/
def planSelect (filter : Option (Predicate σ)) (stats : RelationStats C) (indexes : IndexCatalog) :
    QueryPlan σ :=
  match filter with
  | none => {}
  | some predicate =>
    match tryPlanTopLevelOrUnion (rewriteToIn predicate) stats indexes (fullScanCost stats) with
    | some plan => plan
    | none =>
      let conjuncts := planConjuncts predicate
      let choice := bestChoice predicate stats indexes
      match tryPlanCompositeHashEq conjuncts stats indexes choice.bestCost with
      | some plan => plan
      | none =>
        match tryPlanAndIntersect conjuncts stats indexes choice.bestCost with
        | some plan => plan
        | none =>
          match conjuncts[choice.bestIndex]? with
          | none => { residual := some predicate }
          | some chosen => finalizeBestAccessPath conjuncts choice chosen

end Planner

end VertexDB
