import VertexDB.Planner.QueryPlanner

/-!
# The conjunct that the planner serves from an index

`chooseBestConjunctPath` keeps the cheapest access path over all conjuncts. Whatever the costs are,
the path it keeps is one that the catalog offers for the conjunct at the kept place.
-/

namespace VertexDB

open Option List Bool

/-- The catalog has an index on the left side of a comparison or IN list. -/
def IndexCatalog.hasOperandIndex (indexes : IndexCatalog) (column : String)
    (expression : Option IndexExpression) : Bool :=
  match expression with
  | some expression => indexes.hasExpressionIndex expression
  | none => indexes.hasIndex [column]

namespace Planner

variable {σ C : Type} [CostArith C]
  {rowCount : ℕ} {path : AccessPath} {children : List IndexBitmapNode} {cost : C}

open CostArith

/-- The trigram probes of a literal. -/
def trigramProbes (column : String) (needle : List UInt8) : List IndexBitmapNode :=
  (extractTrigrams needle).map fun gram => .probe
    { column := column
      expression := some (trigramExpression column)
      value := .string gram }

/-- The catalog offers the path for the conjunct, with these trigram probes or union children. -/
inductive Serves (indexes : IndexCatalog) : Predicate σ → AccessPath →
    Option (List IndexBitmapNode) → Option (List IndexBitmapNode) → Prop
  | equality {node : ComparisonPred} (hrhs : node.rhsColumn = none) (hop : node.op = .equal)
      (hindex : indexes.hasOperandIndex node.column node.expression = true) :
      Serves indexes (.comparison node) .hashEq none none
  | range {node : ComparisonPred} (hrhs : node.rhsColumn = none) (hop : node.op ≠ .equal)
      (hindex : indexes.hasOperandIndex node.column node.expression = true) :
      Serves indexes (.comparison node) .orderedRange none none
  | inList {node : InListPred}
      (hindex : indexes.hasOperandIndex node.column node.expression = true) :
      Serves indexes (.inList node) .hashIn none none
  | prefixLike {node : PatternPred} {literal : List UInt8}
      (hliteral : likePrefixLiteral node.pattern = some literal)
      (hindex : indexes.hasIndex [node.column] = true) :
      Serves indexes (.like node) .prefixLike none none
  | trigramLike {node : PatternPred} {needle : List UInt8}
      (hneedle : likeContainsLiteral node.pattern = some needle) (hlength : 3 ≤ needle.length)
      (hindex : indexes.hasExpressionIndex (trigramExpression node.column) = true) :
      Serves indexes (.like node) .intersect (some (trigramProbes node.column needle)) none
  | union {p : Predicate σ} {children : List IndexBitmapNode}
      (hunion : tryMakeFullyIndexableOrUnion indexes p = some children) :
      Serves indexes p .union none (some children)

variable {indexes : IndexCatalog} {p : Predicate σ}

theorem serves_of_isIndexableComparison {stats : RelationStats C}
    (h : isIndexableComparison stats indexes rowCount p = some (path, cost)) :
    Serves indexes p path none none := by
  cases p with
  | comparison node =>
    rw [isIndexableComparison, ite_none_left_eq_some] at h
    obtain ⟨hrhs, h⟩ := h
    rw [not_isSome_iff_eq_none] at hrhs
    rcases hexpr : node.expression with _ | expression <;>
      simp only [hexpr, ite_none_left_eq_some, not_eq_true', not_eq_false] at h <;>
      obtain ⟨hidx, h⟩ := h
    all_goals
      have hoperand : indexes.hasOperandIndex node.column node.expression = true := by
        rw [hexpr]
        exact hidx
      split at h <;>
        · rename_i hop
          obtain ⟨rfl, -⟩ := Prod.mk.inj (Option.some.inj h)
          first
            | exact .equality hrhs hop hoperand
            | exact .range hrhs hop hoperand
  | _ => cases h

theorem serves_of_isIndexableInList {stats : RelationStats C}
    (h : isIndexableInList stats indexes rowCount p = some cost) :
    Serves indexes p .hashIn none none := by
  cases p with
  | inList node =>
    rw [isIndexableInList, ite_none_left_eq_some] at h
    obtain ⟨-, h⟩ := h
    refine .inList ?_
    rcases hexpr : node.expression with _ | expression <;>
      simp only [hexpr, ite_none_left_eq_some, not_eq_true', not_eq_false] at h
    · exact h.1
    · exact h.1
  | _ => cases h

theorem serves_of_isIndexableLike {trigram : Option (List IndexBitmapNode)}
    (h : isIndexableLike indexes rowCount p = some (path, cost, trigram)) :
    Serves indexes p path trigram none := by
  cases p with
  | like node =>
    rw [isIndexableLike] at h
    split at h
    · rename_i literal hlit
      simp only [ite_none_left_eq_some, not_eq_true', not_eq_false,
        Option.some.injEq, Prod.mk.injEq] at h
      obtain ⟨hidx, rfl, -, rfl⟩ := h
      exact .prefixLike hlit hidx
    · split at h
      · rename_i needle hneedle
        simp only [ite_none_left_eq_some, not_eq_true', not_eq_false,
          Option.some.injEq, Prod.mk.injEq, not_lt] at h
        obtain ⟨hlen, hidx, -, rfl, -, rfl⟩ := h
        exact .trigramLike hneedle hlen hidx
      · cases h
  | _ => cases h

/-- The children of a union are the probes of all disjuncts of an OR. -/
theorem tryMakeFullyIndexableOrUnion_eq_some
    (h : tryMakeFullyIndexableOrUnion indexes p = some children) :
    children = (collectOrDisjuncts p).map (fun disjunct => .probe (makeEqualityProbe disjunct)) ∧
      ∀ disjunct ∈ collectOrDisjuncts p, isEqualityIndexProbe indexes disjunct = true := by
  obtain ⟨split, hsplit, h⟩ := bind_eq_some_iff.mp h
  simp only [ite_none_right_eq_some, List.isEmpty_iff, Option.some.injEq] at h
  obtain ⟨hres, rfl⟩ := h
  cases p with
  | or left right =>
    simp only [tryMakeOrUnionSplit, ite_none_left_eq_some, Option.some.injEq] at hsplit
    obtain ⟨-, rfl⟩ := hsplit
    have hall : ∀ disjunct ∈ collectOrDisjuncts (.or left right),
        isEqualityIndexProbe indexes disjunct = true := by
      simpa [splitDisjuncts, filter_eq_nil_iff] using hres
    refine ⟨?_, hall⟩
    rw [splitDisjuncts, filter_eq_self.mpr hall]
  | _ => cases hsplit

theorem exists_or_of_tryMakeFullyIndexableOrUnion
    (h : tryMakeFullyIndexableOrUnion indexes p = some children) :
    ∃ left right, p = .or left right := by
  cases p with
  | or left right => exact ⟨left, right, rfl⟩
  | _ => cases h

section Choice

variable {stats : RelationStats C} {indexes : IndexCatalog} {conjuncts : List (Predicate σ)}
  {choice : BestConjunctChoice C}

/-- What holds of the choice after every round: nothing is chosen, or the path serves the conjunct
at the chosen place. -/
def ChoiceServes (indexes : IndexCatalog) (conjuncts : List (Predicate σ))
    (choice : BestConjunctChoice C) : Prop :=
  choice.bestIndex = conjuncts.length ∨
    ∃ chosen, conjuncts[choice.bestIndex]? = some chosen ∧
      Serves indexes chosen choice.bestPath choice.bestTrigramIntersect choice.bestUnion

theorem ChoiceServes.consider (h : ChoiceServes indexes conjuncts choice) {i : ℕ}
    {conjunct : Predicate σ} (hi : conjuncts[i]? = some conjunct)
    {trigram unionPlan : Option (List IndexBitmapNode)}
    (hserves : Serves indexes conjunct path trigram unionPlan) :
    ChoiceServes indexes conjuncts (consider i path cost trigram unionPlan choice) := by
  rw [Planner.consider]
  split
  · exact Or.inr ⟨conjunct, hi, hserves⟩
  · exact h

theorem ChoiceServes.considerConjunct (h : ChoiceServes indexes conjuncts choice) {i : ℕ}
    {conjunct : Predicate σ} (hi : conjuncts[i]? = some conjunct) (rowCount : ℕ) :
    ChoiceServes indexes conjuncts
      (considerConjunct stats indexes rowCount choice (conjunct, i)) := by
  have hcomparison : ChoiceServes indexes conjuncts
      (considerComparison stats indexes rowCount conjunct i choice) := by
    rw [considerComparison]
    split
    · rename_i hoffer
      exact h.consider hi (serves_of_isIndexableComparison hoffer)
    · exact h
  have hinList : ChoiceServes indexes conjuncts (considerInList stats indexes rowCount conjunct i
      (considerComparison stats indexes rowCount conjunct i choice)) := by
    rw [considerInList]
    split
    · rename_i hoffer
      exact hcomparison.consider hi (serves_of_isIndexableInList hoffer)
    · exact hcomparison
  have hlike : ChoiceServes indexes conjuncts (considerLike indexes rowCount conjunct i
      (considerInList stats indexes rowCount conjunct i
        (considerComparison stats indexes rowCount conjunct i choice))) := by
    rw [considerLike]
    split
    · rename_i hoffer
      exact hinList.consider hi (serves_of_isIndexableLike hoffer)
    · exact hinList
  rw [Planner.considerConjunct, considerUnion]
  split
  · rename_i hoffer
    exact hlike.consider hi (.union hoffer)
  · exact hlike

/-- The chosen path serves the conjunct at the chosen place. -/
theorem serves_chooseBestConjunctPath {fullScanCost : C} {chosen : Predicate σ}
    (h : conjuncts[(chooseBestConjunctPath conjuncts stats indexes fullScanCost
      rowCount).bestIndex]? = some chosen) :
    Serves indexes chosen
      (chooseBestConjunctPath conjuncts stats indexes fullScanCost rowCount).bestPath
      (chooseBestConjunctPath conjuncts stats indexes fullScanCost rowCount).bestTrigramIntersect
      (chooseBestConjunctPath conjuncts stats indexes fullScanCost rowCount).bestUnion := by
  have hrun : ∀ (entries : List (Predicate σ × ℕ)) (choice : BestConjunctChoice C),
      (∀ entry ∈ entries, conjuncts[entry.2]? = some entry.1) →
      ChoiceServes indexes conjuncts choice →
      ChoiceServes indexes conjuncts
        (entries.foldl (Planner.considerConjunct stats indexes rowCount) choice) := by
    intro entries
    induction entries with
    | nil => exact fun _ _ h => h
    | cons entry entries ih =>
      intro choice hentries hchoice
      rw [forall_mem_cons] at hentries
      exact ih _ hentries.2 (hchoice.considerConjunct hentries.1 rowCount)
  have hall := hrun conjuncts.zipIdx
    { bestIndex := conjuncts.length, bestPath := .fullScan, bestCost := fullScanCost }
    (fun entry hentry => (mem_zipIdx_iff_getElem?.mp hentry)) (Or.inl rfl)
  rw [← chooseBestConjunctPath] at hall
  rcases hall with hnone | ⟨chosen', hchosen', hserves⟩
  · rw [hnone, getElem?_eq_none le_rfl] at h
    cases h
  · rw [h] at hchosen'
    exact Option.some.inj hchosen' ▸ hserves

end Choice

/-- `planSelect` reaches `finalizeBestAccessPath` with this conjunct: the predicate is no OR and
neither a composite index nor an intersection is taken. -/
structure ReachesFinalize (predicate : Predicate σ) (stats : RelationStats C)
    (indexes : IndexCatalog) (chosen : Predicate σ) : Prop where
  noUnion : tryPlanTopLevelOrUnion (rewriteToIn predicate) stats indexes (fullScanCost stats) = none
  noComposite : tryPlanCompositeHashEq (planConjuncts predicate) stats indexes
    (bestChoice predicate stats indexes).bestCost = none
  noIntersect : tryPlanAndIntersect (planConjuncts predicate) stats indexes
    (bestChoice predicate stats indexes).bestCost = none
  chosen : (planConjuncts predicate)[(bestChoice predicate stats indexes).bestIndex]? = some chosen

theorem planSelect_eq_finalize {predicate chosen : Predicate σ} {stats : RelationStats C}
    (h : ReachesFinalize predicate stats indexes chosen) :
    planSelect (some predicate) stats indexes =
      finalizeBestAccessPath (planConjuncts predicate) (bestChoice predicate stats indexes)
        chosen := by
  simp only [planSelect, h.noUnion, h.noComposite, h.noIntersect, h.chosen]

end Planner

end VertexDB
