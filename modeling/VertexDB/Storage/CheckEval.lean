import VertexDB.Parser.Predicate

/-!
# CHECK constraints

Three-valued evaluation of CHECK predicates, as in `src/storage/check_eval.cpp`.
-/

namespace VertexDB

/-- A CHECK predicate. The syntax of CREATE TABLE admits no subquery in one. -/
abbrev CheckPredicate := Predicate Empty

/-- `TriBool`. -/
inductive TriBool where
  | false
  | true
  | unknown
  deriving DecidableEq, Repr

/-- The truth value of a comparison. -/
def TriBool.ofBool (b : Bool) : TriBool := if b then .true else .false

/-- The branch of `evalCheckTri` for a comparison. -/
def evalCheckComparison (node : ComparisonPred) (row : Row) (lookup : String → Option ℕ) :
    Except Error TriBool := do
  if node.expression.isSome then
    throw (.runtimeError "CHECK does not support expression comparisons")
  match lookup node.column with
  | none => throw (.runtimeError ("unknown CHECK column " ++ node.column))
  | some leftIndex =>
    let leftValue := row.at leftIndex
    if leftValue.isNull then return .unknown
    match node.rhsColumn with
    | some rhsColumn =>
      match lookup rhsColumn with
      | none => throw (.runtimeError ("unknown CHECK column " ++ rhsColumn))
      | some rightIndex =>
        let rightValue := row.at rightIndex
        if rightValue.isNull then return .unknown
        return .ofBool (compareValues leftValue node.op rightValue)
    | none =>
      if node.value.isNull then return .unknown
      return .ofBool (compareValues leftValue node.op node.value)

/-- The text of the exception for a node that is neither a comparison nor AND / OR. -/
def unsupportedCheck : Error :=
  .runtimeError "CHECK supports only column comparisons combined with AND / OR"

/-- `evalCheckTri`. -/
def evalCheckTri (row : Row) (lookup : String → Option ℕ) : CheckPredicate → Except Error TriBool
  | .and left right => do
    let l ← evalCheckTri row lookup left
    if l = .false then return .false
    let r ← evalCheckTri row lookup right
    if r = .false then return .false
    return if l = .true ∧ r = .true then .true else .unknown
  | .or left right => do
    let l ← evalCheckTri row lookup left
    if l = .true then return .true
    let r ← evalCheckTri row lookup right
    if r = .true then return .true
    return if l = .false ∧ r = .false then .false else .unknown
  | .comparison node => evalCheckComparison node row lookup
  | _ => throw unsupportedCheck

/-- `evalCheckPredicate`. -/
def evalCheckPredicate (predicate : CheckPredicate) (row : Row) (lookup : String → Option ℕ) :
    Except Error Bool := do
  return (← evalCheckTri row lookup predicate) ≠ .false

/-- `assertSimpleCheckConstraint`. -/
def assertSimpleCheckConstraint : CheckPredicate → Except Error Unit
  | .and left right | .or left right => do
    assertSimpleCheckConstraint left
    assertSimpleCheckConstraint right
  | .comparison node => do
    if node.expression.isSome then
      throw (.runtimeError "CHECK does not support expression comparisons")
    if node.referencesOuter then
      throw (.runtimeError "CHECK cannot reference outer query columns")
    match node.rhsColumn, node.value with
    | none, .parameter _ => throw (.runtimeError "CHECK does not support parameter placeholders")
    | _, _ => pure ()
  | _ => throw unsupportedCheck

/-- `literalForCheck`. -/
def literalForCheck : Value → String
  | .double d =>
    let text := d.toText
    if text.toList.any fun c => c = '.' ∨ c = 'e' ∨ c = 'E' then text else text ++ ".0"
  | .string bytes =>
    let escaped := bytes.flatMap fun b => if b = 34 ∨ b = 92 then [92, b] else [b]
    "\"" ++ (Value.string escaped).toText ++ "\""
  | value => value.toText

/-- The symbol of a comparison operator. -/
def ComparisonOperator.symbol : ComparisonOperator → String
  | .equal => "="
  | .greater => ">"
  | .less => "<"

/-- `checkConstraintLiteral`. -/
def checkConstraintLiteral : CheckPredicate → String
  | .and left right =>
    "(" ++ checkConstraintLiteral left ++ " AND " ++ checkConstraintLiteral right ++ ")"
  | .or left right =>
    "(" ++ checkConstraintLiteral left ++ " OR " ++ checkConstraintLiteral right ++ ")"
  | .comparison node =>
    node.column ++ " " ++ node.op.symbol ++ " " ++ node.rhsColumn.getD (literalForCheck node.value)
  -- the constructor of a table refuses every other node
  | _ => ""

end VertexDB
