import VertexDB.Common.Value

/-!
# Index expressions

The key expressions of expression indexes and their value on a row, as in
`src/common/index_expression.cpp`.
-/

namespace VertexDB

/-- `IndexExpression::Kind`. -/
inductive IndexExpressionKind where
  | column
  | negate
  | add
  | subtract
  | trigram
  deriving DecidableEq, Repr

/-- `IndexExpression`. -/
structure IndexExpression where
  kind : IndexExpressionKind := .column
  column : String
  literal : Value := .null
  deriving DecidableEq, Repr

/-- The defaulted `operator==`, which compares the literals with their own `operator==`. -/
def IndexExpression.beq (a b : IndexExpression) : Bool :=
  a.kind == b.kind && a.column == b.column && a.literal.beq b.literal

/-- `requireNumeric`: the operand of an arithmetic expression. -/
def requireNumeric (value : Value) (context : String) : Except Error (Int64 ⊕ Double) :=
  match value with
  | .null => throw (.runtimeError (context ++ " cannot be null"))
  | .int i => pure (.inl i)
  | .double d => pure (.inr d)
  | .string _ => throw (.runtimeError (context ++ " requires a numeric value"))
  | .parameter _ | .composite _ => do
    let _ ← value.type
    throw (.runtimeError (context ++ " requires a numeric value"))

/-- `negateValue`. -/
def negateValue (value : Value) : Except Error Value := do
  match ← requireNumeric value "unary minus" with
  | .inl i => pure (.int (-i))
  | .inr d => pure (.double d.neg)

/-- The common body of `addValues` and `subtractValues`: integers stay integers, and a double on
either side makes both sides doubles. -/
def combineValues (context : String) (onInt : Int64 → Int64 → Int64)
    (onDouble : Double → Double → Double) (left right : Value) : Except Error Value := do
  let lhs ← requireNumeric left context
  let rhs ← requireNumeric right context
  match lhs, rhs with
  | .inl a, .inl b => pure (.int (onInt a b))
  | .inl a, .inr b => pure (.double (onDouble (.ofInt64 a) b))
  | .inr a, .inl b => pure (.double (onDouble a (.ofInt64 b)))
  | .inr a, .inr b => pure (.double (onDouble a b))

/-- `addValues`. -/
def addValues (left right : Value) : Except Error Value :=
  combineValues "addition" (· + ·) Double.add left right

/-- `subtractValues`. -/
def subtractValues (left right : Value) : Except Error Value :=
  combineValues "subtraction" (· - ·) Double.sub left right

/-- `evaluateIndexExpression`. -/
def evaluateIndexExpression (expression : IndexExpression) (row : Row)
    (lookup : String → Option ℕ) : Except Error Value :=
  match lookup expression.column with
  | none => throw (.runtimeError "unknown expression index column")
  | some index =>
    let base := row.at index
    match expression.kind with
    | .column => pure base
    | .negate => negateValue base
    | .add => addValues base expression.literal
    | .subtract => subtractValues base expression.literal
    -- one row has many trigram keys; the index manager splits the text
    | .trigram => pure base

section Congruence

/-- Two outcomes that no comparison tells apart: the same error or indistinct values. -/
inductive SameOutcome : Except Error Value → Except Error Value → Prop
  | error (e : Error) : SameOutcome (.error e) (.error e)
  | ok {v w : Value} (h : v.Indistinct w) : SameOutcome (.ok v) (.ok w)

theorem SameOutcome.refl (x : Except Error Value) : SameOutcome x x := by
  cases x with
  | error e => exact .error e
  | ok v => exact .ok (.refl v)

theorem SameOutcome.of_ok {x : Except Error Value} {w : Value} (h : SameOutcome x (.ok w)) :
    ∃ v, x = .ok v ∧ v.Indistinct w := by
  cases h with
  | ok hv => exact ⟨_, rfl, hv⟩

/-- Equal literals give outcomes that no comparison tells apart. -/
theorem combineValues_congr (context : String) (onInt : Int64 → Int64 → Int64)
    {onDouble : Double → Double → Double}
    (hdouble : ∀ x y y', y.beq y' = true → (onDouble x y).Indistinct (onDouble x y')) (left : Value)
    {l l' : Value} (h : l.beq l' = true) :
    SameOutcome (combineValues context onInt onDouble left l)
      (combineValues context onInt onDouble left l') := by
  cases l <;> cases l' <;> simp only [Value.beq, Bool.false_eq_true, beq_iff_eq] at h
  case double.double y y' =>
    cases left with
    | int a => exact .ok (.double (hdouble (.ofInt64 a) y y' h))
    | double x => exact .ok (.double (hdouble x y y' h))
    | null | string _ | parameter _ | composite _ => exact .error _
  case composite.composite =>
    cases left <;> exact .error _
  all_goals
    first
      | subst h; exact .refl _
      | exact .refl _

/-- Equal expressions have outcomes that no comparison tells apart. -/
theorem evaluateIndexExpression_congr {e e' : IndexExpression} (h : e.beq e' = true) (row : Row)
    (lookup : String → Option ℕ) :
    SameOutcome (evaluateIndexExpression e row lookup) (evaluateIndexExpression e' row lookup) := by
  obtain ⟨kind, column, literal⟩ := e
  obtain ⟨kind', column', literal'⟩ := e'
  simp only [IndexExpression.beq, Bool.and_eq_true, beq_iff_eq] at h
  obtain ⟨⟨rfl, rfl⟩, hlit⟩ := h
  unfold evaluateIndexExpression
  cases hidx : lookup column with
  | none => exact .refl _
  | some index =>
    cases kind with
    | add => exact combineValues_congr _ _ (fun x _ _ hy => x.add_indistinct hy) _ hlit
    | subtract =>
      exact combineValues_congr _ _ (fun x _ _ hy => x.add_indistinct (Double.neg_beq hy)) _ hlit
    | column | negate | trigram => exact .refl _

end Congruence

end VertexDB
