import VertexDB.Common.Double
import Mathlib.Data.List.Basic
import Mathlib.Tactic.Common

/-!
# Values, columns and rows

The typed SQL values of `src/common/value.cpp`: NULL, integers, doubles and strings, the parameter
slots of prepared statements and the composite keys of multi-column indexes. A string is its bytes.

The source compares values with `operator==` and `operator<`. The first is not equality of the model
(a NaN differs from itself and the two zeros are equal), so it is a function of its own,
`VertexDB.Value.beq`.
-/

namespace VertexDB

/-- `ColumnType`. -/
inductive ColumnType where
  | int
  | double
  | string
  deriving DecidableEq, Repr

/-- `Value`, with the alternatives of `ValueData` in their order. -/
inductive Value where
  | null
  | int (value : Int64)
  | double (value : Double)
  | string (value : List UInt8)
  | parameter (index : ℕ)
  | composite (parts : List Value)
  deriving Repr

namespace Value

mutual

private def decEqValue : (v w : Value) → Decidable (v = w)
  | null, null => isTrue rfl
  | int a, int b => decidable_of_iff (a = b) (by simp)
  | double a, double b => decidable_of_iff (a = b) (by simp)
  | string a, string b => decidable_of_iff (a = b) (by simp)
  | parameter a, parameter b => decidable_of_iff (a = b) (by simp)
  | composite as, composite bs =>
    @decidable_of_iff _ (as = bs) (by simp) (decEqParts as bs)
  | null, int _ | null, double _ | null, string _ | null, parameter _ | null, composite _ =>
    isFalse (by simp)
  | int _, null | int _, double _ | int _, string _ | int _, parameter _ | int _, composite _ =>
    isFalse (by simp)
  | double _, null | double _, int _ | double _, string _ | double _, parameter _
  | double _, composite _ => isFalse (by simp)
  | string _, null | string _, int _ | string _, double _ | string _, parameter _
  | string _, composite _ => isFalse (by simp)
  | parameter _, null | parameter _, int _ | parameter _, double _ | parameter _, string _
  | parameter _, composite _ => isFalse (by simp)
  | composite _, null | composite _, int _ | composite _, double _ | composite _, string _
  | composite _, parameter _ => isFalse (by simp)

private def decEqParts : (vs ws : List Value) → Decidable (vs = ws)
  | [], [] => isTrue rfl
  | [], _ :: _ => isFalse (by simp)
  | _ :: _, [] => isFalse (by simp)
  | v :: vs, w :: ws =>
    @decidable_of_iff _ (v = w ∧ vs = ws) (by simp)
      (@instDecidableAnd _ _ (decEqValue v w) (decEqParts vs ws))

end

instance : DecidableEq Value := decEqValue

end Value

/-- What a call of the source throws: the kind of the exception and its text. -/
inductive Error where
  | invalidArgument (message : String)
  | runtimeError (message : String)
  deriving DecidableEq, Repr

namespace Value

/-- `Value::isNull`. -/
def isNull : Value → Bool
  | null => true
  | _ => false

/-- `Value::type`. -/
def type : Value → Except Error ColumnType
  | null => throw (.runtimeError "null value has no concrete column type")
  | parameter _ => throw (.runtimeError "parameter placeholder has no concrete column type")
  | composite _ => throw (.runtimeError "composite value has no concrete column type")
  | int _ => pure .int
  | double _ => pure .double
  | string _ => pure .string

/-- `Value::composite`: a key of one part is the part itself. -/
def makeComposite : List Value → Except Error Value
  | [] => throw (.invalidArgument "composite value requires at least one part")
  | [part] => pure part
  | parts => pure (composite parts)

mutual

/-- `Value::hasNullCompositePart`. -/
def hasNullCompositePart : Value → Bool
  | null => true
  | composite parts => anyNullPart parts
  | _ => false

/-- The loop of `hasNullCompositePart` over the parts. -/
def anyNullPart : List Value → Bool
  | [] => false
  | part :: parts => part.isNull || part.hasNullCompositePart || anyNullPart parts

end

mutual

/-- `operator==` on values. -/
def beq : Value → Value → Bool
  | null, null => true
  | int a, int b => a == b
  | double a, double b => a.beq b
  | string a, string b => a == b
  | parameter a, parameter b => a == b
  | composite as, composite bs => beqParts as bs
  | _, _ => false

/-- `operator==` on vectors of values. -/
def beqParts : List Value → List Value → Bool
  | [], [] => true
  | a :: as, b :: bs => a.beq b && beqParts as bs
  | _, _ => false

end

mutual

theorem beq_comm : (a b : Value) → a.beq b = b.beq a
  | composite as, composite bs => by simp only [beq, beqParts_comm as bs]
  | int a, int b => by simp only [beq, BEq.comm]
  | double a, double b => by simp only [beq, Double.beq_comm a b]
  | string a, string b => by simp only [beq, BEq.comm]
  | parameter a, parameter b => by simp only [beq, BEq.comm]
  | null, b => by cases b <;> simp [beq]
  | int _, null | int _, double _ | int _, string _ | int _, parameter _ | int _, composite _
  | double _, null | double _, int _ | double _, string _ | double _, parameter _
  | double _, composite _ | string _, null | string _, int _ | string _, double _
  | string _, parameter _ | string _, composite _ | parameter _, null | parameter _, int _
  | parameter _, double _ | parameter _, string _ | parameter _, composite _
  | composite _, null | composite _, int _ | composite _, double _ | composite _, string _
  | composite _, parameter _ => by simp [beq]

theorem beqParts_comm : (as bs : List Value) → beqParts as bs = beqParts bs as
  | [], [] => rfl
  | [], _ :: _ | _ :: _, [] => by simp [beqParts]
  | a :: as, b :: bs => by simp only [beqParts, beq_comm a b, beqParts_comm as bs]

end

mutual

/-- Equality of values is symmetric and transitive; only a NaN is not equal to itself. -/
theorem beq_trans : {a b c : Value} → a.beq b = true → b.beq c = true → a.beq c = true
  | null, null, null, _, _ => by simp [beq]
  | int a, int b, int c, hab, hbc => by
    simp only [beq, beq_iff_eq] at *
    exact hab.trans hbc
  | double a, double b, double c, hab, hbc => by
    simp only [beq] at *
    exact Double.beq_trans hab hbc
  | string a, string b, string c, hab, hbc => by
    simp only [beq, beq_iff_eq] at *
    exact hab.trans hbc
  | parameter a, parameter b, parameter c, hab, hbc => by
    simp only [beq, beq_iff_eq] at *
    exact hab.trans hbc
  | composite as, composite bs, composite cs, hab, hbc => by
    simp only [beq] at *
    exact beqParts_trans hab hbc

theorem beqParts_trans : {as bs cs : List Value} → beqParts as bs = true → beqParts bs cs = true →
    beqParts as cs = true
  | [], [], [], _, _ => rfl
  | a :: as, b :: bs, c :: cs, hab, hbc => by
    simp only [beqParts, Bool.and_eq_true] at *
    exact ⟨beq_trans hab.1 hbc.1, beqParts_trans hab.2 hbc.2⟩

end

theorem beq_congr_left {a b : Value} (h : a.beq b = true) (c : Value) : a.beq c = b.beq c := by
  rw [Bool.eq_iff_iff]
  exact ⟨beq_trans (by rwa [beq_comm]), beq_trans h⟩

/-- `ValueData::index`. -/
def dataIndex : Value → ℕ
  | null => 0
  | int _ => 1
  | double _ => 2
  | string _ => 3
  | parameter _ => 4
  | composite _ => 5

mutual

/-- `operator<` on values: two composites and two values of one column type are compared by their
contents, any other two by the index of their alternative. -/
def lt : Value → Value → Bool
  | int a, int b => a < b
  | double a, double b => a.lt b
  | string a, string b => a < b
  | composite as, composite bs => ltParts as bs
  | a, b => a.dataIndex < b.dataIndex
termination_by structural a => a

/-- `operator<` with its arguments exchanged, see `gt_eq_lt`. The recursion of the comparison of
vectors needs both directions on the same first argument. -/
def gt : Value → Value → Bool
  | int a, int b => b < a
  | double a, double b => b.lt a
  | string a, string b => b < a
  | composite as, composite bs => gtParts as bs
  | a, b => b.dataIndex < a.dataIndex
termination_by structural a => a

/-- `operator<` on vectors of values, the lexicographical comparison. -/
def ltParts : List Value → List Value → Bool
  | _, [] => false
  | [], _ :: _ => true
  | a :: as, b :: bs => a.lt b || (!a.gt b && ltParts as bs)
termination_by structural as => as

/-- `operator<` on vectors with its arguments exchanged. -/
def gtParts : List Value → List Value → Bool
  | [], _ => false
  | _ :: _, [] => true
  | a :: as, b :: bs => a.gt b || (!a.lt b && gtParts as bs)
termination_by structural as => as

end

mutual

theorem exchange : (a b : Value) → a.gt b = b.lt a ∧ a.lt b = b.gt a
  | composite as, composite bs => by simp only [gt, lt, exchangeParts as bs, and_self]
  | null, b => by cases b <;> simp [gt, lt]
  | int _, b => by cases b <;> simp [gt, lt]
  | double _, b => by cases b <;> simp [gt, lt]
  | string _, b => by cases b <;> simp [gt, lt]
  | parameter _, b => by cases b <;> simp [gt, lt]
  | composite _, null | composite _, int _ | composite _, double _ | composite _, string _
  | composite _, parameter _ => by simp [gt, lt]

theorem exchangeParts : (as bs : List Value) →
    gtParts as bs = ltParts bs as ∧ ltParts as bs = gtParts bs as
  | [], bs => by cases bs <;> simp [gtParts, ltParts]
  | _ :: _, [] => by simp [gtParts, ltParts]
  | a :: as, b :: bs => by simp only [gtParts, ltParts, exchange a b, exchangeParts as bs, and_self]

end

theorem gt_eq_lt (a b : Value) : a.gt b = b.lt a := (exchange a b).1

mutual

/-- `Value::toString`. The bytes of a string are shown as the characters of the same codes. -/
def toText : Value → String
  | null => "NULL"
  | int value => toString value.toInt
  | double value => value.toText
  | string value => String.ofList (value.map fun b => Char.ofNat b.toNat)
  | parameter _ => "?"
  | composite parts => "(" ++ joinTexts parts ++ ")"

/-- The loop of `toString` over the parts. -/
def joinTexts : List Value → String
  | [] => ""
  | [part] => part.toText
  | part :: parts => part.toText ++ ", " ++ joinTexts parts

end

end Value

/-- `Column`. -/
structure Column where
  name : String
  type : ColumnType
  nullable : Bool := false
  unique : Bool := false
  primaryKey : Bool := false
  deriving DecidableEq, Repr

/-- `Row`. -/
abbrev Row := List Value

/-- `row[index]`; the callers of the source stay within the row. -/
def Row.at (row : Row) (index : ℕ) : Value := row.getD index .null

/-- `ComparisonOperator`. -/
inductive ComparisonOperator where
  | equal
  | greater
  | less
  deriving DecidableEq, Repr

/-- `compareValues`. -/
def compareValues (left : Value) (op : ComparisonOperator) (right : Value) : Bool :=
  match op with
  | .equal => left.beq right
  | .greater => right.lt left
  | .less => left.lt right

namespace Value

/-- Two values that no comparison tells apart. -/
inductive Indistinct : Value → Value → Prop
  | refl (v : Value) : Indistinct v v
  | double {x y : Double} (h : x.Indistinct y) : Indistinct (.double x) (.double y)

theorem Indistinct.compareValues_eq {v w : Value} (h : v.Indistinct w) (op : ComparisonOperator)
    (u : Value) : compareValues v op u = compareValues w op u := by
  cases h with
  | refl v => rfl
  | double h =>
    cases u <;> cases op <;> simp [compareValues, beq, lt, dataIndex, h.beq_eq, h.lt_eq]

theorem Indistinct.beq_eq {v w : Value} (h : v.Indistinct w) (u : Value) : v.beq u = w.beq u :=
  h.compareValues_eq .equal u

end Value

end VertexDB
