import Mathlib.Algebra.Ring.Int.Defs
import Mathlib.Algebra.Ring.Nat
import Mathlib.Data.Int.Order.Basic
import Mathlib.Tactic.Common
import Mathlib.Tactic.Tauto

/-!
# Binary floating-point numbers

A `double` of the source is its 64 bits. Comparison and addition are those of IEEE 754 with rounding
to nearest, ties to even: the exact sum of two finite numbers is an integer multiple of
`2 ^ (-1074)` and is rounded once.
-/

namespace VertexDB

/-- The bits of a `double`. -/
structure Double where
  bits : UInt64
  deriving DecidableEq, Repr

namespace Double

/-- The 63 bits below the sign bit. -/
def magnitude (d : Double) : ℕ := d.bits.toNat % 2 ^ 63

def isNegative (d : Double) : Bool := 2 ^ 63 ≤ d.bits.toNat

/-- The magnitude of infinity; above it are the NaNs. -/
def infinityMagnitude : ℕ := 2047 * 2 ^ 52

def isNaN (d : Double) : Bool := infinityMagnitude < d.magnitude

def isInfinite (d : Double) : Bool := d.magnitude = infinityMagnitude

def ofSignMagnitude (negative : Bool) (magnitude : ℕ) : Double :=
  ⟨UInt64.ofNat ((if negative then 2 ^ 63 else 0) + magnitude)⟩

/-- The place of a number that is not a NaN in the order of the reals; the two zeros share one. -/
def orderKey (d : Double) : ℤ := if d.isNegative then -(d.magnitude : ℤ) else d.magnitude

/-- `operator==` on `double`. -/
def beq (x y : Double) : Bool := !x.isNaN && !y.isNaN && x.orderKey == y.orderKey

theorem beq_comm (x y : Double) : x.beq y = y.beq x := by
  rw [Bool.eq_iff_iff]
  simp only [beq, Bool.and_eq_true, Bool.not_eq_true', beq_iff_eq]
  tauto

theorem beq_trans {x y z : Double} (hxy : x.beq y = true) (hyz : y.beq z = true) :
    x.beq z = true := by
  simp only [beq, Bool.and_eq_true, beq_iff_eq] at *
  exact ⟨⟨hxy.1.1, hyz.1.2⟩, hxy.2.trans hyz.2⟩

/-- `operator<` on `double`. -/
def lt (x y : Double) : Bool := !x.isNaN && !y.isNaN && decide (x.orderKey < y.orderKey)

/-- A finite number in units of `2 ^ (-1074)`. -/
def scaled (d : Double) : ℤ :=
  let e := d.magnitude / 2 ^ 52
  let m := d.magnitude % 2 ^ 52
  let a : ℕ := if e = 0 then m else (2 ^ 52 + m) * 2 ^ (e - 1)
  if d.isNegative then -a else a

/-- The magnitude bits of the number nearest to `a` units, ties to even, or those of infinity. -/
def roundMagnitude (a : ℕ) : ℕ :=
  let k := a.log2 - 52
  let q := a / 2 ^ k
  let r := a % 2 ^ k
  let up := 2 ^ k < 2 * r || (2 ^ k == 2 * r && q % 2 == 1)
  min (k * 2 ^ 52 + (if up then q + 1 else q)) infinityMagnitude

/-- The number nearest to `z` units of `2 ^ (-1074)`. -/
def ofScaled (z : ℤ) : Double := ofSignMagnitude (decide (z < 0)) (roundMagnitude z.natAbs)

/-- `static_cast<double>` of a signed 64-bit integer. -/
def ofInt64 (i : Int64) : Double := ofScaled (i.toInt * 2 ^ 1074)

def nan : Double := ofSignMagnitude false (infinityMagnitude + 2 ^ 51)

/-- Unary minus. -/
def neg (d : Double) : Double := ofSignMagnitude (!d.isNegative) d.magnitude

/-- Addition. -/
def add (x y : Double) : Double :=
  if x.isNaN || y.isNaN then nan
  else if x.isInfinite then
    if y.isInfinite && x.isNegative != y.isNegative then nan else x
  else if y.isInfinite then y
  else
    let z := x.scaled + y.scaled
    -- an exact zero is negative only when both summands are
    if z = 0 then ofSignMagnitude (x.isNegative && y.isNegative) 0 else ofScaled z

/-- Subtraction. -/
def sub (x y : Double) : Double := add x y.neg

section NaN

theorem magnitude_ofSignMagnitude (negative : Bool) {m : ℕ} (h : m < 2 ^ 63) :
    (ofSignMagnitude negative m).magnitude = m := by
  unfold ofSignMagnitude
  simp only [magnitude, UInt64.toNat_ofNat']
  split_ifs <;> omega

theorem isNaN_neg (d : Double) : d.neg.isNaN = d.isNaN := by
  have hlt : d.magnitude < 2 ^ 63 := Nat.mod_lt _ (by decide)
  rw [isNaN, isNaN, neg, magnitude_ofSignMagnitude _ hlt]

end NaN

/-- Two numbers that no comparison tells apart: the same number, two zeros or two NaNs. -/
def Indistinct (x y : Double) : Prop :=
  x.isNaN = y.isNaN ∧ (x.isNaN = false → x.orderKey = y.orderKey)

theorem Indistinct.refl (x : Double) : x.Indistinct x := ⟨rfl, fun _ => rfl⟩

theorem Indistinct.beq_eq {x y : Double} (h : x.Indistinct y) (z : Double) : x.beq z = y.beq z := by
  obtain ⟨hnan, hkey⟩ := h
  cases hx : x.isNaN with
  | true => simp [beq, hx, ← hnan]
  | false => simp [beq, hx, ← hnan, hkey hx]

theorem Indistinct.lt_eq {x y : Double} (h : x.Indistinct y) (z : Double) :
    x.lt z = y.lt z ∧ z.lt x = z.lt y := by
  obtain ⟨hnan, hkey⟩ := h
  cases hx : x.isNaN with
  | true => simp [lt, hx, ← hnan]
  | false => simp [lt, hx, ← hnan, hkey hx]

theorem eq_of_magnitude {x y : Double} (hmag : x.magnitude = y.magnitude)
    (hneg : x.isNegative = y.isNegative) : x = y := by
  have hlt : ∀ d : Double, d.bits.toNat < 2 ^ 64 := fun d => d.bits.toNat_lt
  have hx := hlt x
  have hy := hlt y
  have hbits : x.bits.toNat = y.bits.toNat := by
    simp only [magnitude, isNegative, decide_eq_decide] at hmag hneg
    omega
  obtain ⟨bx⟩ := x
  obtain ⟨b⟩ := y
  exact congrArg Double.mk (UInt64.toNat_inj.mp hbits)

/-- Equal numbers are the same or are both zero. -/
theorem eq_or_zero_of_beq {x y : Double} (h : x.beq y = true) :
    x = y ∨ x.magnitude = 0 ∧ y.magnitude = 0 := by
  simp only [beq, Bool.and_eq_true, beq_iff_eq, orderKey] at h
  have hkey := h.2
  by_cases hneg : x.isNegative = y.isNegative
  · refine Or.inl (eq_of_magnitude ?_ hneg)
    rw [hneg] at hkey
    split_ifs at hkey <;> omega
  · refine Or.inr ?_
    split_ifs at hkey with hx hy hy
    · exact absurd (hx.trans hy.symm) hneg
    · omega
    · omega
    · exact absurd ((Bool.not_eq_true _ ▸ hx).trans (Bool.not_eq_true _ ▸ hy).symm) hneg

theorem scaled_eq_zero {x : Double} (h : x.magnitude = 0) : x.scaled = 0 := by
  simp [scaled, h]

theorem indistinct_zero (a b : Bool) :
    (ofSignMagnitude a 0).Indistinct (ofSignMagnitude b 0) := by
  cases a <;> cases b <;> exact ⟨rfl, fun _ => rfl⟩

theorem add_indistinct (x : Double) {y y' : Double} (h : y.beq y' = true) :
    (x.add y).Indistinct (x.add y') := by
  rcases eq_or_zero_of_beq h with rfl | ⟨hy, hy'⟩
  · exact .refl _
  · have hnan : ∀ z : Double, z.magnitude = 0 → z.isNaN = false := fun z hz => by
      simp [isNaN, hz]
    have hinf : ∀ z : Double, z.magnitude = 0 → z.isInfinite = false := fun z hz => by
      simp [isInfinite, hz, infinityMagnitude]
    simp only [add, hnan y hy, hnan y' hy', hinf y hy, hinf y' hy', scaled_eq_zero hy,
      scaled_eq_zero hy', Bool.false_and, Bool.false_eq_true, if_false]
    split_ifs
    · exact .refl _
    · exact .refl _
    · exact indistinct_zero _ _
    · exact .refl _

theorem neg_beq {y y' : Double} (h : y.beq y' = true) : y.neg.beq y'.neg = true := by
  rcases eq_or_zero_of_beq h with rfl | ⟨hy, hy'⟩
  · simp only [beq, Bool.and_eq_true, Bool.not_eq_true', beq_iff_eq, and_true] at h ⊢
    have hnan : y.neg.isNaN = false := y.isNaN_neg.trans h.1
    exact ⟨hnan, hnan⟩
  · rw [neg, neg, hy, hy']
    cases y.isNegative <;> cases y'.isNegative <;> rfl

/-- The quotient rounded to the nearest integer, ties to even. -/
def roundQuotient (n d : ℕ) : ℕ :=
  let q := n / d
  let r := n % d
  if d < 2 * r || (d == 2 * r && q % 2 == 1) then q + 1 else q

/-- The decimal exponent of a positive number of units: the `x` with `10 ^ x ≤ a < 10 ^ (x + 1)`. -/
def decimalExponent (a : ℕ) : ℤ :=
  if 2 ^ 1074 ≤ a then (((a / 2 ^ 1074).repr.length - 1 : ℕ) : ℤ)
  else -(((List.range 400).find? fun k => 2 ^ 1074 ≤ a * 10 ^ k).getD 0 : ℕ)

/-- The number of units rounded to six significant decimal digits: the digits and the decimal
exponent of the first one. -/
def sixDigits (a : ℕ) : ℕ × ℤ :=
  let x := decimalExponent a
  let digits :=
    if x ≤ 5 then roundQuotient (a * 10 ^ (5 - x).toNat) (2 ^ 1074)
    else roundQuotient a (2 ^ 1074 * 10 ^ (x - 5).toNat)
  if digits = 10 ^ 6 then (10 ^ 5, x + 1) else (digits, x)

/-- The text without its trailing zeros. -/
def stripZeros (cs : List Char) : List Char := (cs.reverse.dropWhile (· = '0')).reverse

/-- Whole digits and fraction digits, without a fraction that is all zeros. -/
def joinFraction (whole fraction : List Char) : String :=
  let fraction := stripZeros fraction
  String.ofList (if fraction = [] then whole else whole ++ '.' :: fraction)

/-- What an output stream with its default settings writes: six significant digits, in scientific
form for an exponent below -4 or above 5. -/
def toText (d : Double) : String :=
  let sign := if d.isNegative then "-" else ""
  if d.isNaN then sign ++ "nan"
  else if d.isInfinite then sign ++ "inf"
  else if d.scaled = 0 then sign ++ "0"
  else
    let (digits, x) := sixDigits d.scaled.natAbs
    let cs := digits.repr.toList
    if x < -4 ∨ 5 < x then
      let e := x.natAbs.repr
      sign ++ joinFraction (cs.take 1) (cs.drop 1) ++ (if x < 0 then "e-" else "e+") ++
        (if e.length < 2 then "0" ++ e else e)
    else if x < 0 then
      sign ++ joinFraction ['0'] (List.replicate (x.natAbs - 1) '0' ++ cs)
    else sign ++ joinFraction (cs.take (x.toNat + 1)) (cs.drop (x.toNat + 1))

end Double

end VertexDB
