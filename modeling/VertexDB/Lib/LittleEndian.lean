import Mathlib.Data.Nat.Basic
import Mathlib.Tactic.Ring

/-!
# Fixed-width little-endian integers

`LittleEndian.toBytes w n` are the `w` low bytes of `n`, least significant first, and
`LittleEndian.ofBytes` reads a number back.
-/

namespace LittleEndian

/-- The `w` low bytes of `n`, least significant first. -/
def toBytes : ℕ → ℕ → List UInt8
  | 0, _ => []
  | w + 1, n => UInt8.ofNat n :: toBytes w (n / 256)

/-- The number with the given bytes, least significant first. -/
def ofBytes : List UInt8 → ℕ
  | [] => 0
  | b :: bs => b.toNat + 256 * ofBytes bs

@[simp] theorem length_toBytes (w n : ℕ) : (toBytes w n).length = w := by
  induction w generalizing n with
  | zero => rfl
  | succ w ih => simp [toBytes, ih]

theorem ofBytes_lt (bs : List UInt8) : ofBytes bs < 256 ^ bs.length := by
  induction bs with
  | nil => simp [ofBytes]
  | cons b bs ih =>
    have hb := b.toNat_lt
    simp only [ofBytes, List.length_cons, pow_succ]
    omega

theorem toBytes_ofBytes (bs : List UInt8) : toBytes bs.length (ofBytes bs) = bs := by
  induction bs with
  | nil => rfl
  | cons b bs ih =>
    have hb := b.toNat_lt
    have hdiv : (b.toNat + 256 * ofBytes bs) / 256 = ofBytes bs := by omega
    have hhead : UInt8.ofNat (b.toNat + 256 * ofBytes bs) = b := by
      rw [← UInt8.toNat_inj, UInt8.toNat_ofNat']
      omega
    simp only [ofBytes, List.length_cons, toBytes, hdiv, ih, hhead]

theorem ofBytes_toBytes (w n : ℕ) (hn : n < 256 ^ w) : ofBytes (toBytes w n) = n := by
  induction w generalizing n with
  | zero =>
    rw [pow_zero, Nat.lt_one_iff] at hn
    simp [toBytes, ofBytes, hn]
  | succ w ih =>
    have hdiv : n / 256 < 256 ^ w := by
      rw [Nat.div_lt_iff_lt_mul (by norm_num)]
      rwa [pow_succ] at hn
    simp only [toBytes, ofBytes, ih _ hdiv, UInt8.toNat_ofNat']
    omega

end LittleEndian
