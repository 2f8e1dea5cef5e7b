import Mathlib.Order.FixedPoints
import Mathlib.Order.ConditionallyCompleteLattice.Basic
import Mathlib.Order.CompletePartialOrder

/-!
# Semi-naive evaluation

The least solution of `x = a ⊔ F x` for an operation `F` that keeps joins, computed in rounds that
apply `F` to what is new only, or to more of what is known.
-/

namespace SemiNaive

variable {α : Type*} [CompleteLattice α] {F : α → α} (hF : ∀ x y, F (x ⊔ y) = F x ⊔ F y)
  {a x d b e : α}

include hF in
theorem monotone : Monotone F := fun x y h => by
  rw [← sup_eq_right.mpr h, hF]
  exact le_sup_left

/-- The right side of `x = a ⊔ F x`. -/
def step (a : α) : α →o α := ⟨fun x => a ⊔ F x, fun _ _ h => sup_le_sup_left (monotone hF h) a⟩

/-- The least solution of `x = a ⊔ F x`. -/
def closure (a : α) : α := (step hF a).lfp

theorem closure_eq : a ⊔ F (closure hF a) = closure hF a := (step hF a).map_lfp

theorem closure_le (ha : a ≤ x) (hx : F x ≤ x) :
    closure hF a ≤ x := (step hF a).lfp_le (sup_le ha hx)

/-- Before a round `x` is known, and `d` is new: `F` gives no more than it gives for what is new. -/
structure Partial (a x d : α) : Prop where
  start : a ≤ x
  le_closure : x ≤ closure hF a
  new_le : d ≤ x
  pending : F x ≤ x ⊔ F d

theorem partial_start (a : α) : Partial hF a a a :=
  ⟨le_rfl, le_sup_left.trans (closure_eq hF).le, le_rfl, le_sup_right⟩

/-- A round applies `F` to `b` and finds `e`. -/
theorem Partial.round (h : Partial hF a x d) (hd : d ≤ b) (hb : b ≤ x) (he : e ≤ F b)
    (hall : F b ≤ x ⊔ e) : Partial hF a (x ⊔ e) e := by
  have hmono := monotone hF
  refine ⟨h.start.trans le_sup_left, sup_le h.le_closure ?_, le_sup_right, ?_⟩
  · calc e ≤ F (closure hF a) := he.trans (hmono (hb.trans h.le_closure))
      _ ≤ closure hF a := le_sup_right.trans (closure_eq hF).le
  · rw [hF]
    refine sup_le ?_ le_sup_right
    calc F x ≤ x ⊔ F d := h.pending
      _ ≤ x ⊔ e := sup_le le_sup_left ((hmono hd).trans hall)
      _ ≤ x ⊔ e ⊔ F e := le_sup_left

theorem Partial.eq_closure (h : Partial hF a x ⊥) (hbot : F ⊥ ≤ x) : x = closure hF a :=
  le_antisymm h.le_closure (closure_le hF h.start (h.pending.trans (sup_le le_rfl hbot)))

end SemiNaive
