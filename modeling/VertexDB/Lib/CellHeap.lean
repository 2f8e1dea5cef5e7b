import Mathlib.Algebra.Order.Group.Multiset
import Mathlib.Data.Multiset.MapFold
import Mathlib.Tactic.Abel

/-!
# Maps as heaps of cells

A finite map read as a heap: the multiset of its cells, each an address with its content. A
structure laid out in the heap is a sum of such multisets, and an operation on the map changes one
summand.
-/

namespace CellHeap

open Multiset Std.ExtTreeMap

variable {β : Type} {m : Std.ExtTreeMap ℕ β} {cells : Multiset (ℕ × β)} {p : ℕ} {b b' : β}

/-- The map has exactly these cells, each address once. -/
structure Holds (m : Std.ExtTreeMap ℕ β) (cells : Multiset (ℕ × β)) : Prop where
  nodup : (cells.map Prod.fst).Nodup
  get : ∀ (p : ℕ) (b : β), m[p]? = some b ↔ (p, b) ∈ cells

theorem fst_mem (h : (p, b) ∈ cells) : p ∈ cells.map Prod.fst :=
  mem_map.mpr ⟨(p, b), h, rfl⟩

namespace Holds

theorem mem_iff (h : Holds m cells) (p : ℕ) : p ∈ m ↔ p ∈ cells.map Prod.fst := by
  rw [mem_iff_isSome_getElem?, Option.isSome_iff_exists]
  simp [h.get]

theorem insert (h : Holds m cells) (hp : p ∉ m) (b : β) :
    Holds (m.insert p b) ((p, b) ::ₘ cells) := by
  have hnew : p ∉ cells.map Prod.fst := fun hmem => hp ((h.mem_iff p).mpr hmem)
  refine ⟨?_, fun q c => ?_⟩
  · rw [map_cons, nodup_cons]
    exact ⟨hnew, h.nodup⟩
  · rw [mem_cons, Prod.mk.injEq, getElem?_insert]
    by_cases hq : p = q
    · subst hq
      have hnot : (p, c) ∉ cells := fun hmem => hnew (fst_mem hmem)
      simp [hnot, eq_comm]
    · simp [hq, Ne.symm hq, h.get]

theorem erase (h : Holds m ((p, b) ::ₘ cells)) : Holds (m.erase p) cells := by
  have hnodup := h.nodup
  rw [map_cons, nodup_cons] at hnodup
  refine ⟨hnodup.2, fun q c => ?_⟩
  rw [getElem?_erase]
  by_cases hq : p = q
  · subst hq
    have hnot : (p, c) ∉ cells := fun hmem => hnodup.1 (fst_mem hmem)
    simp [hnot]
  · simp [hq, h.get, Ne.symm hq]

theorem replace (h : Holds m ((p, b) ::ₘ cells)) (b' : β) :
    Holds (m.insert p b') ((p, b') ::ₘ cells) := by
  have hnodup := h.nodup
  rw [map_cons, nodup_cons] at hnodup
  refine ⟨by rw [map_cons, nodup_cons]; exact hnodup, fun q c => ?_⟩
  rw [getElem?_insert, mem_cons, Prod.mk.injEq]
  by_cases hq : p = q
  · subst hq
    have hnot : (p, c) ∉ cells := fun hmem => hnodup.1 (fst_mem hmem)
    simp [hnot, eq_comm]
  · simp [hq, h.get, Ne.symm hq]

end Holds

theorem holds_singleton (p : ℕ) (b : β) :
    Holds ((∅ : Std.ExtTreeMap ℕ β).insert p b) {(p, b)} := by
  have h : Holds (∅ : Std.ExtTreeMap ℕ β) 0 := ⟨by simp, by simp⟩
  exact h.insert (by simp) b

end CellHeap
