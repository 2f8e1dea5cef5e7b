import Mathlib.Data.Finset.Sort

/-!
# Maps from keys to lists

A finite map from keys to lists of values, in which a key without values does not occur, and the
sorted lists of pairs that stand for it.
-/

variable {K V : Type}

/-- A finite map from keys to lists of values; a key that occurs has values. -/
structure MultiMap (K V : Type) where
  values : K → List V
  keys : Finset K
  mem_keys : ∀ k, k ∈ keys ↔ values k ≠ []

namespace MultiMap

open List

/-- The map without keys. -/
def empty : MultiMap K V := ⟨fun _ => [], ∅, by simp⟩

section Changes

variable [DecidableEq K] (m : MultiMap K V) (k : K)

/-- The map with other values for one key. -/
def set (vs : List V) : MultiMap K V where
  values := Function.update m.values k vs
  keys := if vs = [] then m.keys.erase k else Insert.insert k m.keys
  mem_keys j := by
    by_cases hj : j = k
    · subst hj
      split_ifs with hvs <;> simp [hvs]
    · split_ifs with hvs <;> simp [hj, m.mem_keys]

/-- One more value for a key, after the ones it has. -/
def add (v : V) : MultiMap K V := m.set k (m.values k ++ [v])

/-- All occurrences of a value go from the list of a key. -/
def remove [DecidableEq V] (v : V) : MultiMap K V := m.set k ((m.values k).filter (· ≠ v))

end Changes

variable [LinearOrder K] (m : MultiMap K V)

/-- The values of the keys with a property, in the order of the keys. -/
def valuesOf (p : K → Prop) [DecidablePred p] : List V := ((m.keys.filter p).sort).flatMap m.values

/-- The values of all keys below a key, in the order of the keys. -/
def below (k : K) : List V := m.valuesOf (· < k)

/-- The values of all keys above a key, in the order of the keys. -/
def above (k : K) : List V := m.valuesOf (k < ·)

/-- The pairs of the map, in the order of the keys. -/
structure ListedBy (es : List (K × List V)) : Prop where
  sorted : (es.map Prod.fst).Pairwise (· < ·)
  mem_iff : ∀ k vs, (k, vs) ∈ es ↔ k ∈ m.keys ∧ vs = m.values k

namespace ListedBy

variable {m} {es A B : List (K × List V)} {k : K} {vs ws : List V}

theorem nil : (empty : MultiMap K V).ListedBy [] := ⟨List.Pairwise.nil, by simp [empty]⟩

theorem values_eq (h : m.ListedBy es) (hmem : (k, vs) ∈ es) : m.values k = vs :=
  (((h.mem_iff k vs).mp hmem).2).symm

theorem values_eq_nil (h : m.ListedBy es) (hnone : ∀ vs, (k, vs) ∉ es) : m.values k = [] := by
  by_contra hne
  exact hnone (m.values k) ((h.mem_iff _ _).mpr ⟨(m.mem_keys k).mpr hne, rfl⟩)

theorem mem_set_iff (h : m.ListedBy es) (hws : ws ≠ []) (j : K) (us : List V) :
    (j ∈ (m.set k ws).keys ∧ us = (m.set k ws).values j) ↔
      (j = k ∧ us = ws) ∨ (j ≠ k ∧ (j, us) ∈ es) := by
  by_cases hj : j = k
  · subst hj
    simp [set, hws]
  · simp [set, hws, hj, h.mem_iff]

theorem ne_of_sorted (h : ((A ++ (k, vs) :: B).map Prod.fst).Pairwise (· < ·)) :
    (∀ entry ∈ A, entry.1 < k) ∧ ∀ entry ∈ B, k < entry.1 := by
  rw [map_append, map_cons, pairwise_append] at h
  exact ⟨fun entry hentry => h.2.2 _ (mem_map_of_mem hentry) _ mem_cons_self,
    fun entry hentry => (pairwise_cons.mp h.2.1).1 _ (mem_map_of_mem hentry)⟩

theorem replace (h : m.ListedBy (A ++ (k, vs) :: B)) (hws : ws ≠ []) :
    (m.set k ws).ListedBy (A ++ (k, ws) :: B) := by
  obtain ⟨hA, hB⟩ := ne_of_sorted h.sorted
  refine ⟨by simpa using h.sorted, fun j us => ?_⟩
  rw [h.mem_set_iff hws]
  have hA' : ∀ us, (k, us) ∉ A := fun us hmem => lt_irrefl _ (hA _ hmem)
  have hB' : ∀ us, (k, us) ∉ B := fun us hmem => lt_irrefl _ (hB _ hmem)
  by_cases hj : j = k
  · subst hj
    simp [hA', hB']
  · simp [hj]

theorem insert (h : m.ListedBy (A ++ B)) (hA : ∀ entry ∈ A, entry.1 < k)
    (hB : ∀ entry ∈ B, k < entry.1) (hws : ws ≠ []) :
    (m.set k ws).ListedBy (A ++ (k, ws) :: B) := by
  refine ⟨?_, fun j us => ?_⟩
  · have hsorted := h.sorted
    simp only [map_append, map_cons, pairwise_append, pairwise_cons, mem_cons, mem_map] at hsorted ⊢
    refine ⟨hsorted.1, ⟨?_, hsorted.2.1⟩, ?_⟩
    · rintro _ ⟨entry, hentry, rfl⟩
      exact hB entry hentry
    · rintro _ ⟨entry, hentry, rfl⟩ j (rfl | hj)
      · exact hA entry hentry
      · exact hsorted.2.2 _ ⟨entry, hentry, rfl⟩ j hj
  · rw [h.mem_set_iff hws]
    have hA' : ∀ us, (k, us) ∉ A := fun us hmem => lt_irrefl _ (hA _ hmem)
    have hB' : ∀ us, (k, us) ∉ B := fun us hmem => lt_irrefl _ (hB _ hmem)
    by_cases hj : j = k
    · subst hj
      simp [hA', hB']
    · simp [hj]

theorem erase (h : m.ListedBy (A ++ (k, vs) :: B)) : (m.set k []).ListedBy (A ++ B) := by
  obtain ⟨hA, hB⟩ := ne_of_sorted h.sorted
  refine ⟨h.sorted.sublist (by simp), fun j us => ?_⟩
  have hA' : ∀ us, (k, us) ∉ A := fun us hmem => lt_irrefl _ (hA _ hmem)
  have hB' : ∀ us, (k, us) ∉ B := fun us hmem => lt_irrefl _ (hB _ hmem)
  have hmem := h.mem_iff j us
  by_cases hj : j = k
  · subst hj
    simp [set, hA', hB']
  · simpa [set, hj] using hmem

theorem set_nil (h : m.ListedBy es) (hnone : ∀ vs, (k, vs) ∉ es) : (m.set k []).ListedBy es := by
  refine ⟨h.sorted, fun j us => ?_⟩
  by_cases hj : j = k
  · subst hj
    simp [set, hnone]
  · simp [set, hj, h.mem_iff]

/-- The values of some of the keys, read off the list. -/
theorem flatMap_filter (h : m.ListedBy es) (p : K → Prop) [DecidablePred p] :
    (es.filter fun entry => decide (p entry.1)).flatMap Prod.snd = m.valuesOf p := by
  have hkeys : (es.filter fun entry => decide (p entry.1)).map Prod.fst =
      (m.keys.filter p).sort := by
    have hsub : ((es.filter fun entry => decide (p entry.1)).map Prod.fst).Pairwise (· < ·) :=
      h.sorted.sublist (filter_sublist.map Prod.fst)
    refine List.SortedLT.eq_of_mem_iff hsub.sortedLT (Finset.sortedLT_sort _) fun k => ?_
    simp only [mem_map, mem_filter, Finset.mem_sort, Finset.mem_filter, decide_eq_true_eq]
    constructor
    · rintro ⟨⟨j, vs⟩, ⟨hmem, hp⟩, rfl⟩
      exact ⟨((h.mem_iff _ _).mp hmem).1, hp⟩
    · rintro ⟨hk, hp⟩
      exact ⟨(k, m.values k), ⟨(h.mem_iff _ _).mpr ⟨hk, rfl⟩, hp⟩, rfl⟩
  rw [valuesOf, ← hkeys, flatMap_map]
  refine flatMap_congr fun entry hentry => ?_
  exact (h.values_eq (mem_filter.mp hentry).1).symm

theorem length_eq (h : m.ListedBy es) : es.length = m.keys.card := by
  have hnodup : (es.map Prod.fst).Nodup := h.sorted.imp ne_of_lt
  have hkeys : (es.map Prod.fst).toFinset = m.keys := by
    ext k
    rw [mem_toFinset, mem_map]
    constructor
    · rintro ⟨⟨j, vs⟩, hmem, rfl⟩
      exact ((h.mem_iff _ _).mp hmem).1
    · intro hk
      exact ⟨(k, m.values k), (h.mem_iff _ _).mpr ⟨hk, rfl⟩, rfl⟩
  rw [← hkeys, toFinset_card_of_nodup hnodup, length_map]

end ListedBy

end MultiMap
