import Mathlib.Data.List.Nodup
import Mathlib.Tactic.Common

/-!
# A cache that evicts the least recently used entry

The cache keeps its keys in a list, most recently used first, beside the entries. A key that comes
in may push out the keys at the end of the list, never itself.
-/

/-- A cache of at most `capacity` entries. -/
structure LruCache (β : Type) where
  capacity : ℕ
  recent : List ℕ := []
  entries : Std.ExtTreeMap ℕ β := ∅

namespace LruCache

open List Std.ExtTreeMap

variable {β : Type}

def contains (c : LruCache β) (key : ℕ) : Bool := c.entries.contains key

/-- Make a key the most recently used one. -/
def touch (c : LruCache β) (key : ℕ) : LruCache β :=
  { c with recent := key :: c.recent.erase key }

/-- Drop the least recently used entry. -/
def dropOldest (c : LruCache β) : LruCache β :=
  match c.recent.getLast? with
  | none => c
  | some key => { c with recent := c.recent.dropLast, entries := c.entries.erase key }

/-- Drop entries while there are more than the capacity; every round takes one key off the list. -/
def evictLoop : ℕ → LruCache β → LruCache β
  | 0, c => c
  | rounds + 1, c =>
    if c.capacity < c.entries.size then evictLoop rounds c.dropOldest else c

def evictIfNeeded (c : LruCache β) : LruCache β := evictLoop c.recent.length c

/-- Set the entry of a key and make it the most recently used one. -/
def put (c : LruCache β) (key : ℕ) (value : β) : LruCache β :=
  if c.contains key then { c with entries := c.entries.insert key value }.touch key
  else evictIfNeeded { c with recent := key :: c.recent, entries := c.entries.insert key value }

/-- The list holds the keys of the entries, each once. -/
structure Listed (c : LruCache β) : Prop where
  nodup : c.recent.Nodup
  mem_recent : ∀ key, key ∈ c.recent ↔ key ∈ c.entries

/-- The keys are listed and within the capacity. -/
structure Valid (c : LruCache β) : Prop extends Listed c where
  capacity_pos : 0 < c.capacity
  size_le : c.entries.size ≤ c.capacity

/-- A cache from which entries at the end of the list were dropped. -/
structure EvictedTo (c c' : LruCache β) : Prop extends Listed c' where
  capacity_eq : c'.capacity = c.capacity
  recent_isPrefix : c'.recent <+: c.recent
  getElem?_eq : ∀ key ∈ c'.recent, c'.entries[key]? = c.entries[key]?

variable {c : LruCache β}

variable {key : ℕ}

namespace Listed

theorem size_eq (hc : c.Listed) : c.entries.size = c.recent.length := by
  rw [← length_keys]
  refine List.Perm.length_eq ((perm_ext_iff_of_nodup nodup_keys hc.nodup).mpr
    fun key => ?_)
  rw [Std.ExtTreeMap.mem_keys, hc.mem_recent]

theorem getElem?_eq_some (hc : c.Listed) {value : β} (h : c.entries[key]? = some value) :
    key ∈ c.recent := by
  rw [hc.mem_recent, ← isSome_getElem?_iff_mem, h]
  rfl

theorem touch (hc : c.Listed) (hkey : key ∈ c.entries) : (c.touch key).Listed where
  nodup := nodup_cons.mpr ⟨hc.nodup.not_mem_erase, hc.nodup.erase key⟩
  mem_recent j := by
    have hmem := (hc.mem_recent key).mpr hkey
    by_cases hj : j = key
    · simp [LruCache.touch, hj, hkey]
    · simp [LruCache.touch, hj, mem_erase_of_ne hj, hc.mem_recent]

theorem dropOldest (hc : c.Listed) : EvictedTo c c.dropOldest := by
  cases hlast : c.recent.getLast? with
  | none =>
    have hsame : c.dropOldest = c := by simp [LruCache.dropOldest, hlast]
    rw [hsame]
    exact ⟨hc, rfl, prefix_rfl, fun _ _ => rfl⟩
  | some last =>
    have hsplit := dropLast_append_getLast? last hlast
    have hnodup := hc.nodup
    rw [← hsplit, nodup_append] at hnodup
    -- the key that leaves the list is not in what remains
    have hne : ∀ key ∈ c.recent.dropLast, last ≠ key := fun key hkey h =>
      hnodup.2.2 key hkey last (mem_singleton.mpr rfl) h.symm
    have hstep : c.dropOldest =
        { c with recent := c.recent.dropLast, entries := c.entries.erase last } := by
      simp [LruCache.dropOldest, hlast]
    rw [hstep]
    refine ⟨⟨hnodup.1, fun key => ?_⟩, rfl, dropLast_prefix _, fun key hkey => ?_⟩
    · have hmem : key ∈ c.recent ↔ key ∈ c.recent.dropLast ∨ key = last := by
        conv_lhs => rw [← hsplit]
        simp
      rw [mem_erase, ← hc.mem_recent, hmem]
      constructor
      · exact fun h => ⟨by simpa using hne key h, Or.inl h⟩
      · rintro ⟨h, h' | rfl⟩
        · exact h'
        · simp at h
    · simp [getElem?_erase, hne key hkey]

end Listed

theorem EvictedTo.trans {c₁ c₂ c₃ : LruCache β} (h₁ : EvictedTo c₁ c₂) (h₂ : EvictedTo c₂ c₃) :
    EvictedTo c₁ c₃ where
  toListed := h₂.toListed
  capacity_eq := h₂.capacity_eq.trans h₁.capacity_eq
  recent_isPrefix := h₂.recent_isPrefix.trans h₁.recent_isPrefix
  getElem?_eq key hkey :=
    (h₂.getElem?_eq key hkey).trans (h₁.getElem?_eq key (h₂.recent_isPrefix.subset hkey))

/-- The loop keeps as many of the most recent keys as the capacity allows. -/
theorem evictLoop_spec {rounds : ℕ} (hc : c.Listed) (hrounds : c.recent.length ≤ rounds) :
    EvictedTo c (evictLoop rounds c) ∧ (evictLoop rounds c).recent = c.recent.take c.capacity := by
  induction rounds generalizing c with
  | zero =>
    have hnil : c.recent = [] := length_eq_zero_iff.mp (Nat.le_zero.mp hrounds)
    exact ⟨⟨hc, rfl, prefix_rfl, fun _ _ => rfl⟩, by simp [evictLoop, hnil]⟩
  | succ rounds ih =>
    rw [evictLoop]
    split_ifs with hfull <;> rw [hc.size_eq] at hfull
    · have hdrop := hc.dropOldest
      have hrecent : c.dropOldest.recent = c.recent.dropLast := by
        cases hlast : c.recent.getLast? with
        | none => simp [getLast?_eq_none_iff.mp hlast] at hfull
        | some last => simp [dropOldest, hlast]
      obtain ⟨hev, htake⟩ := ih hdrop.toListed (by
        rw [hrecent, length_dropLast]
        omega)
      refine ⟨hdrop.trans hev, ?_⟩
      rw [htake, hdrop.capacity_eq, hrecent, dropLast_eq_take, take_take,
        Nat.min_eq_left (by omega)]
    · exact ⟨⟨hc, rfl, prefix_rfl, fun _ _ => rfl⟩, (take_of_length_le (Nat.not_lt.mp hfull)).symm⟩

/-- The cache with a new key at the front of the list, before anything is dropped. -/
theorem Listed.push (hc : c.Listed) (value : β) (hkey : ¬ c.contains key) :
    Listed { c with recent := key :: c.recent, entries := c.entries.insert key value } where
  nodup := by
    refine nodup_cons.mpr ⟨fun h => hkey ?_, hc.nodup⟩
    exact contains_iff_mem.mpr ((hc.mem_recent key).mp h)
  mem_recent j := by
    rw [mem_cons, hc.mem_recent, mem_insert, Std.compare_eq_iff_eq, eq_comm (a := j)]

theorem put_eq_of_contains (value : β) (h : c.contains key) :
    c.put key value = { c with entries := c.entries.insert key value }.touch key := if_pos h

theorem Valid.put_new (hc : c.Valid) (value : β) (h : ¬ c.contains key) :
    EvictedTo { c with recent := key :: c.recent, entries := c.entries.insert key value }
        (c.put key value) ∧ (c.put key value).recent = (key :: c.recent).take c.capacity := by
  rw [put, if_neg h]
  exact evictLoop_spec (hc.toListed.push value h) (Nat.le_refl _)

theorem Valid.capacity_put (hc : c.Valid) (key : ℕ) (value : β) :
    (c.put key value).capacity = c.capacity := by
  by_cases h : c.contains key
  · rw [put_eq_of_contains value h]
    rfl
  · exact (hc.put_new value h).1.capacity_eq

/-- The list after a `put`: the key, and the others as far as the capacity allows. -/
theorem Valid.recent_put (hc : c.Valid) (key : ℕ) (value : β) :
    (c.put key value).recent = (key :: c.recent.filter (· != key)).take c.capacity := by
  by_cases h : c.contains key
  · have hmem : key ∈ c.recent := (hc.mem_recent key).mpr (contains_iff_mem.mp h)
    have hlen := hc.size_eq ▸ hc.size_le
    rw [put_eq_of_contains value h]
    change key :: c.recent.erase key = _
    rw [← hc.nodup.erase_eq_filter, take_of_length_le]
    rw [length_cons, length_erase_of_mem hmem]
    have := length_pos_of_mem hmem
    omega
  · rw [(hc.put_new value h).2, filter_eq_self.mpr fun j hj => ?_]
    refine bne_iff_ne.mpr fun hjkey => h ?_
    exact contains_iff_mem.mpr ((hc.mem_recent key).mp (hjkey ▸ hj))

theorem Listed.insert (hc : c.Listed) (value : β) (hkey : key ∈ c.entries) :
    Listed { c with entries := c.entries.insert key value } where
  nodup := hc.nodup
  mem_recent j := by
    rw [hc.mem_recent, mem_insert]
    constructor
    · exact Or.inr
    · rintro (h | h)
      · exact (by simpa using h : key = j) ▸ hkey
      · exact h

theorem Valid.put (hc : c.Valid) (key : ℕ) (value : β) : (c.put key value).Valid := by
  by_cases h : c.contains key
  · have hkey := contains_iff_mem.mp h
    rw [put_eq_of_contains value h]
    refine ⟨(hc.toListed.insert value hkey).touch (by simp), hc.capacity_pos, ?_⟩
    show (c.entries.insert key value).size ≤ c.capacity
    simpa [size_insert, hkey] using hc.size_le
  · obtain ⟨hev, hrecent⟩ := hc.put_new value h
    refine ⟨hev.toListed, hc.capacity_put key value ▸ hc.capacity_pos, ?_⟩
    rw [hev.toListed.size_eq, hev.capacity_eq, hrecent]
    exact length_take_le _ _

theorem Valid.touch (hc : c.Valid) (hkey : key ∈ c.entries) : (c.touch key).Valid :=
  ⟨hc.toListed.touch hkey, hc.capacity_pos, hc.size_le⟩

theorem Valid.getElem?_put_self (hc : c.Valid) (key : ℕ) (value : β) :
    (c.put key value).entries[key]? = some value := by
  by_cases h : c.contains key
  · rw [put_eq_of_contains value h]
    exact getElem?_insert_self
  · obtain ⟨hev, hrecent⟩ := hc.put_new value h
    have hmem : key ∈ (c.put key value).recent := by
      rw [hrecent, ← Nat.sub_add_cancel hc.capacity_pos]
      exact mem_cons_self
    rw [hev.getElem?_eq key hmem]
    exact getElem?_insert_self

theorem Valid.getElem?_of_put (hc : c.Valid) {j : ℕ} {value w : β} (hj : key ≠ j)
    (h : (c.put key value).entries[j]? = some w) : c.entries[j]? = some w := by
  by_cases hkey : c.contains key
  · rw [put_eq_of_contains value hkey] at h
    have hentry : (c.entries.insert key value)[j]? = some w := h
    simpa [Std.ExtTreeMap.getElem?_insert, hj] using hentry
  · have hev := (hc.put_new value hkey).1
    rw [hev.getElem?_eq j (hev.toListed.getElem?_eq_some h)] at h
    simpa [Std.ExtTreeMap.getElem?_insert, hj] using h

/-- The keys of a list of uses, the latest use first, each where it was used last. -/
def recency : List ℕ → List ℕ
  | [] => []
  | key :: uses => key :: (recency uses).filter (· != key)

theorem nodup_recency (uses : List ℕ) : (recency uses).Nodup := by
  induction uses with
  | nil => exact nodup_nil
  | cons key uses ih => exact nodup_cons.mpr ⟨by simp, ih.filter _⟩

/-- One more use of a key, seen by a list that holds the latest keys only. -/
theorem take_recency_cons (key : ℕ) (uses : List ℕ) (n : ℕ) :
    (recency (key :: uses)).take n = (key :: ((recency uses).take n).filter (· != key)).take n := by
  cases n with
  | zero => rfl
  | succ n =>
    have hnodup := nodup_recency uses
    rw [recency, take_succ_cons, take_succ_cons]
    congr 1
    generalize recency uses = keys at hnodup ⊢
    conv_lhs => rw [← take_append_drop (n + 1) keys, filter_append]
    by_cases hlong : n + 1 ≤ keys.length
    · refine take_append_of_le_length ?_
      rw [← (hnodup.sublist (take_sublist _ _)).erase_eq_filter, length_erase, length_take]
      split_ifs <;> omega
    · rw [drop_of_length_le (by omega), filter_nil, append_nil]

theorem valid_empty {n : ℕ} (hn : 0 < n) : ({ capacity := n } : LruCache β).Valid :=
  ⟨⟨nodup_nil, fun key => by simp⟩, hn, by simp⟩

end LruCache
