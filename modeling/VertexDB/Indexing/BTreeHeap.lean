import VertexDB.Indexing.BTreeSearch

/-!
# The page operations of an ordered index

What reading, writing, allocating and freeing a page does to the pages of an ordered index, as rules
on the multiset of its live pages.
-/

namespace VertexDB

open Exec CellHeap Std.ExtTreeMap List

variable {K : Type}

namespace BTreePages

variable {s : BTreePages K} {cells : Multiset (ℕ × BTreeNode K)} {p q : ℕ} {b b' : BTreeNode K}

/-- The live pages of the index are these, and no page is live and free. -/
structure Pages (s : BTreePages K) (cells : Multiset (ℕ × BTreeNode K)) : Prop where
  holds : Holds s.nodes cells
  ids : s.PageIds

/-- The page has been given out and is neither live nor free. -/
structure Fresh (s : BTreePages K) (p : ℕ) : Prop where
  lt : p < s.nextPageId
  not_free : p ∉ s.freePageIds
  not_live : p ∉ s.nodes

/-- The index with a page written. -/
def put (s : BTreePages K) (p : ℕ) (b : BTreeNode K) : BTreePages K :=
  { s with nodes := s.nodes.insert p b }

/-- The index with a page given back. -/
def discard (s : BTreePages K) (p : ℕ) : BTreePages K :=
  { s with nodes := s.nodes.erase p, freePageIds := s.freePageIds ++ [p] }

@[simp] theorem maxKeysPerNode_put : (s.put p b).maxKeysPerNode = s.maxKeysPerNode := rfl

/-- Two indexes that differ in their pages only. -/
structure SameHead (s s' : BTreePages K) : Prop where
  maxKeysPerNode : s'.maxKeysPerNode = s.maxKeysPerNode
  keyCount : s'.keyCount = s.keyCount
  rootPageId : s'.rootPageId = s.rootPageId

theorem SameHead.put {s' : BTreePages K} (h : SameHead s s') (p : ℕ) (b : BTreeNode K) :
    SameHead s (s'.put p b) := ⟨h.1, h.2, h.3⟩

theorem SameHead.discard {s' : BTreePages K} (h : SameHead s s') (p : ℕ) :
    SameHead s (s'.discard p) := ⟨h.1, h.2, h.3⟩

theorem sameHead_put : SameHead s (s.put p b) := ⟨rfl, rfl, rfl⟩

section Rules

variable {α : Type}

@[simp] theorem setNode_apply : setNode p b s = .ok ⟨⟩ (s.put p b) := rfl

@[simp] theorem setNode_bind (f : PUnit → EStateM Error (BTreePages K) α) :
    (setNode p b >>= f) s = f ⟨⟩ (s.put p b) := rfl

@[simp] theorem freePage_apply : freePage p s = .ok ⟨⟩ (s.discard p) := rfl

@[simp] theorem freePage_bind (f : PUnit → EStateM Error (BTreePages K) α) :
    (freePage p >>= f) s = f ⟨⟩ (s.discard p) := rfl

section Cells

variable (h : s.Pages cells) (hb : (p, b) ∈ cells)
include h hb

theorem Pages.get : s.nodes[p]? = some b :=
  (h.holds.get p b).mpr hb

theorem Pages.live : p ∈ s.nodes := by
  rw [mem_iff_isSome_getElem?, h.get hb]
  rfl

theorem Pages.node : node p s = .ok b s :=
  node_ok (h.get hb)

theorem Pages.node_bind (f : BTreeNode K → EStateM Error (BTreePages K) α) :
    (BTreePages.node p >>= f) s = f b s :=
  bind_of_ok (h.node hb)

end Cells

theorem element_bind {β : Type} {xs : List α} {i : ℕ} {x : α} (h : xs[i]? = some x)
    (f : α → EStateM Error (BTreePages K) β) :
    (Exec.ofExcept (element xs i) >>= f) s = f x s := by
  rw [element_ok h, ofExcept_ok_bind]

theorem Pages.put (h : s.Pages ((p, b) ::ₘ cells)) (b' : BTreeNode K) :
    (s.put p b').Pages ((p, b') ::ₘ cells) := by
  have hmem : ∀ q, q ∈ (s.put p b').nodes ↔ q ∈ s.nodes := by
    intro q
    have hp : p ∈ s.nodes := h.live (Multiset.mem_cons_self _ _)
    rw [BTreePages.put, mem_insert, compare_eq_iff_eq]
    exact ⟨fun hq => hq.elim (fun hq => hq ▸ hp) id, Or.inr⟩
  exact ⟨h.holds.replace b', ⟨fun q hq => h.ids.live_lt q ((hmem q).mp hq), h.ids.free_lt,
    fun q hq hlive => h.ids.free_not_live q hq ((hmem q).mp hlive), h.ids.free_nodup⟩⟩

theorem Pages.put_fresh (h : s.Pages cells) (hp : s.Fresh p) (b : BTreeNode K) :
    (s.put p b).Pages ((p, b) ::ₘ cells) := by
  have hmem : ∀ q, q ∈ (s.put p b).nodes ↔ q = p ∨ q ∈ s.nodes := by
    intro q
    rw [BTreePages.put, mem_insert, compare_eq_iff_eq, eq_comm]
  refine ⟨h.holds.insert hp.not_live b, ⟨fun q hq => ?_, h.ids.free_lt, fun q hq hlive => ?_,
    h.ids.free_nodup⟩⟩
  · rcases (hmem q).mp hq with rfl | hq
    · exact hp.lt
    · exact h.ids.live_lt q hq
  · rcases (hmem q).mp hlive with rfl | hlive
    · exact hp.not_free hq
    · exact h.ids.free_not_live q hq hlive

theorem Pages.discard (h : s.Pages ((p, b) ::ₘ cells)) : (s.discard p).Pages cells := by
  have hp : p ∈ s.nodes := h.live (Multiset.mem_cons_self _ _)
  have hmem : ∀ q, q ∈ (s.discard p).nodes ↔ q ≠ p ∧ q ∈ s.nodes := by
    intro q
    rw [BTreePages.discard, mem_erase, Ne, Ne, compare_eq_iff_eq, eq_comm]
  refine ⟨h.holds.erase, ⟨fun q hq => h.ids.live_lt q ((hmem q).mp hq).2, fun q hq => ?_,
    fun q hq hlive => ?_, ?_⟩⟩
  · rcases mem_append.mp hq with hq | hq
    · exact h.ids.free_lt q hq
    · rw [mem_singleton.mp hq]
      exact h.ids.live_lt p hp
  · rcases mem_append.mp hq with hq | hq
    · exact h.ids.free_not_live q hq ((hmem q).mp hlive).2
    · exact ((hmem q).mp hlive).1 (mem_singleton.mp hq)
  · rw [BTreePages.discard, nodup_append]
    refine ⟨h.ids.free_nodup, nodup_singleton p, fun q hq r hr hqr => ?_⟩
    rw [mem_singleton.mp hr] at hqr
    exact h.ids.free_not_live q hq (hqr ▸ hp)

theorem Pages.setHead (h : s.Pages cells) (root count : ℕ) :
    Pages { s with rootPageId := root, keyCount := count } cells :=
  ⟨h.holds, ⟨h.ids.live_lt, h.ids.free_lt, h.ids.free_not_live, h.ids.free_nodup⟩⟩

theorem Fresh.put (h : s.Fresh p) (hq : q ∈ s.nodes) (b : BTreeNode K) : (s.put q b).Fresh p := by
  refine ⟨h.lt, h.not_free, fun hp => h.not_live ?_⟩
  rw [BTreePages.put, mem_insert, compare_eq_iff_eq] at hp
  exact hp.elim (fun hpq => hpq ▸ hq) id

theorem Fresh.emplaceNode (h : s.Fresh p) (b : BTreeNode K) :
    emplaceNode p b s = .ok ⟨⟩ (s.put p b) := by
  have heq : s.nodes.insertIfNew p b = s.nodes.insert p b := by
    ext1 q
    rw [getElem?_insertIfNew, Std.ExtTreeMap.getElem?_insert]
    simp [h.not_live]
  rw [BTreePages.emplaceNode, modify_apply, heq]
  rfl

theorem Fresh.emplaceNode_bind (h : s.Fresh p) (b : BTreeNode K)
    (f : PUnit → EStateM Error (BTreePages K) α) :
    (BTreePages.emplaceNode p b >>= f) s = f ⟨⟩ (s.put p b) :=
  bind_of_ok (h.emplaceNode b)

/-- An allocated page is fresh; it comes from the free list or is a new one. -/
theorem Pages.allocatePage (h : s.Pages cells) :
    ∃ p s', allocatePage s = .ok p s' ∧ s'.Fresh p ∧ s'.Pages cells ∧ SameHead s s' := by
  cases hlast : s.freePageIds.getLast? with
  | none =>
    refine ⟨s.nextPageId, { s with nextPageId := s.nextPageId + 1 }, ?_,
      ⟨Nat.lt_succ_self _, ?_, ?_⟩, ⟨h.holds, ⟨?_, ?_, h.ids.free_not_live, h.ids.free_nodup⟩⟩,
      ⟨rfl, rfl, rfl⟩⟩
    · rw [BTreePages.allocatePage, get_bind, hlast]
      rfl
    · exact fun hmem => absurd (h.ids.free_lt _ hmem) (lt_irrefl _)
    · exact fun hmem => absurd (h.ids.live_lt _ hmem) (lt_irrefl _)
    · exact fun q hq => (h.ids.live_lt q hq).trans (Nat.lt_succ_self _)
    · exact fun q hq => (h.ids.free_lt q hq).trans (Nat.lt_succ_self _)
  | some p =>
    have hfree : s.freePageIds = s.freePageIds.dropLast ++ [p] :=
      (dropLast_append_getLast? p hlast).symm
    have hmem : p ∈ s.freePageIds := hfree ▸ mem_append_right _ (mem_singleton_self p)
    have hnodup := h.ids.free_nodup
    rw [hfree, nodup_append] at hnodup
    have hsub : ∀ q ∈ s.freePageIds.dropLast, q ∈ s.freePageIds :=
      fun q hq => (dropLast_sublist _).subset hq
    refine ⟨p, { s with freePageIds := s.freePageIds.dropLast }, ?_, ⟨h.ids.free_lt p hmem, ?_,
      h.ids.free_not_live p hmem⟩,
        ⟨h.holds, ⟨h.ids.live_lt, fun q hq => h.ids.free_lt q (hsub q hq),
        fun q hq => h.ids.free_not_live q (hsub q hq), hnodup.1⟩⟩, ⟨rfl, rfl, rfl⟩⟩
    · rw [BTreePages.allocatePage, get_bind, hlast]
      rfl
    · exact fun hp => hnodup.2.2 p hp p (mem_singleton_self p) rfl

end Rules

section Representation

variable [LinearOrder K] {n : ℕ} {t : BTree K n}

/-- The index is a search tree of the right shape on its pages. -/
structure Represents (s : BTreePages K) (t : BTree K n) : Prop where
  laid : s.Laid t
  ids : s.PageIds
  ordered : t.Ordered
  rooted : t.Rooted s.maxKeysPerNode
  count : s.keyCount = t.entries.length

theorem Represents.pages (h : s.Represents t) : s.Pages (t.cells none) := ⟨h.laid.holds, h.ids⟩

end Representation

end BTreePages

end VertexDB
