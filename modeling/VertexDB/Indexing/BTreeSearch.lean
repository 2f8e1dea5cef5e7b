import VertexDB.Indexing.BTreeShape
import Mathlib.Data.Finset.Card
import Mathlib.Data.Finset.Range
import Mathlib.Data.List.TakeWhile

/-!
# Searching the pages of an ordered index

What the read operations of an ordered index find on pages that a search tree is laid out on: the
path to the leaf of a key, the row ids of a key, and the row ids of all keys below or above a key.
-/

namespace VertexDB

open Exec CellHeap BTree List

variable {K : Type}

namespace BTreePages

variable {s : BTreePages K} {capacity d n : ℕ} {fuel : ℕ}

/-- The pages of the index are those of the tree. -/
structure Laid (s : BTreePages K) (t : BTree K n) : Prop where
  holds : Holds s.nodes (t.cells none)
  root : s.rootPageId = t.pageId

/-- Live pages and free pages have been given out, and no page is both or free twice. -/
structure PageIds (s : BTreePages K) : Prop where
  live_lt : ∀ p, p ∈ s.nodes → p < s.nextPageId
  free_lt : ∀ p ∈ s.freePageIds, p < s.nextPageId
  free_not_live : ∀ p ∈ s.freePageIds, p ∉ s.nodes
  free_nodup : s.freePageIds.Nodup

theorem nodeAt_ok {p : ℕ} {b : BTreeNode K} (h : s.nodes[p]? = some b) : s.nodeAt p = .ok b := by
  rw [nodeAt, h]
  rfl

theorem node_ok {p : ℕ} {b : BTreeNode K} (h : s.nodes[p]? = some b) : node p s = .ok b s := by
  simp [node, nodeAt_ok h]

theorem element_ok {α : Type} {xs : List α} {i : ℕ} {x : α} (h : xs[i]? = some x) :
    element xs i = .ok x := by
  rw [element, h]
  rfl

section Descent

theorem accepts_branch {c : BCtx K (d + 1) n} {p : ℕ} {keys : List K} {cs : List (BTree K d)}
    (h : c.Accepts capacity (branch p keys cs)) :
    (branch p keys cs).Inner capacity ∧ c.floor capacity ≤ keys.length ∧
      keys.length ≤ capacity := by
  cases c with
  | top => exact ⟨h.1, h.2.1, h.2.2⟩
  | frame f up => exact ⟨h.1, h.2.1, h.2.2⟩

theorem keys_sublist_weave {C : Type} (read : C → List (Mark K)) (keys : List K) (cs : List C)
    (h : keys.length < cs.length) : List.Sublist (keys.map Mark.sep) (weave read keys cs) := by
  induction keys generalizing cs with
  | nil => simp
  | cons k keys ih =>
    cases cs with
    | nil => simp at h
    | cons c cs =>
      rw [weave, map_cons]
      exact ((ih cs (by simpa using h)).cons_cons _).trans (sublist_append_right _ _)

variable [LinearOrder K]

/-- In a search tree the marks of a frame stay on their side of the hole. -/
theorem locates_frame {f : BFrame K (BTree K d)} {key : K} {c : BCtx K (d + 1) n}
    (hbefore : f.before.Pairwise (· < ·)) (hafter : f.after.Pairwise (· < ·))
    (hleft : ∀ entry ∈ f.left, entry.2 ≤ key) (hright : ∀ entry ∈ f.right, key < entry.1)
    (hc : c.Locates key) : (BCtx.frame f c).Locates key where
  before m hm := by
    rcases mem_append.mp hm with hm | hm
    · exact hc.before m hm
    · obtain ⟨entry, hentry, hm⟩ := mem_flatMap.mp hm
      have hsep : Mark.sep entry.2 < Mark.key key := Mark.sep_lt_key.mpr (hleft entry hentry)
      rcases mem_append.mp hm with hm | hm
      · have hpair : (entry.1.inorder ++ [Mark.sep entry.2]).Pairwise (· < ·) :=
          (pairwise_flatMap.mp hbefore).1 entry hentry
        exact ((pairwise_append.mp hpair).2.2 m hm _ mem_cons_self).trans hsep
      · rw [mem_singleton.mp hm]
        exact hsep
  after m hm := by
    rcases mem_append.mp hm with hm | hm
    · obtain ⟨entry, hentry, hm⟩ := mem_flatMap.mp hm
      have hsep : Mark.key key < Mark.sep entry.1 := Mark.key_lt_sep.mpr (hright entry hentry)
      rcases mem_cons.mp hm with rfl | hm
      · exact hsep
      · have hpair : (Mark.sep entry.1 :: entry.2.inorder).Pairwise (· < ·) :=
          (pairwise_flatMap.mp hafter).1 entry hentry
        exact hsep.trans ((pairwise_cons.mp hpair).1 m hm)
    · exact hc.after m hm

/-- From any place on the way down, the path goes on to the leaf of the key. -/
theorem exists_pathFrom (key : K) (c : BCtx K d n) (x : BTree K d) (hfuel : d < fuel)
    (holds : Holds s.nodes ((c.plug x).cells none)) (hord : (c.plug x).Ordered)
    (hfits : c.Fits capacity) (haccepts : c.Accepts capacity x) (hlocates : c.Locates key) :
    ∃ (c' : BCtx K 0 n) (leaf : BTree K 0), c'.plug leaf = c.plug x ∧ c'.Fits capacity ∧
      c'.Accepts capacity leaf ∧ c'.Locates key ∧
      s.pathFrom key fuel x.pageId c.path = .ok (leaf.pageId :: c'.path) := by
  induction d generalizing fuel with
  | zero =>
    obtain ⟨fuel, rfl⟩ := Nat.exists_eq_add_of_lt hfuel
    obtain ⟨p, es, rfl⟩ := exists_leaf x
    refine ⟨c, _, rfl, hfits, haccepts, hlocates, ?_⟩
    have hget : s.nodes[p]? = some (leafNode ⟨p, es⟩ c.next) := by
      rw [holds.get, c.cells_plug, cells_leaf]
      simp
    rw [pageId_leaf, Nat.zero_add, pathFrom, nodeAt_ok hget]
    rfl
  | succ d ih =>
    obtain ⟨fuel, rfl⟩ : ∃ k, fuel = k + 1 := ⟨fuel - 1, by omega⟩
    obtain ⟨p, keys, cs, rfl⟩ := exists_branch x
    obtain ⟨hinner, hfloor, hle⟩ := accepts_branch haccepts
    obtain ⟨hlen, hcs⟩ := inner_branch.mp hinner
    have hwhole : (branch p keys cs).inorder.Pairwise (· < ·) := by
      have h := hord
      rw [BTree.Ordered, c.inorder_plug] at h
      exact ((pairwise_append.mp h).1 |> pairwise_append.mp).2.1
    have hkeys : keys.Pairwise (· < ·) := by
      have h := hwhole.sublist (keys_sublist_weave inorder keys cs (by omega))
      simpa [pairwise_map] using h
    obtain ⟨f, y, hf, hp, hidx, hleft, hright⟩ := exists_frame (p := p) key hlen hkeys
    rw [← hf] at holds hord haccepts ⊢
    have hmarks : (f.before ++ y.inorder ++ f.after).Pairwise (· < ·) := by
      rw [← f.inorder_plug, hf]
      exact hwhole
    have hchildren : cs = f.children y := (congrArg BBranch.children hf).symm
    have hkeysf : keys = f.keys := (congrArg BBranch.keys hf).symm
    obtain ⟨c', leaf, hplug, hrest⟩ := ih (.frame f c) y (Nat.lt_of_succ_lt_succ hfuel) holds hord
      ⟨fun entry hentry => hcs _ (by
          rw [hchildren]
          exact mem_append_left _ (mem_map_of_mem hentry)),
        fun entry hentry => hcs _ (by
          rw [hchildren]
          exact mem_append_right _ (mem_cons_of_mem _ (mem_map_of_mem hentry))),
        hkeysf ▸ hfloor, hkeysf ▸ hle, hfits⟩
      (hcs y (by rw [hchildren]; simp [BFrame.children]))
      (locates_frame (pairwise_append.mp (pairwise_append.mp hmarks).1).1
        (pairwise_append.mp hmarks).2.1 hleft hright hlocates)
    refine ⟨c', leaf, hplug, hrest.1, hrest.2.1, hrest.2.2.1, ?_⟩
    have hget : s.nodes[f.pageId]? = some (f.page y.pageId) := by
      rw [holds.get, BCtx.cells_plug, f.cells_plug]
      simp
    have hchild : childFor (f.page y.pageId) key = .ok y.pageId := by
      refine element_ok ?_
      show (f.left.map _ ++ y.pageId :: _)[childIndex key f.keys]? = _
      rw [← hkeysf, hidx]
      simp
    rw [f.pageId_plug, pathFrom, nodeAt_ok hget]
    show (do let child ← childFor (f.page y.pageId) key; _) = _
    rw [hchild]
    exact hrest.2.2.2

end Descent

section Sizes

theorem height_lt_card (t : BTree K n) (h : t.Inner capacity) (next : Option ℕ) :
    n < (t.cells next).card := by
  induction n generalizing next with
  | zero => exact Nat.one_pos
  | succ n ih =>
    obtain ⟨p, keys, cs, rfl⟩ := exists_branch t
    obtain ⟨hlen, hcs⟩ := inner_branch.mp h
    cases cs with
    | nil => simp at hlen
    | cons c cs =>
      have hc := ih c (hcs c mem_cons_self).1 (linkTo firstLeaf next cs)
      rw [cells_branch, Multiset.card_cons, siblingCells, Multiset.card_add]
      omega

theorem card_le_nextPageId {cells : Multiset (ℕ × BTreeNode K)} (holds : Holds s.nodes cells)
    (hs : s.PageIds) : cells.card ≤ s.nextPageId := by
  have hsub : (cells.map Prod.fst).toFinset ⊆ Finset.range s.nextPageId := by
    intro p hp
    rw [Multiset.mem_toFinset] at hp
    exact Finset.mem_range.mpr (hs.live_lt p ((holds.mem_iff p).mpr hp))
  have hcard := Finset.card_le_card hsub
  rwa [Multiset.toFinset_card_of_nodup holds.nodup, Multiset.card_map, Finset.card_range] at hcard

end Sizes

variable {entry : K × List ℕ} {es : List (K × List ℕ)}

section Leaves

theorem entries_eq_leaves (t : BTree K n) : t.entries = t.leaves.flatMap BLeaf.entries := by
  induction n with
  | zero => exact (append_nil _).symm
  | succ n ih =>
    obtain ⟨p, keys, cs, rfl⟩ := exists_branch t
    show cs.flatMap entries = (cs.flatMap leaves).flatMap BLeaf.entries
    rw [flatMap_assoc]
    exact flatMap_congr fun c _ => ih c

theorem exists_firstLeaf (t : BTree K n) (h : t.Inner capacity) :
    ∃ l rest, t.leaves = l :: rest ∧ l.pageId = t.firstLeaf := by
  induction n with
  | zero => exact ⟨t, [], rfl, rfl⟩
  | succ n ih =>
    obtain ⟨p, keys, cs, rfl⟩ := exists_branch t
    obtain ⟨hlen, hcs⟩ := inner_branch.mp h
    cases cs with
    | nil => simp at hlen
    | cons c cs =>
      obtain ⟨l, rest, hl, hp⟩ := ih c (hcs c mem_cons_self).1
      refine ⟨l, rest ++ cs.flatMap leaves, ?_, hp⟩
      show (c :: cs).flatMap leaves = _
      rw [flatMap_cons, hl, cons_append]

theorem linkTo_leaves (cs : List (BTree K n)) (h : ∀ c ∈ cs, c.Inner capacity) (next : Option ℕ) :
    linkTo BLeaf.pageId next (cs.flatMap leaves) = linkTo firstLeaf next cs := by
  cases cs with
  | nil => rfl
  | cons c cs =>
    obtain ⟨l, rest, hl, hp⟩ := exists_firstLeaf c (h c mem_cons_self)
    rw [flatMap_cons, hl, cons_append, linkTo, linkTo, hp]

/-- Every leaf of a tree has its page, linked to the leaf that follows. -/
theorem leaf_mem_cells (t : BTree K n) (h : t.Inner capacity) (next : Option ℕ)
    {A B : List (BLeaf K)} {l : BLeaf K} (hleaves : t.leaves = A ++ l :: B) :
    (l.pageId, leafNode l (linkTo BLeaf.pageId next B)) ∈ t.cells next := by
  induction n generalizing next A B with
  | zero =>
    obtain ⟨rfl, rfl, rfl⟩ : A = [] ∧ l = t ∧ B = [] := by
      rcases append_eq_singleton_iff.mp hleaves.symm with ⟨hA, hl⟩ | ⟨-, hl⟩
      · exact ⟨hA, List.cons.inj hl⟩
      · cases hl
    exact Multiset.mem_singleton_self _
  | succ n ih =>
    obtain ⟨p, keys, cs, rfl⟩ := exists_branch t
    obtain ⟨-, hcs⟩ := inner_branch.mp h
    rw [cells_branch]
    refine Multiset.mem_cons_of_mem ?_
    replace hleaves : cs.flatMap leaves = A ++ l :: B := hleaves
    clear h
    induction cs generalizing A with
    | nil => simp at hleaves
    | cons c cs ihcs =>
      obtain ⟨hc, hcs⟩ := forall_mem_cons.mp hcs
      rw [flatMap_cons] at hleaves
      rw [siblingCells, Multiset.mem_add]
      rcases append_eq_append_iff.mp hleaves with ⟨A', rfl, hrest⟩ | ⟨C, hc', hrest⟩
      · exact Or.inr (ihcs hcs hrest)
      · cases C with
        | nil =>
          refine Or.inr (ihcs hcs (A := []) ?_)
          simpa using hrest.symm
        | cons l' C =>
          obtain ⟨rfl, hB⟩ := List.cons.inj hrest
          rw [show B = C ++ cs.flatMap leaves from hB]
          have hmem := ih c hc.1 (linkTo firstLeaf next cs) hc'
          rw [linkTo_append, linkTo_leaves cs (fun c hc => (hcs c hc).1)]
          exact Or.inl hmem

private theorem zip_entries (es : List (K × List ℕ)) :
    (es.map Prod.fst).zip (es.map Prod.snd) = es := by
  induction es with
  | nil => rfl
  | cons entry es ih => rw [map_cons, map_cons, zip_cons_cons, ih]

/-- The first leaf of a tree, from any page on the way to it. -/
theorem leftmostFrom_eq (t : BTree K n) (h : t.Inner capacity) (next : Option ℕ)
    (hget : ∀ p b, (p, b) ∈ t.cells next → s.nodes[p]? = some b) (hfuel : n < fuel) :
    s.leftmostFrom fuel t.pageId = .ok t.firstLeaf := by
  induction n generalizing next fuel with
  | zero =>
    obtain ⟨fuel, rfl⟩ : ∃ k, fuel = k + 1 := ⟨fuel - 1, by omega⟩
    obtain ⟨p, es, rfl⟩ := exists_leaf t
    rw [leftmostFrom, pageId_leaf, nodeAt_ok (hget p _ (Multiset.mem_singleton_self _))]
    rfl
  | succ n ih =>
    obtain ⟨fuel, rfl⟩ : ∃ k, fuel = k + 1 := ⟨fuel - 1, by omega⟩
    obtain ⟨p, keys, cs, rfl⟩ := exists_branch t
    obtain ⟨hlen, hcs⟩ := inner_branch.mp h
    cases cs with
    | nil => simp at hlen
    | cons c cs =>
      rw [leftmostFrom, pageId_branch, nodeAt_ok (hget p _ (Multiset.mem_cons_self _ _))]
      refine ih c (hcs c mem_cons_self).1 (linkTo firstLeaf next cs)
        (fun q b hq => hget q b ?_) (by omega)
      rw [cells_branch, siblingCells]
      exact Multiset.mem_cons_of_mem (Multiset.mem_add.mpr (Or.inl hq))

theorem leaves_le_cells (t : BTree K n) (next : Option ℕ) :
    (↑(t.leaves.map BLeaf.pageId) : Multiset ℕ) ≤ (t.cells next).map Prod.fst := by
  induction n generalizing next with
  | zero => exact le_rfl
  | succ n ih =>
    obtain ⟨p, keys, cs, rfl⟩ := exists_branch t
    rw [cells_branch, Multiset.map_cons]
    refine le_trans ?_ (Multiset.le_cons_self _ _)
    show (↑((cs.flatMap leaves).map BLeaf.pageId) : Multiset ℕ) ≤ _
    induction cs with
    | nil => exact Multiset.zero_le _
    | cons c cs ihcs =>
      rw [flatMap_cons, map_append, ← Multiset.coe_add, siblingCells, Multiset.map_add]
      exact add_le_add (ih c _) ihcs

theorem length_leaves_le_card (t : BTree K n) (next : Option ℕ) :
    t.leaves.length ≤ (t.cells next).card := by
  have h := Multiset.card_le_card (leaves_le_cells t next)
  rwa [Multiset.coe_card, length_map, Multiset.card_map] at h

theorem key_mem_before (c : BCtx K d n) (h : entry ∈ c.entriesBefore) :
    Mark.key entry.1 ∈ c.before := by
  induction c with
  | top => cases h
  | frame f up ih =>
    rcases mem_append.mp h with h | h
    · exact mem_append_left _ (ih h)
    · obtain ⟨child, hchild, h⟩ := mem_flatMap.mp h
      refine mem_append_right _ (mem_flatMap.mpr ⟨child, hchild, ?_⟩)
      exact mem_append_left _ (child.1.entries_sublist_inorder.subset (mem_map_of_mem h))

theorem key_mem_after (c : BCtx K d n) (h : entry ∈ c.entriesAfter) :
    Mark.key entry.1 ∈ c.after := by
  induction c with
  | top => cases h
  | frame f up ih =>
    rcases mem_append.mp h with h | h
    · obtain ⟨child, hchild, h⟩ := mem_flatMap.mp h
      refine mem_append_left _ (mem_flatMap.mpr ⟨child, hchild, ?_⟩)
      exact mem_cons_of_mem _ (child.2.entries_sublist_inorder.subset (mem_map_of_mem h))
    · exact mem_append_right _ (ih h)

theorem exists_leaves (c : BCtx K d n) (x : BTree K d) :
    ∃ A B, (c.plug x).leaves = A ++ x.leaves ++ B ∧ A.flatMap BLeaf.entries = c.entriesBefore ∧
      B.flatMap BLeaf.entries = c.entriesAfter := by
  induction c with
  | top => exact ⟨[], [], by simp [BCtx.plug], rfl, rfl⟩
  | frame f up ih =>
    obtain ⟨A, B, hleaves, hA, hB⟩ := ih (f.plug x)
    refine ⟨A ++ f.left.flatMap fun entry => entry.1.leaves,
      (f.right.flatMap fun entry => entry.2.leaves) ++ B, ?_, ?_, ?_⟩
    · have hf : (f.plug x).leaves = (f.left.flatMap fun entry => entry.1.leaves) ++ x.leaves ++
          f.right.flatMap fun entry => entry.2.leaves := by
        show (f.children x).flatMap leaves = _
        simp [BFrame.children, flatMap_map]
      rw [BCtx.plug, hleaves, hf]
      simp
    · rw [flatMap_append, hA, flatMap_assoc, BCtx.entriesBefore]
      simp only [← entries_eq_leaves]
    · rw [flatMap_append, hB, flatMap_assoc, BCtx.entriesAfter]
      simp only [← entries_eq_leaves]

theorem get_leaf {c : BCtx K 0 n} {p : ℕ}
    (holds : Holds s.nodes ((c.plug (leaf p es)).cells none)) :
    s.nodes[p]? = some (leafNode ⟨p, es⟩ c.next) := by
  rw [holds.get, c.cells_plug, cells_leaf]
  simp

end Leaves

variable [LinearOrder K]

/-- The path to the leaf of a key, as the tree with a hole at that leaf. -/
theorem Laid.exists_path {t : BTree K n} (hlaid : s.Laid t) (hs : s.PageIds)
    (hord : t.Ordered) (hrooted : t.Rooted capacity) (key : K) :
    ∃ (c : BCtx K 0 n) (p : ℕ) (es : List (K × List ℕ)), c.plug (leaf p es) = t ∧
      c.Fits capacity ∧ c.Accepts capacity (leaf p es) ∧ c.Locates key ∧
      s.pathToLeaf key = .ok (p :: c.path) := by
  have hfuel : n < s.nextPageId :=
    (height_lt_card t hrooted.inner none).trans_le (card_le_nextPageId hlaid.holds hs)
  obtain ⟨c, leaf, hplug, hfits, haccepts, hlocates, hpath⟩ :=
    exists_pathFrom (s := s) key (.top : BCtx K n n) t hfuel hlaid.holds hord trivial hrooted
      ⟨by simp [BCtx.before], by simp [BCtx.after]⟩
  obtain ⟨p, es, rfl⟩ := exists_leaf leaf
  refine ⟨c, p, es, hplug, hfits, haccepts, hlocates, ?_⟩
  rw [pathToLeaf, hlaid.root]
  exact hpath

section LowerBound

variable {key : K}

theorem lowerBoundFrom_eq {keys l r : List K} (hkeys : keys = l ++ r) (hl : ∀ k ∈ l, k < key)
    (hr : ∀ k ∈ r, key ≤ k) {lo hi : ℕ} (hlo : lo ≤ l.length) (hhi : l.length ≤ hi)
    (hle : hi ≤ keys.length) : lowerBoundFrom keys key lo hi = l.length := by
  induction hn : hi - lo using Nat.strong_induction_on generalizing lo hi with
  | _ m ih =>
    rw [lowerBoundFrom]
    by_cases hlt : lo < hi
    · rw [if_pos hlt]
      dsimp only
      split_ifs with hmid
      · refine ih _ ?_ ?_ hhi hle rfl
        · omega
        · by_contra hnot
          have hget : keys[lo + (hi - lo) / 2]? = r[lo + (hi - lo) / 2 - l.length]? := by
            rw [hkeys, getElem?_append_right (by omega)]
          cases hk : r[lo + (hi - lo) / 2 - l.length]? with
          | none => simp [hget, hk] at hmid
          | some k =>
            rw [hget, hk, Option.any_some, decide_eq_true_eq] at hmid
            exact absurd (hr k (mem_of_getElem? hk)) (not_le.mpr hmid)
      · refine ih _ ?_ hlo ?_ ?_ rfl
        · omega
        · by_contra hnot
          have hin : lo + (hi - lo) / 2 < l.length := by omega
          apply hmid
          rw [hkeys, getElem?_append_left hin, getElem?_eq_getElem hin, Option.any_some]
          simpa using hl _ (getElem_mem hin)
        · omega
    · rw [if_neg hlt]
      omega

/-- `lowerBoundKey` counts the keys that are smaller. -/
theorem exists_lowerBound (hsorted : (es.map Prod.fst).Pairwise (· < ·)) (key : K) :
    ∃ A B, es = A ++ B ∧ (∀ entry ∈ A, entry.1 < key) ∧ (∀ entry ∈ B, key ≤ entry.1) ∧
      lowerBoundKey (es.map Prod.fst) key = A.length := by
  have hsplit : ∃ A B, es = A ++ B ∧ (∀ entry ∈ A, entry.1 < key) ∧ ∀ entry ∈ B, key ≤ entry.1 := by
    induction es with
    | nil => exact ⟨[], [], rfl, by simp, by simp⟩
    | cons entry es ih =>
      rw [map_cons, pairwise_cons] at hsorted
      by_cases hk : entry.1 < key
      · obtain ⟨A, B, rfl, hA, hB⟩ := ih hsorted.2
        exact ⟨entry :: A, B, rfl, forall_mem_cons.mpr ⟨hk, hA⟩, hB⟩
      · refine ⟨[], entry :: es, rfl, by simp, forall_mem_cons.mpr ⟨not_lt.mp hk, ?_⟩⟩
        intro other hother
        exact (not_lt.mp hk).trans (hsorted.1 _ (mem_map_of_mem hother)).le
  obtain ⟨A, B, rfl, hA, hB⟩ := hsplit
  refine ⟨A, B, rfl, hA, hB, ?_⟩
  rw [lowerBoundKey]
  have h : lowerBoundFrom ((A ++ B).map Prod.fst) key 0 ((A ++ B).map Prod.fst).length =
      (A.map Prod.fst).length :=
    lowerBoundFrom_eq (l := A.map Prod.fst) (r := B.map Prod.fst)
      (by simp) (by simpa using hA) (by simpa using hB) (by simp) (by simp) le_rfl
  simpa using h

end LowerBound

section Lookup

variable {key : K} {t : BTree K n}

theorem sorted_entries (hord : t.Ordered) : (t.entries.map Prod.fst).Pairwise (· < ·) := by
  have h := hord.sublist t.entries_sublist_inorder
  simpa [pairwise_map] using h

theorem lt_of_mem_before {c : BCtx K d n} (hc : c.Locates key) (h : entry ∈ c.entriesBefore) :
    entry.1 < key :=
  Mark.key_lt_key.mp (hc.before _ (key_mem_before c h))

theorem lt_of_mem_after {c : BCtx K d n} (hc : c.Locates key) (h : entry ∈ c.entriesAfter) :
    key < entry.1 :=
  Mark.key_lt_key.mp (hc.after _ (key_mem_after c h))

/-- A key is in the tree when it stands at its lower bound in the leaf that it leads to. -/
theorem mem_entries_iff {c : BCtx K 0 n} (p : ℕ) {A B : List (K × List ℕ)} (hc : c.Locates key)
    (hsorted : ((A ++ B).map Prod.fst).Pairwise (· < ·)) (hA : ∀ entry ∈ A, entry.1 < key)
    (hB : ∀ entry ∈ B, key ≤ entry.1) (ids : List ℕ) :
    (key, ids) ∈ (c.plug (leaf p (A ++ B))).entries ↔ ∃ B', B = (key, ids) :: B' := by
  rw [c.entries_plug, entries_leaf, mem_append, mem_append, mem_append]
  constructor
  · rintro ((h | h | h) | h)
    · exact absurd (lt_of_mem_before hc h) (lt_irrefl _)
    · exact absurd (hA _ h) (lt_irrefl _)
    · cases B with
      | nil => cases h
      | cons entry B =>
        rcases mem_cons.mp h with rfl | h
        · exact ⟨B, rfl⟩
        · rw [map_append, pairwise_append] at hsorted
          have hlt := (pairwise_cons.mp hsorted.2.1).1 key (mem_map_of_mem h)
          exact absurd (hB entry mem_cons_self) (not_le.mpr hlt)
    · exact absurd (lt_of_mem_after hc h) (lt_irrefl _)
  · rintro ⟨B', rfl⟩
    exact Or.inl (Or.inr (Or.inr mem_cons_self))

/-- `find` gives the row ids of the key. -/
theorem find_eq (hlaid : s.Laid t) (hs : s.PageIds) (hord : t.Ordered)
    (hrooted : t.Rooted capacity) (key : K) :
    (∀ ids, (key, ids) ∈ t.entries → s.find key = .ok ids) ∧
      ((∀ ids, (key, ids) ∉ t.entries) → s.find key = .ok []) := by
  obtain ⟨c, p, es, rfl, -, -, hlocates, hpath⟩ := hlaid.exists_path hs hord hrooted key
  have hsorted : (es.map Prod.fst).Pairwise (· < ·) := by
    have h := sorted_entries hord
    rw [c.entries_plug, map_append, map_append] at h
    exact (pairwise_append.mp (pairwise_append.mp h).1).2.1
  obtain ⟨A, B, rfl, hA, hB, hidx⟩ := exists_lowerBound hsorted key
  have hfind : s.find key =
      if ((A ++ B).map Prod.fst)[A.length]? = some key then
        element ((A ++ B).map Prod.snd) A.length
      else .ok [] := by
    rw [find, hpath]
    show (do let leaf ← s.nodeAt p; _) = _
    rw [nodeAt_ok (get_leaf hlaid.holds)]
    show (if ((A ++ B).map Prod.fst)[lowerBoundKey ((A ++ B).map Prod.fst) key]? = some key then _
      else _) = _
    rw [hidx]
    show (if _ then element ((A ++ B).map Prod.snd) (lowerBoundKey ((A ++ B).map Prod.fst) key)
      else _) = _
    rw [hidx]
    rfl
  have hmem := fun ids => mem_entries_iff p hlocates hsorted hA hB ids
  refine ⟨fun ids hids => ?_, fun hnone => ?_⟩
  · obtain ⟨B', rfl⟩ := (hmem ids).mp hids
    rw [hfind, if_pos (by simp), element_ok (x := ids) (by simp)]
  · rw [hfind, if_neg]
    intro hkey
    cases B with
    | nil => simp at hkey
    | cons entry B =>
      obtain rfl : entry.1 = key := by simpa using hkey
      exact hnone entry.2 ((hmem entry.2).mpr ⟨B, rfl⟩)

theorem takeWhile_eq_filter (h : (es.map Prod.fst).Pairwise (· < ·)) :
    (es.takeWhile fun entry => decide (entry.1 < key)) =
      es.filter fun entry => decide (entry.1 < key) := by
  induction es with
  | nil => rfl
  | cons entry es ih =>
    rw [map_cons, pairwise_cons] at h
    by_cases hk : entry.1 < key
    · simp [hk, ih h.2]
    · have hnone : (es.filter fun entry => decide (entry.1 < key)) = [] := by
        rw [filter_eq_nil_iff]
        intro other hother
        have hlt := h.1 other.1 (mem_map_of_mem hother)
        simpa using (not_lt.mp hk).trans hlt.le
      simp [hk, hnone]

theorem dropWhile_eq_filter (h : (es.map Prod.fst).Pairwise (· < ·)) :
    (es.dropWhile fun entry => !decide (key < entry.1)) =
      es.filter fun entry => decide (key < entry.1) := by
  induction es with
  | nil => rfl
  | cons entry es ih =>
    rw [map_cons, pairwise_cons] at h
    by_cases hk : key < entry.1
    · have hall : (es.filter fun entry => decide (key < entry.1)) = es := by
        rw [filter_eq_self]
        intro other hother
        simpa using hk.trans (h.1 other.1 (mem_map_of_mem hother))
      simp [hk, hall]
    · simp [hk, ih h.2]

/-- The walk of `lessThan` over a list of leaves. -/
theorem lessThanFrom_eq (key : K) {ls : List (BLeaf K)} (hfuel : ls.length ≤ fuel)
    (hget : ∀ A l B, ls = A ++ l :: B →
      s.nodes[l.pageId]? = some (leafNode l (linkTo BLeaf.pageId none B))) :
    s.lessThanFrom key fuel (linkTo BLeaf.pageId none ls) =
      .ok (((ls.flatMap BLeaf.entries).takeWhile fun entry => decide (entry.1 < key)).flatMap
        Prod.snd) := by
  induction ls generalizing fuel with
  | nil => cases fuel <;> rfl
  | cons l ls ih =>
    obtain ⟨fuel, rfl⟩ : ∃ k, fuel = k + 1 := ⟨fuel - 1, by simp at hfuel; omega⟩
    have hrest := ih (Nat.le_of_succ_le_succ hfuel)
      fun A l' B h => hget (l :: A) l' B (by rw [h, cons_append])
    rw [linkTo, lessThanFrom, nodeAt_ok (hget [] l ls rfl), flatMap_cons, takeWhile_append]
    simp only [leafNode, zip_entries, length_map, bind, Except.bind, hrest]
    have hle : (l.entries.takeWhile fun entry => decide (entry.1 < key)).length ≤
        l.entries.length :=
      (takeWhile_sublist _).length_le
    by_cases hall : (l.entries.takeWhile fun entry => decide (entry.1 < key)).length =
        l.entries.length
    · have heq : (l.entries.takeWhile fun entry => decide (entry.1 < key)) = l.entries :=
        (takeWhile_sublist _).eq_of_length hall
      rw [if_neg (by omega), if_pos hall, heq, flatMap_append]
      rfl
    · rw [if_pos (by omega), if_neg hall]
      rfl

/-- `lessThan` gives the row ids of the smaller keys. -/
theorem lessThan_eq (hlaid : s.Laid t) (hs : s.PageIds) (hord : t.Ordered)
    (hrooted : t.Rooted capacity) (key : K) :
    s.lessThan key =
      .ok ((t.entries.filter fun entry => decide (entry.1 < key)).flatMap Prod.snd) := by
  have hcard := card_le_nextPageId hlaid.holds hs
  have hget : ∀ p b, (p, b) ∈ t.cells none → s.nodes[p]? = some b :=
    fun p b => (hlaid.holds.get p b).mpr
  have hfirst := leftmostFrom_eq t hrooted.inner none hget
    ((height_lt_card t hrooted.inner none).trans_le hcard)
  obtain ⟨l, rest, hleaves, hl⟩ := exists_firstLeaf t hrooted.inner
  have hwalk := lessThanFrom_eq (s := s) key
    ((length_leaves_le_card t none).trans hcard)
    fun A l B h => hget _ _ (leaf_mem_cells t hrooted.inner none h)
  rw [lessThan, leftmostLeaf, hlaid.root, hfirst, ← takeWhile_eq_filter (sorted_entries hord),
    entries_eq_leaves, ← hwalk, hleaves, linkTo, hl]
  rfl

theorem greaterInLeaf_eq (collecting : Bool) (es : List (K × List ℕ)) :
    greaterInLeaf key collecting es =
      ((if collecting then es else es.dropWhile fun entry => !decide (key < entry.1)).flatMap
          Prod.snd,
        collecting || es.any fun entry => decide (key < entry.1)) := by
  induction es generalizing collecting with
  | nil => cases collecting <;> rfl
  | cons entry es ih =>
    obtain ⟨k, ids⟩ := entry
    rw [greaterInLeaf, ih]
    cases collecting <;> by_cases hk : key < k <;> simp [hk]

/-- The walk of `greaterThan` over a list of leaves. -/
theorem greaterThanFrom_eq (key : K) {ls : List (BLeaf K)} (hfuel : ls.length ≤ fuel)
    (collecting : Bool)
    (hget : ∀ A l B, ls = A ++ l :: B →
      s.nodes[l.pageId]? = some (leafNode l (linkTo BLeaf.pageId none B))) :
    s.greaterThanFrom key fuel collecting (linkTo BLeaf.pageId none ls) =
      .ok ((if collecting then ls.flatMap BLeaf.entries
        else (ls.flatMap BLeaf.entries).dropWhile fun entry => !decide (key < entry.1)).flatMap
          Prod.snd) := by
  induction ls generalizing fuel collecting with
  | nil => cases fuel <;> cases collecting <;> rfl
  | cons l ls ih =>
    obtain ⟨fuel, rfl⟩ : ∃ k, fuel = k + 1 := ⟨fuel - 1, by simp at hfuel; omega⟩
    have hrest := fun collecting => ih (Nat.le_of_succ_le_succ hfuel) collecting
      fun A l' B h => hget (l :: A) l' B (by rw [h, cons_append])
    rw [linkTo, greaterThanFrom, nodeAt_ok (hget [] l ls rfl), flatMap_cons]
    simp only [leafNode, zip_entries, bind, Except.bind, hrest, greaterInLeaf_eq]
    cases collecting with
    | true => simp [pure, Except.pure]
    | false =>
      rw [dropWhile_append]
      by_cases hany : l.entries.any fun entry => decide (key < entry.1)
      · have hne : (l.entries.dropWhile fun entry => !decide (key < entry.1)) ≠ [] := by
          simpa [dropWhile_eq_nil_iff] using hany
        simp [hany, hne, pure, Except.pure]
      · have hnil : (l.entries.dropWhile fun entry => !decide (key < entry.1)) = [] := by
          simpa [dropWhile_eq_nil_iff] using hany
        rw [Bool.not_eq_true] at hany
        simp [hany, hnil, pure, Except.pure]

/-- `greaterThan` gives the row ids of the greater keys. -/
theorem greaterThan_eq (hlaid : s.Laid t) (hs : s.PageIds) (hord : t.Ordered)
    (hrooted : t.Rooted capacity) (key : K) :
    s.greaterThan key =
      .ok ((t.entries.filter fun entry => decide (key < entry.1)).flatMap Prod.snd) := by
  obtain ⟨c, p, es, rfl, -, -, hlocates, hpath⟩ := hlaid.exists_path hs hord hrooted key
  have hcard := card_le_nextPageId hlaid.holds hs
  obtain ⟨A, B, hleaves, hA, hB⟩ := exists_leaves c (leaf p es)
  have hleaf : (leaf p es).leaves = [⟨p, es⟩] := rfl
  rw [hleaf] at hleaves
  have hlen := (length_leaves_le_card (c.plug (leaf p es)) none).trans hcard
  rw [hleaves] at hlen
  have hlen' : (⟨p, es⟩ :: B : List (BLeaf K)).length ≤ s.nextPageId := by
    simp only [length_append, length_cons, length_nil] at hlen ⊢
    omega
  have hwalk := greaterThanFrom_eq (s := s) key hlen' false
    fun A' l B' h => (hlaid.holds.get _ _).mpr
      (leaf_mem_cells _ hrooted.inner none (A := A ++ A') (by rw [hleaves]; simp [h]))
  have hbefore : (c.entriesBefore.filter fun entry => decide (key < entry.1)) = [] := by
    rw [filter_eq_nil_iff]
    intro entry hentry
    simpa using (lt_of_mem_before hlocates hentry).le
  have hsorted := sorted_entries hord
  rw [c.entries_plug, append_assoc, map_append, pairwise_append] at hsorted
  rw [greaterThan, hpath]
  show s.greaterThanFrom key s.nextPageId false (some p) = _
  rw [show some p = linkTo BLeaf.pageId none (⟨p, es⟩ :: B) from rfl, hwalk, flatMap_cons, hB,
    c.entries_plug, append_assoc, filter_append, hbefore, List.nil_append,
    if_neg (by decide), ← dropWhile_eq_filter hsorted.2.1]
  rfl

end Lookup

end BTreePages

end VertexDB
