import VertexDB.Indexing.BTreeRebalance

/-!
# Well-formed pages of an ordered index

What it means for the pages of an ordered index, read one by one, to be well formed, and that they
are when a search tree of the right shape is laid out on them.
-/

namespace VertexDB

open Exec CellHeap BTree List

variable {K : Type} {keys : List K}

namespace BTreePages

/-- The page `q` is reached from the page `p` in the given number of steps to a child. -/
inductive Below (s : BTreePages K) : ℕ → ℕ → ℕ → Prop
  | self (p : ℕ) : Below s p 0 p
  | child {p c d q : ℕ} {node : BTreeNode K} (get : s.nodes[p]? = some node)
      (mem : c ∈ node.children) (below : Below s c d q) : Below s p (d + 1) q

/-- The pages of an ordered index are well formed. -/
structure WellFormed [LinearOrder K] (s : BTreePages K) : Prop where
  /-- All leaves have the same depth, and the pages on the way to them are inner ones. -/
  depth : ∃ height, ∀ d q : ℕ, s.Below s.rootPageId d q →
    ∃ node : BTreeNode K, s.nodes[q]? = some node ∧ (node.leaf = true ↔ d = height)
  reached : ∀ q ∈ s.nodes, ∃ d, s.Below s.rootPageId d q
  occupied : ∀ (q : ℕ) (node : BTreeNode K), s.nodes[q]? = some node → q ≠ s.rootPageId →
    s.maxKeysPerNode / 2 ≤ node.keys.length ∧ node.keys.length ≤ s.maxKeysPerNode
  root_le : ∀ node : BTreeNode K, s.nodes[s.rootPageId]? = some node →
    node.keys.length ≤ s.maxKeysPerNode
  children : ∀ (q : ℕ) (node : BTreeNode K), s.nodes[q]? = some node → node.leaf = false →
    node.children.length = node.keys.length + 1
  rowIds : ∀ (q : ℕ) (node : BTreeNode K), s.nodes[q]? = some node → node.leaf = true →
    node.rowIds.length = node.keys.length
  increasing : ∀ (q : ℕ) (node : BTreeNode K), s.nodes[q]? = some node → node.keys.Pairwise (· < ·)
  /-- Every key anywhere below a child lies between the separators around the child. -/
  separates : ∀ (p : ℕ) (parent : BTreeNode K) (i c d q : ℕ) (node : BTreeNode K),
    s.nodes[p]? = some parent → parent.children[i]? = some c →
    s.Below c d q → s.nodes[q]? = some node → ∀ key ∈ node.keys, ∀ (j : ℕ) (k : K),
      parent.keys[j]? = some k → (j < i → k ≤ key) ∧ (i ≤ j → key < k)
  /-- The links between leaves lead from the first leaf through exactly the leaves, in the order of
  their keys. -/
  chain : ∃ leaves : List ℕ, (∃ first, s.leftmostLeaf = .ok first ∧ leaves.head? = some first) ∧
    (∀ (A : List ℕ) (q : ℕ) (B : List ℕ), leaves = A ++ q :: B →
      ∃ node : BTreeNode K, s.nodes[q]? = some node ∧ node.leaf = true ∧ node.nextLeaf = B.head?) ∧
    leaves.Nodup ∧
      (∀ (q : ℕ) (node : BTreeNode K), s.nodes[q]? = some node → node.leaf = true → q ∈ leaves) ∧
    (leaves.flatMap fun q => (s.nodes[q]?.map BTreeNode.keys).getD []).Pairwise (· < ·)
  ids : s.PageIds

/-- A tree is a subtree of another one at a depth. -/
inductive Subtree {m : ℕ} (y : BTree K m) : {n : ℕ} → ℕ → BTree K n → Prop
  | self : Subtree y 0 y
  | child {n d p : ℕ} {keys : List K} {cs : List (BTree K n)} {c : BTree K n} (mem : c ∈ cs)
      (sub : Subtree y d c) : Subtree y (d + 1) (BTree.branch p keys cs)

section Subtrees

variable {s : BTreePages K} {m n d p q : ℕ} {x : BTree K n} {y : BTree K m} {next : Option ℕ}
  {node : BTreeNode K}

theorem Subtree.height (h : Subtree y d x) : n = m + d := by
  induction h with
  | self => rfl
  | child _ _ ih => omega

theorem Subtree.inner {capacity : ℕ} (h : Subtree y d x) (hx : x.Inner capacity) :
    y.Inner capacity ∧ (d ≠ 0 → y.InRange capacity) := by
  induction h with
  | self => exact ⟨hx, fun hd => absurd rfl hd⟩
  | @child n d p keys cs c hmem hsub ih =>
    obtain ⟨-, hcs⟩ := inner_branch.mp hx
    obtain ⟨hinner, hrange⟩ := ih (hcs c hmem).1
    refine ⟨hinner, fun _ => ?_⟩
    cases hsub with
    | self => exact (hcs _ hmem).2
    | child hmem' hsub' => exact hrange (Nat.succ_ne_zero _)

theorem sublist_weave {C : Type} {read : C → List (Mark K)} {cs : List C} {c : C}
    (hc : c ∈ cs) : List.Sublist (read c) (weave read keys cs) := by
  induction cs generalizing keys with
  | nil => cases hc
  | cons c' cs ih =>
    cases keys with
    | nil =>
      rw [weave_nil]
      exact sublist_flatten_of_mem (mem_map_of_mem hc)
    | cons k keys =>
      rw [weave]
      rcases mem_cons.mp hc with rfl | hc
      · exact sublist_append_left _ _
      · exact ((ih hc).cons _).trans (sublist_append_right _ _)

theorem Subtree.inorder (h : Subtree y d x) : List.Sublist y.inorder x.inorder := by
  induction h with
  | self => exact List.Sublist.refl _
  | child hmem _ ih => exact ih.trans (sublist_weave hmem)

theorem Subtree.mem_leaves {y : BTree K 0} (h : Subtree y d x) :
    (show BLeaf K from y) ∈ x.leaves := by
  induction h with
  | self => exact mem_singleton_self _
  | child hmem _ ih => exact mem_flatMap.mpr ⟨_, hmem, ih⟩

/-- Every page of a tree is that of a subtree. -/
theorem exists_subtree (x : BTree K n) (h : (q, node) ∈ x.cells next) :
    ∃ (m : ℕ) (y : BTree K m) (d : ℕ) (next' : Option ℕ), Subtree y d x ∧ y.pageId = q ∧
      node = rootNode y next' := by
  induction n generalizing next with
  | zero =>
    obtain ⟨p, es, rfl⟩ := exists_leaf x
    obtain ⟨rfl, rfl⟩ := Prod.mk.inj (Multiset.mem_singleton.mp h)
    exact ⟨0, _, 0, next, .self, rfl, rfl⟩
  | succ n ih =>
    obtain ⟨p, keys, cs, rfl⟩ := exists_branch x
    rcases Multiset.mem_cons.mp h with h | h
    · obtain ⟨rfl, rfl⟩ := Prod.mk.inj h
      exact ⟨n + 1, _, 0, next, .self, rfl, rfl⟩
    · obtain ⟨c, hc, next', h⟩ : ∃ c ∈ cs, ∃ next', (q, node) ∈ c.cells next' := by
        clear ih
        induction cs with
        | nil => cases h
        | cons c cs ihcs =>
          rcases Multiset.mem_add.mp h with h | h
          · exact ⟨c, mem_cons_self, _, h⟩
          · obtain ⟨c', hc', h⟩ := ihcs (Multiset.mem_cons_of_mem h) h
            exact ⟨c', mem_cons_of_mem _ hc', h⟩
      obtain ⟨m, y, d, next'', hsub, hrest⟩ := ih c h
      exact ⟨m, y, d + 1, next'', .child hc hsub, hrest⟩

/-- The pages of a tree are found where they belong. -/
def Stored (s : BTreePages K) (x : BTree K n) (next : Option ℕ) : Prop :=
  ∀ p b, (p, b) ∈ x.cells next → s.nodes[p]? = some b

theorem Stored.child {cs : List (BTree K n)} {c : BTree K n}
    (h : Stored s (BTree.branch p keys cs) next) (hc : c ∈ cs) : ∃ next', Stored s c next' := by
  have hsub : ∃ next', ∀ cell ∈ c.cells next', cell ∈ siblingCells cells firstLeaf next cs := by
    clear h
    induction cs with
    | nil => cases hc
    | cons c' cs ih =>
      rcases mem_cons.mp hc with rfl | hc
      · exact ⟨_, fun cell hcell => Multiset.mem_add.mpr (Or.inl hcell)⟩
      · obtain ⟨next', hsub⟩ := ih hc
        exact ⟨next', fun cell hcell => Multiset.mem_add.mpr (Or.inr (hsub cell hcell))⟩
  obtain ⟨next', hsub⟩ := hsub
  exact ⟨next', fun p b hmem => h p b (Multiset.mem_cons_of_mem (hsub _ hmem))⟩

/-- A subtree is found at its page, as many steps below as its depth says. -/
theorem Subtree.reached (h : Subtree y d x) (hx : Stored s x next) :
    s.Below x.pageId d y.pageId ∧ ∃ next', Stored s y next' := by
  induction h generalizing next with
  | self => exact ⟨.self _, next, hx⟩
  | child hmem _ ih =>
    obtain ⟨next', hc⟩ := hx.child hmem
    obtain ⟨hbelow, hy⟩ := ih hc
    exact ⟨.child (hx _ _ (Multiset.mem_cons_self _ _)) (mem_map_of_mem hmem) hbelow, hy⟩

/-- Every page below that of a tree is that of a subtree. -/
theorem Below.exists_subtree (h : s.Below p d q) {x : BTree K n} (hp : x.pageId = p)
    (hx : Stored s x next) : ∃ (m : ℕ) (y : BTree K m), Subtree y d x ∧ y.pageId = q := by
  induction h generalizing n next with
  | self p => exact ⟨n, x, .self, hp⟩
  | @child p c d q node hget hmem _ ih =>
    subst hp
    have hroot := hx _ _ (rootNode_mem x next)
    obtain rfl : node = rootNode x next := Option.mem_unique hget hroot
    cases n with
    | zero => cases hmem
    | succ n =>
      obtain ⟨p, keys, cs, rfl⟩ := exists_branch x
      obtain ⟨child, hchild, hpage⟩ := mem_map.mp hmem
      obtain ⟨next', hc⟩ := hx.child hchild
      obtain ⟨m, y, hsub, hy⟩ := ih hpage hc
      exact ⟨m, y, .child hchild hsub, hy⟩

theorem mark_of_mem_keys (x : BTree K n) {capacity : ℕ} (hx : x.Inner capacity) {key : K}
    (h : key ∈ (rootNode x next).keys) : Mark.key key ∈ x.inorder ∨ Mark.sep key ∈ x.inorder := by
  cases n with
  | zero =>
    obtain ⟨entry, hentry, rfl⟩ := mem_map.mp h
    exact Or.inl (mem_map_of_mem hentry)
  | succ n =>
    obtain ⟨p, keys, cs, rfl⟩ := exists_branch x
    obtain ⟨hlen, -⟩ := inner_branch.mp hx
    refine Or.inr ((keys_sublist_weave inorder keys cs (by omega)).subset ?_)
    exact mem_map_of_mem h

end Subtrees

section Order

variable [LinearOrder K]

/-- The marks of a child lie between the separators around it. -/
theorem weave_between {C : Type} {read : C → List (Mark K)} {cs : List C}
    (hlen : keys.length < cs.length) (hsorted : (weave read keys cs).Pairwise (· < ·)) {i j : ℕ}
    {c : C} {k : K} {m : Mark K} (hc : cs[i]? = some c) (hk : keys[j]? = some k) (hm : m ∈ read c) :
    (j < i → Mark.sep k < m) ∧ (i ≤ j → m < Mark.sep k) := by
  induction keys generalizing cs i j with
  | nil => simp at hk
  | cons k' keys ih =>
    cases cs with
    | nil => simp at hc
    | cons c' cs =>
      rw [weave, pairwise_append, pairwise_cons] at hsorted
      obtain ⟨-, ⟨hsep, hrest⟩, hcross⟩ := hsorted
      cases i with
      | zero =>
        obtain rfl : c' = c := by simpa using hc
        refine ⟨fun h => absurd h (Nat.not_lt_zero j), fun _ => hcross m hm _ ?_⟩
        cases j with
        | zero =>
          obtain rfl : k' = k := by simpa using hk
          exact mem_cons_self
        | succ j =>
          refine mem_cons_of_mem _
            ((keys_sublist_weave read keys cs (by simpa using hlen)).subset ?_)
          exact mem_map_of_mem (mem_of_getElem? hk)
      | succ i =>
        rw [getElem?_cons_succ] at hc
        have hm' : m ∈ weave read keys cs := (sublist_weave (mem_of_getElem? hc)).subset hm
        cases j with
        | zero =>
          obtain rfl : k' = k := by simpa using hk
          exact ⟨fun _ => hsep m hm', fun h => absurd h (by omega)⟩
        | succ j =>
          rw [getElem?_cons_succ] at hk
          obtain ⟨hlt, hle⟩ := ih (by simpa using hlen) hrest hc hk
          exact ⟨fun h => hlt (by omega), fun h => hle (by omega)⟩

variable {s : BTreePages K} {n : ℕ} {x t : BTree K n} {next : Option ℕ}

theorem keys_increasing (x : BTree K n) {capacity : ℕ} (hx : x.Inner capacity)
    (hord : x.Ordered) : (rootNode x next).keys.Pairwise (· < ·) := by
  cases n with
  | zero => exact sorted_entries hord
  | succ n =>
    obtain ⟨p, keys, cs, rfl⟩ := exists_branch x
    obtain ⟨hlen, -⟩ := inner_branch.mp hx
    have h := hord.sublist (keys_sublist_weave inorder keys cs (by omega))
    show keys.Pairwise (· < ·)
    simpa [pairwise_map] using h

/-- The links between the leaves of a search tree. -/
theorem Represents.chain (h : s.Represents t) :
    ∃ leaves : List ℕ, (∃ first, s.leftmostLeaf = .ok first ∧ leaves.head? = some first) ∧
      (∀ (A : List ℕ) (q : ℕ) (B : List ℕ), leaves = A ++ q :: B →
        ∃ node : BTreeNode K, s.nodes[q]? = some node ∧ node.leaf = true ∧
          node.nextLeaf = B.head?) ∧
      leaves.Nodup ∧
      (∀ (q : ℕ) (node : BTreeNode K), s.nodes[q]? = some node → node.leaf = true → q ∈ leaves) ∧
      (leaves.flatMap fun q => (s.nodes[q]?.map BTreeNode.keys).getD []).Pairwise (· < ·) := by
  have hstored : Stored s t none := fun p b => (h.laid.holds.get p b).mpr
  have hinner := h.rooted.inner
  have hcard := card_le_nextPageId h.laid.holds h.ids
  have hleaf : ∀ A l B, t.leaves = A ++ l :: B →
      s.nodes[l.pageId]? = some (leafNode l (linkTo BLeaf.pageId none B)) :=
    fun A l B hsplit => hstored _ _ (leaf_mem_cells t hinner none hsplit)
  refine ⟨t.leaves.map BLeaf.pageId, ⟨t.firstLeaf, ?_, ?_⟩, ?_, ?_, ?_, ?_⟩
  · rw [leftmostLeaf, h.laid.root]
    exact leftmostFrom_eq t hinner none hstored ((height_lt_card t hinner none).trans_le hcard)
  · obtain ⟨l, rest, hleaves, hl⟩ := exists_firstLeaf t hinner
    rw [hleaves, map_cons, head?_cons, hl]
  · intro A q B hsplit
    obtain ⟨A', rest, hleaves, rfl, hrest⟩ := map_eq_append_iff.mp hsplit
    obtain ⟨l, B', rfl, rfl, rfl⟩ := map_eq_cons_iff.mp hrest
    refine ⟨_, hleaf A' l B' hleaves, rfl, ?_⟩
    cases B' <;> rfl
  · rw [← Multiset.coe_nodup]
    exact Multiset.nodup_of_le (leaves_le_cells t none) h.laid.holds.nodup
  · intro q node hget hisLeaf
    obtain ⟨m, y, d, next', hsub, rfl, rfl⟩ := exists_subtree t ((h.laid.holds.get q node).mp hget)
    rw [leaf_rootNode] at hisLeaf
    subst hisLeaf
    exact mem_map.mpr ⟨_, hsub.mem_leaves, rfl⟩
  · have hkeys : (t.leaves.map BLeaf.pageId).flatMap
        (fun q => (s.nodes[q]?.map BTreeNode.keys).getD []) = t.entries.map Prod.fst := by
      rw [entries_eq_leaves, flatMap_map, map_flatMap]
      refine flatMap_congr fun l hl => ?_
      obtain ⟨A, B, hsplit⟩ := append_of_mem hl
      rw [hleaf A l B hsplit]
      rfl
    rw [hkeys]
    exact sorted_entries h.ordered

/-- The pages that a search tree of the right shape is laid out on are well formed. -/
theorem Represents.wellFormed (h : s.Represents t) : s.WellFormed := by
  have hstored : Stored s t none := fun p b => (h.laid.holds.get p b).mpr
  have hinner := h.rooted.inner
  -- every page is that of a subtree
  have hnode : ∀ (q : ℕ) (node : BTreeNode K), s.nodes[q]? = some node →
      ∃ (m : ℕ) (y : BTree K m) (d : ℕ) (next : Option ℕ), Subtree y d t ∧ y.pageId = q ∧
        node = rootNode y next :=
    fun q node hget => exists_subtree t ((h.laid.holds.get q node).mp hget)
  refine ⟨?_, ?_, ?_, ?_, ?_, ?_, ?_, ?_, ?_, h.ids⟩
  · refine ⟨n, fun d q hbelow => ?_⟩
    obtain ⟨m, y, hsub, rfl⟩ := hbelow.exists_subtree h.laid.root.symm hstored
    obtain ⟨-, next', hy⟩ := hsub.reached hstored
    refine ⟨_, hy _ _ (rootNode_mem y next'), ?_⟩
    have := hsub.height
    rw [leaf_rootNode]
    omega
  · intro q hq
    obtain ⟨node, hget⟩ := Option.isSome_iff_exists.mp
      (Std.ExtTreeMap.mem_iff_isSome_getElem?.mp hq)
    obtain ⟨m, y, d, next', hsub, rfl, -⟩ := hnode q node hget
    exact ⟨d, h.laid.root ▸ (hsub.reached hstored).1⟩
  · intro q node hget hne
    obtain ⟨m, y, d, next', hsub, rfl, rfl⟩ := hnode q node hget
    rw [length_keys_rootNode]
    refine (hsub.inner hinner).2 fun hd => ?_
    subst hd
    cases hsub
    exact hne h.laid.root.symm
  · intro node hget
    rw [h.laid.root, hstored _ _ (rootNode_mem t none)] at hget
    rw [← Option.some.inj hget, length_keys_rootNode]
    exact h.rooted.keyCount_le
  · intro q node hget hleaf
    obtain ⟨m, y, d, next', hsub, rfl, rfl⟩ := hnode q node hget
    cases m with
    | zero => cases hleaf
    | succ m =>
      obtain ⟨p, keys, cs, rfl⟩ := exists_branch y
      exact (length_map _).trans (inner_branch.mp (hsub.inner hinner).1).1
  · intro q node hget hleaf
    obtain ⟨m, y, d, next', hsub, rfl, rfl⟩ := hnode q node hget
    cases m with
    | zero => exact (length_map _).trans (length_map _).symm
    | succ m => cases hleaf
  · intro q node hget
    obtain ⟨m, y, d, next', hsub, rfl, rfl⟩ := hnode q node hget
    exact keys_increasing y (hsub.inner hinner).1 (h.ordered.sublist hsub.inorder)
  · intro p parent i c d q node hparent hchild hbelow hget key hkey j k hk
    obtain ⟨m, y, d', next', hsub, rfl, rfl⟩ := hnode p parent hparent
    cases m with
    | zero => cases hchild
    | succ m =>
      obtain ⟨p, keys, cs, rfl⟩ := exists_branch y
      replace hchild : (cs.map pageId)[i]? = some c := hchild
      rw [getElem?_map, Option.map_eq_some_iff] at hchild
      obtain ⟨child, hchild, rfl⟩ := hchild
      obtain ⟨hy, -⟩ := hsub.inner hinner
      obtain ⟨hlen, hcs⟩ := inner_branch.mp hy
      have hmem := mem_of_getElem? hchild
      obtain ⟨-, next'', hstored'⟩ := hsub.reached hstored
      obtain ⟨nextc, hstoredc⟩ := hstored'.child hmem
      obtain ⟨mz, z, hsubz, rfl⟩ := hbelow.exists_subtree rfl hstoredc
      obtain ⟨-, nextz, hstoredz⟩ := hsubz.reached hstoredc
      obtain rfl : rootNode z nextz = node :=
        Option.some.inj ((hstoredz _ _ (rootNode_mem z nextz)).symm.trans hget)
      have hsorted := h.ordered.sublist hsub.inorder
      rw [inorder_branch] at hsorted
      rcases mark_of_mem_keys z (hsubz.inner (hcs child hmem).1).1 hkey with hmark | hmark
      · obtain ⟨hlt, hle⟩ := weave_between (by omega) hsorted hchild hk (hsubz.inorder.subset hmark)
        exact ⟨fun hji => Mark.sep_lt_key.mp (hlt hji), fun hij => Mark.key_lt_sep.mp (hle hij)⟩
      · obtain ⟨hlt, hle⟩ := weave_between (by omega) hsorted hchild hk (hsubz.inorder.subset hmark)
        exact ⟨fun hji => (Mark.sep_lt_sep.mp (hlt hji)).le,
          fun hij => Mark.sep_lt_sep.mp (hle hij)⟩
  · exact h.chain

end Order

end BTreePages

end VertexDB
