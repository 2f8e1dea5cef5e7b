import VertexDB.Indexing.BTreeRotate

/-!
# Rebalancing an ordered index

The loop of `rebalanceAfterDelete` along the path from a leaf to the root. A node with too few keys
takes one over from a neighbour, and the loop ends; or it is merged with a neighbour, and the
parent, which lost a key, is next. At the end a root without keys gives way to its only child.
-/

namespace VertexDB

open Exec CellHeap BTree BFrame List

variable {K : Type}

namespace BTreePages

variable {s s' : BTreePages K} {d n : ℕ} {R : Multiset (ℕ × BTreeNode K)} {next : Option ℕ}

section Nodes

/-- The page of the root of a tree. -/
def rootNode : {n : ℕ} → BTree K n → Option ℕ → BTreeNode K
  | 0, t, next => BTree.leafNode t next
  | _ + 1, t, _ =>
    BTree.innerNode (BBranch.pageId t) (BBranch.keys t) ((BBranch.children t).map BTree.pageId)

theorem rootNode_mem (t : BTree K n) (next : Option ℕ) :
    (t.pageId, rootNode t next) ∈ t.cells next := by
  cases n with
  | zero => exact Multiset.mem_singleton_self _
  | succ n => exact Multiset.mem_cons_self _ _

theorem length_keys_rootNode (t : BTree K n) (next : Option ℕ) :
    (rootNode t next).keys.length = t.keyCount := by
  cases n with
  | zero => exact length_map _
  | succ n => rfl

theorem leaf_rootNode (t : BTree K n) (next : Option ℕ) :
    ((rootNode t next).leaf = true) = (n = 0) := by
  cases n with
  | zero => simp [rootNode, leafNode]
  | succ n => simp [rootNode, innerNode]

theorem rootNode_mem_siblings {cs : List (BTree K n)} {x : BTree K n} (hx : x ∈ cs)
    (next : Option ℕ) :
    ∃ next', (x.pageId, rootNode x next') ∈ siblingCells BTree.cells BTree.firstLeaf next cs := by
  induction cs with
  | nil => cases hx
  | cons c cs ih =>
    rcases mem_cons.mp hx with rfl | hx
    · exact ⟨_, Multiset.mem_add.mpr (Or.inl (rootNode_mem x _))⟩
    · obtain ⟨next', h⟩ := ih hx
      exact ⟨next', Multiset.mem_add.mpr (Or.inr h)⟩

theorem nodup_pageIds {cs : List (BTree K n)} {next : Option ℕ}
    (h : ((siblingCells BTree.cells BTree.firstLeaf next cs).map Prod.fst).Nodup) :
    (cs.map BTree.pageId).Nodup := by
  induction cs with
  | nil => exact nodup_nil
  | cons c cs ih =>
    rw [siblingCells, Multiset.map_add, Multiset.nodup_add] at h
    rw [map_cons, nodup_cons]
    refine ⟨fun hmem => ?_, ih h.2.1⟩
    obtain ⟨x, hx, hpage⟩ := mem_map.mp hmem
    obtain ⟨next', hx'⟩ := rootNode_mem_siblings hx next
    exact Multiset.disjoint_left.mp h.2.2 (fst_mem (rootNode_mem c _)) (hpage ▸ fst_mem hx')

variable {f : BFrame K (BTree K d)} {x : BTree K d}

theorem Pages.child (h : s.Pages (R + (f.plug x).cells next)) {y : BTree K d}
    (hy : y ∈ f.children x) : ∃ next', BTreePages.node y.pageId s = .ok (rootNode y next') s := by
  obtain ⟨next', hmem⟩ := rootNode_mem_siblings hy next
  exact ⟨next', h.node (Multiset.mem_add.mpr (Or.inr (Multiset.mem_cons_of_mem hmem)))⟩

theorem Pages.parent (h : s.Pages (R + (f.plug x).cells next)) :
    BTreePages.node f.pageId s = .ok (f.page x.pageId) s := by
  rw [f.cells_plug] at h
  exact h.node (Multiset.mem_add.mpr (Or.inr (Multiset.mem_cons_self _ _)))

theorem Pages.idxOf_page (h : s.Pages (R + (f.plug x).cells next)) :
    (f.page x.pageId).children.idxOf x.pageId = f.left.length := by
  have hnodup := h.holds.nodup
  rw [plug, cells_branch, Multiset.map_add, Multiset.nodup_add, Multiset.map_cons,
    Multiset.nodup_cons] at hnodup
  have hpages := nodup_pageIds hnodup.2.1.2
  rw [children, map_append, map_cons, map_map, nodup_append] at hpages
  rw [page, innerNode, idxOf_append_of_notMem, idxOf_cons_self, length_map, add_zero]
  intro hmem
  exact hpages.2.2 x.pageId hmem x.pageId mem_cons_self rfl

theorem canLend_some {parent : BTreeNode K} {i : ℕ} {y : BTree K d} {next : Option ℕ}
    (hchild : parent.children[i]? = some y.pageId)
    (hnode : node y.pageId s = .ok (rootNode y next) s) :
    canLend parent true i s = .ok (decide (s.minKeys < y.keyCount)) s := by
  rw [canLend, if_pos rfl, childNode, bind_assoc, element_bind hchild, bind_of_ok hnode, get_bind,
    length_keys_rootNode]
  rfl

end Nodes

section Collapse

variable {c : BCtx K d n} {x : BTree K d}

/-- The subtree has the shape of one in the hole, except that it may be a root without keys. -/
def Settles (capacity : ℕ) : {d n : ℕ} → BCtx K d n → BTree K d → Prop
  | _, _, .top, x => x.Inner capacity ∧ x.keyCount ≤ capacity
  | _, _, .frame _ _, x => x.Occupied capacity

theorem settles_branch {capacity : ℕ} (c : BCtx K (d + 1) n) {x : BTree K (d + 1)}
    (h : c.Accepts capacity x) : Settles capacity c x := by
  cases c with
  | top => exact ⟨h.1, h.2.2⟩
  | frame f up => exact h

/-- A whole tree stays as it is. -/
theorem collapseRootIfNeeded_rooted {capacity : ℕ} {t : BTree K n}
    (hpages : s.Pages (t.cells none)) (hroot : s.rootPageId = t.pageId) (h : t.Rooted capacity) :
    collapseRootIfNeeded s = .ok ⟨⟩ s := by
  rw [collapseRootIfNeeded, get_bind, hroot, hpages.node_bind (rootNode_mem t none)]
  cases n with
  | zero => rfl
  | succ n =>
    obtain ⟨p, keys, cs, rfl⟩ := exists_branch t
    obtain ⟨hinner, hone, -⟩ := h
    obtain ⟨hlen, -⟩ := inner_branch.mp hinner
    rw [keyCount_branch] at hone
    match cs, hlen with
    | c₁ :: c₂ :: cs, _ => rfl
    | [_], hlen =>
      rw [length_singleton] at hlen
      omega

/-- The end of a removal: a root without keys gives way to its only child. -/
theorem collapseRootIfNeeded_spec (hcap : 2 ≤ s.maxKeysPerNode)
    (hpages : s.Pages (c.cells x.pageId x.firstLeaf + x.cells c.next))
    (hroot : s.rootPageId = c.rootPage x.pageId) (hfits : c.Fits s.maxKeysPerNode)
    (hx : Settles s.maxKeysPerNode c x) :
    ∃ (n' : ℕ) (t : BTree K n') (s' : BTreePages K), collapseRootIfNeeded s = .ok ⟨⟩ s' ∧
      Outcome s s' (c.before ++ x.inorder ++ c.after)
        (c.entriesBefore ++ x.entries ++ c.entriesAfter) t := by
  by_cases haccepts : c.Accepts s.maxKeysPerNode x
  · have hout := outcome_plug hpages hroot hfits haccepts
    exact ⟨n, _, s, collapseRootIfNeeded_rooted hout.pages hout.root hout.rooted, hout⟩
  · cases c with
    | frame f up => exact absurd hx haccepts
    | top =>
      obtain ⟨hinner, hle⟩ := hx
      cases d with
      | zero => exact absurd hle haccepts
      | succ d =>
        obtain ⟨p, keys, cs, rfl⟩ := exists_branch x
        obtain ⟨hlen, hcs⟩ := inner_branch.mp hinner
        obtain rfl : keys = [] := by
          by_contra hne
          exact haccepts ⟨hinner, length_pos_iff.mpr hne, hle⟩
        obtain ⟨child, rfl⟩ := length_eq_one_iff.mp hlen
        rw [BCtx.cells, zero_add, BCtx.next, cells_branch] at hpages
        have hpages' := hpages.discard
        rw [siblingCells, siblingCells, linkTo, add_zero] at hpages'
        refine ⟨d, child, { s.discard p with rootPageId := child.pageId }, ?_, ?_⟩
        · rw [collapseRootIfNeeded, get_bind, hroot]
          show (node p >>= _) s = _
          rw [hpages.node_bind (Multiset.mem_cons_self _ _)]
          rfl
        · exact ⟨hpages'.setHead child.pageId s.keyCount, rfl,
            by simp [inorder_branch, weave_nil, BCtx.before, BCtx.after],
            by simp [BCtx.entriesBefore, BCtx.entriesAfter],
            (hcs child (mem_singleton_self _)).rooted hcap, rfl, rfl⟩

end Collapse

section Rebalance

variable {f g : BFrame K (BTree K d)} {x : BTree K d}

/-- The loop of `rebalanceAfterDelete` at a node that has a parent. -/
theorem rebalance_frame (hpages : s.Pages (R + (f.plug x).cells next)) (path : List ℕ) :
    rebalance (x.pageId :: f.pageId :: path) s =
      (if s.minKeys ≤ x.keyCount then pure () else do
        let left ← canLend (f.page x.pageId) (0 < f.left.length) (f.left.length - 1)
        if left then
          if d = 0 then borrowFromLeftLeaf f.pageId f.left.length
          else borrowFromLeftInternal f.pageId f.left.length
        else
          let right ← canLend (f.page x.pageId)
            (f.left.length + 1 < f.left.length + 1 + f.right.length) (f.left.length + 1)
          if right then
            if d = 0 then borrowFromRightLeaf f.pageId f.left.length
            else borrowFromRightInternal f.pageId f.left.length
          else
            let leftChildIndex := if 0 < f.left.length then f.left.length - 1 else f.left.length
            if d = 0 then mergeLeaves f.pageId leftChildIndex
            else mergeInternals f.pageId leftChildIndex
            let merged ← node f.pageId
            if s.minKeys ≤ merged.keys.length ∨ path = [] then pure ()
            else rebalance (f.pageId :: path) : EStateM Error (BTreePages K) Unit) s := by
  obtain ⟨next', hnode⟩ := hpages.child (y := x) (by simp [children])
  have hlen : (f.page x.pageId).children.length = f.left.length + 1 + f.right.length := by
    simp only [page, innerNode, length_append, length_map, length_cons]
    omega
  rw [rebalance, bind_of_ok hnode, bind_of_ok hpages.parent, get_bind]
  simp only [hpages.idxOf_page, hlen, length_keys_rootNode, leaf_rootNode]
  rw [if_neg (by omega)]

theorem canLend_left (hpages : s.Pages (R + (f.plug x).cells next)) {L : List (BTree K d × K)}
    {a : BTree K d} {k : K} (hleft : f.left = L ++ [(a, k)]) :
    canLend (f.page x.pageId) (0 < f.left.length) (f.left.length - 1) s =
      .ok (decide (s.minKeys < a.keyCount)) s := by
  obtain ⟨next', hnode⟩ := hpages.child (y := a) (by simp [children, hleft])
  rw [decide_eq_true (by simp [hleft])]
  exact canLend_some (by simp [page, innerNode, hleft]) hnode

theorem canLend_right (hpages : s.Pages (R + (f.plug x).cells next)) {b : BTree K d} {k : K}
    {Rr : List (K × BTree K d)} (hright : f.right = (k, b) :: Rr) :
    canLend (f.page x.pageId) (f.left.length + 1 < f.left.length + 1 + f.right.length)
      (f.left.length + 1) s = .ok (decide (s.minKeys < b.keyCount)) s := by
  obtain ⟨next', hnode⟩ := hpages.child (y := b) (by simp [children, hright])
  rw [decide_eq_true (by simp [hright])]
  exact canLend_some (by simp [page, innerNode, hright]) hnode

theorem merge_bind {c : Prop} [Decidable c] {y z w : EStateM Error (BTreePages K) Unit}
    {v : BTreeNode K → EStateM Error (BTreePages K) Unit} {p : ℕ} :
    ((if c then (do y; let merged ← node p; v merged)
      else (do z; let merged ← node p; v merged)) >>=
        fun _ => w) s =
      ((if c then y else z) >>= fun _ => node p >>= fun merged => v merged >>= fun _ => w) s := by
  split_ifs <;> simp only [bind_assoc]

theorem plug_concat (p : ℕ) (L : List (BTree K d × K)) (a : BTree K d) (k : K)
    (Rr : List (K × BTree K d)) (x : BTree K d) :
    (⟨p, L ++ [(a, k)], Rr⟩ : BFrame K (BTree K d)).plug x =
      ((⟨p, L, Rr⟩ : BFrame K (BTree K d)).insertRight k x).plug a := by
  simp [plug, insertRight, BFrame.keys, children]


variable [LinearOrder K] {capacity : ℕ} {a b a' b' m : BTree K d} {k k' : K}

/-- A subtree that can stand in the place of another one. -/
structure Replaces (z z' : BTree K d) : Prop where
  pageId : z'.pageId = z.pageId
  firstLeaf : z'.firstLeaf = z.firstLeaf
  entries : z'.entries = z.entries
  sorted : ∀ l r : List (Mark K), (l ++ z.inorder ++ r).Pairwise (· < ·) →
    (l ++ z'.inorder ++ r).Pairwise (· < ·)

theorem Rotated.replaces (h : Rotated capacity a k b a' k' b') (g : BFrame K (BTree K d)) :
    Replaces ((g.insertRight k b).plug a) ((g.insertRight k' b').plug a') where
  pageId := rfl
  firstLeaf := by
    rw [firstLeaf_plug, firstLeaf_plug, h.firstLeaf]
    rfl
  entries := by rw [g.entries_insertRight, g.entries_insertRight, h.entries]
  sorted l r hsorted := by
    rw [g.inorder_insertRight] at hsorted ⊢
    have h' := h.sorted (l ++ g.before) (g.after ++ r) (by simpa using hsorted)
    simpa using h'

theorem Merged.replaces (h : Merged capacity a k b m) (g : BFrame K (BTree K d)) :
    Replaces ((g.insertRight k b).plug a) (g.plug m) where
  pageId := rfl
  firstLeaf := by
    rw [firstLeaf_plug, firstLeaf_plug, h.firstLeaf]
    rfl
  entries := by rw [g.entries_insertRight, g.entries_plug, h.entries]
  sorted l r hsorted := by
    rw [g.inorder_insertRight] at hsorted
    rw [g.inorder_plug]
    have h' := h.sorted (l ++ g.before) (g.after ++ r) (by simpa using hsorted)
    simpa using h'

theorem Replaces.cells {z z' : BTree K d} (h : Replaces z z') (c : BCtx K d n) :
    (c.plug z').cells none = c.cells z.pageId z.firstLeaf + z'.cells c.next := by
  rw [c.cells_plug, h.pageId, h.firstLeaf]

theorem Replaces.ordered {z z' : BTree K d} (h : Replaces z z') {c : BCtx K d n}
    (hord : (c.plug z).Ordered) : (c.plug z').Ordered := by
  rw [BTree.Ordered, c.inorder_plug] at hord ⊢
  exact h.sorted _ _ hord

theorem Replaces.entries_plug {z z' : BTree K d} (h : Replaces z z') (c : BCtx K d n) :
    (c.plug z').entries = (c.plug z).entries := by
  rw [c.entries_plug, c.entries_plug, h.entries]

/-- The run ends with a tree that has these entries. -/
def EndsIn (s : BTreePages K) (r : EStateM.Result Error (BTreePages K) Unit)
    (entries : List (K × List ℕ)) : Prop :=
  ∃ (n : ℕ) (t : BTree K n) (s' : BTreePages K) (marks : List (Mark K)), r = .ok ⟨⟩ s' ∧
    marks.Pairwise (· < ·) ∧ Outcome s s' marks entries t

/-- The end of a removal, for a tree with a subtree that settles in the hole. -/
theorem collapse_plug {c : BCtx K d n} (hcap : 2 ≤ s.maxKeysPerNode)
    (hpages : s.Pages ((c.plug x).cells none)) (hroot : s.rootPageId = (c.plug x).pageId)
    (hord : (c.plug x).Ordered) (hfits : c.Fits s.maxKeysPerNode)
    (hx : Settles s.maxKeysPerNode c x) :
    EndsIn s (collapseRootIfNeeded s) (c.plug x).entries := by
  rw [c.cells_plug] at hpages
  rw [c.pageId_plug] at hroot
  obtain ⟨n', t, s', hrun, hout⟩ := collapseRootIfNeeded_spec hcap hpages hroot hfits hx
  rw [BTree.Ordered, c.inorder_plug] at hord
  rw [← c.entries_plug] at hout
  exact ⟨n', t, s', _, hrun, hord, hout⟩

/-- The end of a removal that put another subtree into the place of one. -/
theorem Replaces.collapse {z z' : BTree K d} (h : Replaces z z') {c : BCtx K d n}
    (hhead : SameHead s s') (hcap : 2 ≤ s.maxKeysPerNode)
    (hpages : s'.Pages (c.cells z.pageId z.firstLeaf + z'.cells c.next))
    (hroot : s.rootPageId = (c.plug z).pageId) (hord : (c.plug z).Ordered)
    (hfits : c.Fits s.maxKeysPerNode) (hz' : Settles s.maxKeysPerNode c z') :
    EndsIn s (collapseRootIfNeeded s') (c.plug z).entries := by
  have hmax := hhead.maxKeysPerNode
  obtain ⟨n', t, s'', marks, hrun, hmarks, hout⟩ := collapse_plug (s := s') (c := c) (x := z')
    (hmax ▸ hcap) (by rw [h.cells]; exact hpages)
    (by rw [hhead.rootPageId, hroot, c.pageId_plug, c.pageId_plug, h.pageId])
    (h.ordered hord) (hmax ▸ hfits) (hmax ▸ hz')
  rw [h.entries_plug] at hout
  exact ⟨n', t, s'', marks, hrun, hmarks, hout.head hmax hhead.keyCount⟩

/-- The node with a rotated pair has the shape of the node before. -/
theorem Rotated.settles (h : Rotated capacity a k b a' k' b') {g : BFrame K (BTree K d)}
    {up : BCtx K (d + 1) n} (hleft : ∀ entry ∈ g.left, entry.1.Occupied capacity)
    (hright : ∀ entry ∈ g.right, entry.2.Occupied capacity)
    (hfloor : up.floor capacity ≤ g.keys.length + 1) (hle : g.keys.length + 1 ≤ capacity)
    (ha : a'.InRange capacity) (hb : b'.InRange capacity) :
    Settles capacity up ((g.insertRight k' b').plug a') := by
  have hlen := g.length_keys_insertRight k' b'
  refine settles_branch up (up.accepts_branch ?_ ?_ ?_)
  · refine (g.insertRight k' b').inner_plug hleft ⟨h.inner_left, ha⟩ fun entry hentry => ?_
    rcases mem_cons.mp hentry with rfl | hentry
    · exact ⟨h.inner_right, hb⟩
    · exact hright entry hentry
  · rw [keyCount_plug]
    omega
  · rw [keyCount_plug]
    omega

theorem Merged.inner_plug (h : Merged capacity a k b m) {g : BFrame K (BTree K d)}
    (hleft : ∀ entry ∈ g.left, entry.1.Occupied capacity)
    (hright : ∀ entry ∈ g.right, entry.2.Occupied capacity) (hm : m.InRange capacity) :
    (g.plug m).Inner capacity :=
  g.inner_plug hleft ⟨h.inner, hm⟩ hright

/-- A tree with a subtree in the hole that may have one key too few. -/
structure Loose (s : BTreePages K) (c : BCtx K d n) (x : BTree K d) : Prop where
  capacity : 2 ≤ s.maxKeysPerNode
  pages : s.Pages ((c.plug x).cells none)
  root : s.rootPageId = (c.plug x).pageId
  ordered : (c.plug x).Ordered
  fits : c.Fits s.maxKeysPerNode
  inner : x.Inner s.maxKeysPerNode
  low : s.maxKeysPerNode / 2 ≤ x.keyCount + 1
  keys_le : x.keyCount ≤ s.maxKeysPerNode

section Steps

variable {up : BCtx K (d + 1) n}

/-- The node with the pair and everything around it, as the loop finds it. -/
structure Weak (s : BTreePages K) (up : BCtx K (d + 1) n) (g : BFrame K (BTree K d)) (a : BTree K d)
    (k : K) (b : BTree K d) : Prop where
  capacity : 2 ≤ s.maxKeysPerNode
  pages : s.Pages ((up.plug ((g.insertRight k b).plug a)).cells none)
  root : s.rootPageId = (up.plug ((g.insertRight k b).plug a)).pageId
  ordered : (up.plug ((g.insertRight k b).plug a)).Ordered
  fits : up.Fits s.maxKeysPerNode
  left : ∀ entry ∈ g.left, entry.1.Occupied s.maxKeysPerNode
  right : ∀ entry ∈ g.right, entry.2.Occupied s.maxKeysPerNode
  floor_le : up.floor s.maxKeysPerNode ≤ g.keys.length + 1
  keys_le : g.keys.length + 1 ≤ s.maxKeysPerNode
  inner_left : a.Inner s.maxKeysPerNode
  inner_right : b.Inner s.maxKeysPerNode

theorem Weak.around (h : Weak s up g a k b) :
    s.Pages (up.cells ((g.insertRight k b).plug a).pageId ((g.insertRight k b).plug a).firstLeaf +
      ((g.insertRight k b).plug a).cells up.next) := by
  rw [← up.cells_plug]
  exact h.pages

theorem Weak.borrowFromLeft (h : Weak s up g a k b) (ha : a.keyCount ≤ s.maxKeysPerNode)
    (hlend : s.minKeys < a.keyCount) (hlow : s.minKeys ≤ b.keyCount + 1)
    (hweak : b.keyCount < s.minKeys) :
    EndsIn s (((if d = 0 then borrowFromLeftLeaf g.pageId (g.left.length + 1)
        else borrowFromLeftInternal g.pageId (g.left.length + 1)) >>= fun _ =>
        collapseRootIfNeeded) s) (up.plug ((g.insertRight k b).plug a)).entries := by
  have hcap := h.capacity
  have hmin : s.minKeys = s.maxKeysPerNode / 2 := rfl
  obtain ⟨a', k', b', s', hrun, hhead, hpages, hrot, hcount, hcount'⟩ :=
    borrowFromLeft_spec h.around h.inner_left h.inner_right (by omega)
  rw [bind_of_ok hrun]
  exact (hrot.replaces g).collapse hhead hcap hpages h.root h.ordered h.fits
    (hrot.settles h.left h.right h.floor_le h.keys_le ⟨by omega, by omega⟩ ⟨by omega, by omega⟩)

theorem Weak.borrowFromRight (h : Weak s up g a k b) (hb : b.keyCount ≤ s.maxKeysPerNode)
    (hlend : s.minKeys < b.keyCount) (hlow : s.minKeys ≤ a.keyCount + 1)
    (hweak : a.keyCount < s.minKeys) :
    EndsIn s (((if d = 0 then borrowFromRightLeaf g.pageId g.left.length
        else borrowFromRightInternal g.pageId g.left.length) >>= fun _ =>
        collapseRootIfNeeded) s) (up.plug ((g.insertRight k b).plug a)).entries := by
  have hcap := h.capacity
  have hmin : s.minKeys = s.maxKeysPerNode / 2 := rfl
  obtain ⟨a', k', b', s', hrun, hhead, hpages, hrot, hcount, hcount'⟩ :=
    borrowFromRight_spec h.around h.inner_left h.inner_right (by omega)
  rw [bind_of_ok hrun]
  exact (hrot.replaces g).collapse hhead hcap hpages h.root h.ordered h.fits
    (hrot.settles h.left h.right h.floor_le h.keys_le ⟨by omega, by omega⟩ ⟨by omega, by omega⟩)

/-- A merge, after which the loop may go on with the parent. -/
theorem Weak.merge (h : Weak s up g a k b) (hlow : s.minKeys ≤ a.keyCount + b.keyCount)
    (hle : a.keyCount + b.keyCount + 1 ≤ s.maxKeysPerNode)
    (ih : ∀ {s₁ : BTreePages K} {z : BTree K (d + 1)}, Loose s₁ up z →
      EndsIn s₁ (rebalanceAfterDelete (z.pageId :: up.path) s₁) (up.plug z).entries) :
    EndsIn s (((if d = 0 then mergeLeaves g.pageId g.left.length
        else mergeInternals g.pageId g.left.length) >>= fun _ =>
        node g.pageId >>= fun merged =>
        (if s.minKeys ≤ merged.keys.length ∨ up.path = [] then pure ()
          else rebalance (g.pageId :: up.path)) >>= fun _ => collapseRootIfNeeded) s)
      (up.plug ((g.insertRight k b).plug a)).entries := by
  have hmin : s.minKeys = s.maxKeysPerNode / 2 := rfl
  have hfloor := h.floor_le
  have hkeys := h.keys_le
  obtain ⟨m, s₁, hrun, hhead, hpages, hmerged, hcount, hcount'⟩ :=
    merge_spec h.around h.inner_left h.inner_right
  have hinner := hmerged.inner_plug h.left h.right ⟨by omega, by omega⟩
  have hrepl := hmerged.replaces g
  rw [bind_of_ok hrun, bind_of_ok hpages.parent, g.keys_page]
  split_ifs with hdone
  · refine hrepl.collapse hhead h.capacity hpages h.root h.ordered h.fits ?_
    cases up with
    | top => exact ⟨hinner, by rw [keyCount_plug]; omega⟩
    | frame f' up =>
      have hfull : s.minKeys ≤ g.keys.length := hdone.resolve_right (cons_ne_nil _ _)
      exact ⟨hinner, by rw [keyCount_plug]; omega, by rw [keyCount_plug]; omega⟩
  · have hmax := hhead.maxKeysPerNode
    have hup : s.maxKeysPerNode / 2 ≤ g.keys.length + 1 := by
      cases up with
      | top => exact absurd (Or.inr rfl) hdone
      | frame f' up => exact hfloor
    have hloose : Loose s₁ up (g.plug m) :=
      ⟨hmax ▸ h.capacity, by rw [hrepl.cells]; exact hpages,
        by rw [hhead.rootPageId, h.root, up.pageId_plug, up.pageId_plug, hrepl.pageId],
        hrepl.ordered h.ordered, hmax ▸ h.fits, hmax ▸ hinner,
        by rw [hmax, keyCount_plug]; exact hup,
        by rw [hmax, keyCount_plug]; omega⟩
    obtain ⟨n', t, s', marks, hok, hmarks, hout⟩ := ih hloose
    rw [hrepl.entries_plug] at hout
    exact ⟨n', t, s', marks, hok, hmarks, hout.head hmax hhead.keyCount⟩

end Steps

section Loop

variable {up : BCtx K (d + 1) n} {L : List (BTree K d × K)} {Rr : List (K × BTree K d)}

theorem Loose.weak_right (h : Loose s (.frame f up) x) (hright : f.right = (k, b) :: Rr) :
    Weak s up ⟨f.pageId, f.left, Rr⟩ x k b ∧ b.Occupied s.maxKeysPerNode := by
  have hf : ((⟨f.pageId, f.left, Rr⟩ : BFrame K (BTree K d)).insertRight k b) = f := by
    rw [insertRight, ← hright]
  have hlen := (⟨f.pageId, f.left, Rr⟩ : BFrame K (BTree K d)).length_keys_insertRight k b
  rw [hf] at hlen
  obtain ⟨hl, hr, hfloor, hkeys, hup⟩ := h.fits
  rw [hright] at hr
  exact
    ⟨⟨h.capacity, by rw [hf]; exact h.pages, by rw [hf]; exact h.root, by rw [hf]; exact h.ordered,
    hup, hl, fun entry hentry => hr entry (mem_cons_of_mem _ hentry), hlen ▸ hfloor, hlen ▸ hkeys,
    h.inner, (hr _ mem_cons_self).1⟩, hr _ mem_cons_self⟩

theorem Loose.weak_left (h : Loose s (.frame f up) x) (hleft : f.left = L ++ [(a, k)]) :
    Weak s up ⟨f.pageId, L, f.right⟩ a k x ∧ a.Occupied s.maxKeysPerNode := by
  have hf : f.plug x =
      ((⟨f.pageId, L, f.right⟩ : BFrame K (BTree K d)).insertRight k x).plug a := by
    rw [← plug_concat, ← hleft]
  have hlen : f.keys.length = (⟨f.pageId, L, f.right⟩ : BFrame K (BTree K d)).keys.length + 1 := by
    rw [← length_keys_insertRight _ k x]
    exact congrArg BTree.keyCount hf
  obtain ⟨hl, hr, hfloor, hkeys, hup⟩ := h.fits
  rw [hleft] at hl
  have hmem : (a, k) ∈ L ++ [(a, k)] := mem_append_right _ (mem_singleton_self _)
  exact ⟨⟨h.capacity, by rw [← hf]; exact h.pages, by rw [← hf]; exact h.root,
    by rw [← hf]; exact h.ordered, hup, fun entry hentry => hl entry (mem_append_left _ hentry),
    hr, hlen ▸ hfloor, hlen ▸ hkeys, (hl _ hmem).1, h.inner⟩, hl _ hmem⟩

theorem Loose.exists_neighbour (h : Loose s (.frame f up) x) : f.left ≠ [] ∨ f.right ≠ [] := by
  have hcap := h.capacity
  obtain ⟨-, -, hfloor, -, -⟩ := h.fits
  have hone : 1 ≤ up.floor s.maxKeysPerNode := by
    cases up with
    | top => exact le_rfl
    | frame f' up =>
      show 1 ≤ s.maxKeysPerNode / 2
      omega
  by_contra hnone
  obtain ⟨hl, hr⟩ := not_or.mp hnone
  rw [BFrame.keys, not_not.mp hl, not_not.mp hr] at hfloor
  exact absurd (hone.trans hfloor) (by simp)

end Loop

/-- The loop of `rebalanceAfterDelete` and what follows on it. -/
theorem rebalance_spec (c : BCtx K d n) (h : Loose s c x) :
    EndsIn s (rebalanceAfterDelete (x.pageId :: c.path) s) (c.plug x).entries := by
  induction c generalizing s with
  | top =>
    rw [BCtx.path, rebalanceAfterDelete, rebalance]
    · exact collapse_plug h.capacity h.pages h.root h.ordered h.fits ⟨h.inner, h.keys_le⟩
    · intro pageId parentId path h
      cases h
  | @frame d n f up ih =>
    have hpages := h.pages
    have hcap := h.capacity
    rw [BCtx.plug, up.cells_plug] at hpages
    have hmin : s.minKeys = s.maxKeysPerNode / 2 := rfl
    rw [rebalanceAfterDelete, BCtx.path, bind_congr_run (rebalance_frame hpages up.path)]
    by_cases henough : s.minKeys ≤ x.keyCount
    · rw [if_pos henough]
      exact collapse_plug h.capacity h.pages h.root h.ordered h.fits ⟨h.inner, henough, h.keys_le⟩
    have hlow : s.minKeys ≤ x.keyCount + 1 := h.low
    rw [if_neg henough, bind_assoc]
    rcases eq_nil_or_concat' f.left with hleft | ⟨L, ⟨a, k⟩, hleft⟩
    · obtain ⟨⟨k, b⟩, Rr, hright⟩ := exists_cons_of_ne_nil
        (h.exists_neighbour.resolve_left (not_not.mpr hleft))
      obtain ⟨hweak, hb⟩ := h.weak_right hright
      have hplug : (⟨f.pageId, f.left, Rr⟩ : BFrame K (BTree K d)).insertRight k b = f := by
        rw [insertRight, ← hright]
      have hnoLeft : canLend (f.page x.pageId) (0 < f.left.length) (f.left.length - 1) s =
          .ok false s := by
        rw [decide_eq_false (by simp [hleft])]
        rfl
      rw [bind_of_ok hnoLeft, if_neg (by decide), bind_assoc,
        bind_of_ok (canLend_right hpages hright)]
      by_cases hlend : s.minKeys < b.keyCount
      · rw [if_pos (decide_eq_true hlend)]
        have hend := hweak.borrowFromRight hb.2.2 hlend hlow (not_le.mp henough)
        rw [hplug] at hend
        exact hend
      · have hidx : (if 0 < f.left.length then f.left.length - 1 else f.left.length) =
            f.left.length := by simp [hleft]
        rw [if_neg (by simpa using hlend), hidx, merge_bind]
        have hend := hweak.merge (by have := hb.2.1; omega) (by omega) ih
        rw [hplug] at hend
        exact hend
    · obtain ⟨hweak, ha⟩ := h.weak_left hleft
      have hplug : f.plug x =
          ((⟨f.pageId, L, f.right⟩ : BFrame K (BTree K d)).insertRight k x).plug a := by
        rw [← plug_concat, ← hleft]
      have hidx : f.left.length = L.length + 1 := by rw [hleft, length_append]; rfl
      rw [bind_of_ok (canLend_left hpages hleft)]
      by_cases hlend : s.minKeys < a.keyCount
      · rw [if_pos (decide_eq_true hlend), hidx]
        have hend := hweak.borrowFromLeft ha.2.2 hlend hlow (not_le.mp henough)
        rw [← hplug] at hend
        exact hend
      · have hidx' : (if 0 < f.left.length then f.left.length - 1 else f.left.length) =
            L.length := by
          simp [hidx]
        have hend := hweak.merge (by have := ha.2.1; omega) (by omega) ih
        rw [← hplug] at hend
        rw [if_neg (by simpa using hlend), bind_assoc]
        cases hright : f.right with
        | nil =>
          have hnoRight : canLend (f.page x.pageId)
              (f.left.length + 1 < f.left.length + 1 + f.right.length) (f.left.length + 1) s =
              .ok false s := by
            rw [decide_eq_false (by simp [hright])]
            rfl
          rw [hright] at hnoRight
          rw [bind_of_ok hnoRight, if_neg (by decide), hidx', merge_bind]
          exact hend
        | cons entry Rr =>
          obtain ⟨k', b⟩ := entry
          obtain ⟨hweak', hb⟩ := h.weak_right hright
          have hplug' : (⟨f.pageId, f.left, Rr⟩ : BFrame K (BTree K d)).insertRight k' b = f := by
            rw [insertRight, ← hright]
          rw [← hright, bind_of_ok (canLend_right hpages hright)]
          by_cases hlend' : s.minKeys < b.keyCount
          · rw [if_pos (decide_eq_true hlend')]
            have hend' := hweak'.borrowFromRight hb.2.2 hlend' hlow (not_le.mp henough)
            rw [hplug'] at hend'
            exact hend'
          · rw [if_neg (by simpa using hlend'), hidx', merge_bind]
            exact hend

end Rebalance

end BTreePages

end VertexDB
