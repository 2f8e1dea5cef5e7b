import VertexDB.Indexing.BTreeHeap

/-!
# Insertion into an ordered index

Insertion keeps the pages of an ordered index those of a search tree of the right shape. A full leaf
and a full inner node are cut in two, and the new page goes into the parent; the induction runs
along the path from the leaf to the root, that is on the tree with a hole.
-/

namespace VertexDB

open Exec CellHeap BTree Mark List

variable {K : Type}

section Lists

variable {α : Type}

private theorem insertIdx_length_append (l r : List α) (a : α) :
    (l ++ r).insertIdx l.length a = l ++ a :: r := by
  induction l with
  | nil => simp
  | cons b l ih => simpa using ih

private theorem modify_length_append (l r : List α) (a : α) (f : α → α) :
    (l ++ a :: r).modify l.length f = l ++ f a :: r := by
  induction l with
  | nil => simp
  | cons b l ih => simpa using ih

theorem pairwise_insert {R : α → α → Prop} {l r : List α} {a : α} (h : (l ++ r).Pairwise R)
    (hl : ∀ b ∈ l, R b a) (hr : ∀ b ∈ r, R a b) : (l ++ a :: r).Pairwise R := by
  rw [pairwise_append] at h ⊢
  refine ⟨h.1, pairwise_cons.mpr ⟨hr, h.2.1⟩, fun b hb c hc => ?_⟩
  rcases mem_cons.mp hc with rfl | hc
  · exact hl b hb
  · exact h.2.2 b hb c hc

end Lists

namespace BFrame

variable {n : ℕ} (f : BFrame K (BTree K n))

/-- The node with one more child right of the hole. -/
def insertRight (k : K) (y : BTree K n) :
    BFrame K (BTree K n) := ⟨f.pageId, f.left, (k, y) :: f.right⟩

variable (k : K) (y : BTree K n)

theorem length_keys_insertRight : (f.insertRight k y).keys.length = f.keys.length + 1 := by
  simp only [keys, insertRight, map_cons, length_append, length_cons]
  omega

theorem keys_page (hole : ℕ) : (f.page hole).keys = f.keys := rfl

theorem page_insertRight (hole : ℕ) :
    { f.page hole with
      keys := f.keys.insertIdx f.left.length k
      children := (f.page hole).children.insertIdx (f.left.length + 1) y.pageId } =
      (f.insertRight k y).page hole := by
  have hkeys := insertIdx_length_append (f.left.map Prod.snd) (f.right.map Prod.fst) k
  have hchildren := insertIdx_length_append
    (f.left.map (fun entry => entry.1.pageId) ++ [hole]) (f.right.map fun entry => entry.2.pageId)
    y.pageId
  rw [length_map] at hkeys
  rw [length_append, length_map, append_assoc, append_assoc] at hchildren
  simp only [page, innerNode, keys, insertRight, map_cons]
  rw [hkeys]
  exact congrArg (innerNode f.pageId (f.left.map Prod.snd ++ k :: f.right.map Prod.fst)) hchildren

theorem cells_insertRight (x : BTree K n) (after : Option ℕ) :
    ((f.insertRight k y).plug x).cells after =
      (f.pageId, (f.insertRight k y).page x.pageId) ::ₘ
        (f.siblings x.firstLeaf after +
          (x.cells (some y.firstLeaf) + y.cells (f.next after))) := by
  rw [cells_plug]
  simp only [insertRight, siblings, next, map_cons, siblingCells, linkTo]
  congr 1
  abel

theorem inorder_insertRight (x : BTree K n) :
    ((f.insertRight k y).plug x).inorder =
      f.before ++ (x.inorder ++ Mark.sep k :: y.inorder) ++ f.after := by
  rw [inorder_plug]
  simp [insertRight, before, after]

theorem entries_insertRight (x : BTree K n) :
    ((f.insertRight k y).plug x).entries =
      (f.left.flatMap fun entry => entry.1.entries) ++ (x.entries ++ y.entries) ++
        f.right.flatMap fun entry => entry.2.entries := by
  rw [entries_plug]
  simp [insertRight]

theorem sep_mem_before {entry : BTree K n × K} (h : entry ∈ f.left) :
    Mark.sep entry.2 ∈ f.before :=
  mem_flatMap.mpr ⟨entry, h, by simp⟩

theorem sep_mem_after {entry : K × BTree K n} (h : entry ∈ f.right) :
    Mark.sep entry.1 ∈ f.after :=
  mem_flatMap.mpr ⟨entry, h, by simp⟩

end BFrame

section Order

variable [LinearOrder K]

theorem childIndex_append {key : K} {l r : List K} (hl : ∀ k ∈ l, k ≤ key) (hr : ∀ k ∈ r, key < k) :
    BTreePages.childIndex key (l ++ r) = l.length := by
  induction l with
  | nil =>
    cases r with
    | nil => rfl
    | cons k r => exact if_pos (hr k mem_cons_self)
  | cons k l ih =>
    rw [cons_append, BTreePages.childIndex,
      if_neg (not_lt.mpr (hl k mem_cons_self)),
      ih fun k' hk' => hl k' (mem_cons_of_mem _ hk'), length_cons]

/-- A separator between the subtrees around it leads to its own place in the node. -/
theorem BFrame.childIndex_keys {n : ℕ} (f : BFrame K (BTree K n)) {k : K} {l r : List (Mark K)}
    (h : (l ++ f.before ++ Mark.sep k :: (f.after ++ r)).Pairwise (· < ·)) :
    BTreePages.childIndex k f.keys = f.left.length := by
  obtain ⟨-, hright, hleft⟩ := pairwise_append.mp h
  rw [BFrame.keys, childIndex_append, length_map]
  · intro k' hk'
    obtain ⟨entry, hentry, rfl⟩ := mem_map.mp hk'
    exact (sep_lt_sep.mp (hleft _ (mem_append_right _ (f.sep_mem_before hentry)) _
      mem_cons_self)).le
  · intro k' hk'
    obtain ⟨entry, hentry, rfl⟩ := mem_map.mp hk'
    exact sep_lt_sep.mp ((pairwise_cons.mp hright).1 _ (mem_append_left _ (f.sep_mem_after hentry)))

end Order

namespace BTreePages

variable {s s' s₁ : BTreePages K} {d n : ℕ}

/-- The pages are those of a tree of the right shape with these marks and entries; the rest of the
index is as before. -/
structure Outcome (s s' : BTreePages K) (marks : List (Mark K)) (entries : List (K × List ℕ))
    (t : BTree K n) : Prop where
  pages : s'.Pages (t.cells none)
  root : s'.rootPageId = t.pageId
  inorder : t.inorder = marks
  entries_eq : t.entries = entries
  rooted : t.Rooted s.maxKeysPerNode
  maxKeysPerNode : s'.maxKeysPerNode = s.maxKeysPerNode
  keyCount : s'.keyCount = s.keyCount

theorem Outcome.represents [LinearOrder K] {marks : List (Mark K)} {entries : List (K × List ℕ)}
    {t : BTree K n} (h : Outcome s s' marks entries t) (hmarks : marks.Pairwise (· < ·))
    (hcount : s.keyCount = entries.length) : s'.Represents t where
  laid := ⟨h.pages.holds, h.root⟩
  ids := h.pages.ids
  ordered := by
    rw [BTree.Ordered, h.inorder]
    exact hmarks
  rooted := by
    rw [h.maxKeysPerNode]
    exact h.rooted
  count := by rw [h.keyCount, h.entries_eq, hcount]

theorem Outcome.head {marks : List (Mark K)} {entries : List (K × List ℕ)} {t : BTree K n}
    (h : Outcome s₁ s' marks entries t) (hmax : s₁.maxKeysPerNode = s.maxKeysPerNode)
    (hcount : s₁.keyCount = s.keyCount) : Outcome s s' marks entries t where
  pages := h.pages
  root := h.root
  inorder := h.inorder
  entries_eq := h.entries_eq
  rooted := hmax ▸ h.rooted
  maxKeysPerNode := h.maxKeysPerNode.trans hmax
  keyCount := h.keyCount.trans hcount

theorem outcome_plug {c : BCtx K d n} {x : BTree K d}
    (hpages : s.Pages (c.cells x.pageId x.firstLeaf + x.cells c.next))
    (hroot : s.rootPageId = c.rootPage x.pageId) (hfits : c.Fits s.maxKeysPerNode)
    (haccepts : c.Accepts s.maxKeysPerNode x) :
    Outcome s s (c.before ++ x.inorder ++ c.after) (c.entriesBefore ++ x.entries ++ c.entriesAfter)
      (c.plug x) where
  pages := by
    rw [c.cells_plug]
    exact hpages
  root := hroot.trans (c.pageId_plug x).symm
  inorder := c.inorder_plug x
  entries_eq := c.entries_plug x
  rooted := c.rooted_plug hfits haccepts
  maxKeysPerNode := rfl
  keyCount := rfl

section Split

variable {capacity : ℕ} {R : Multiset (ℕ × BTreeNode K)} {next : Option ℕ}

/-- A full inner node is cut in two at its middle key. -/
theorem splitInternal_spec {z : BTree K (d + 1)} (hpages : s.Pages (R + z.cells next))
    (hcap : 2 ≤ s.maxKeysPerNode) (hinner : z.Inner s.maxKeysPerNode)
    (hlen : z.keyCount = s.maxKeysPerNode + 1) :
    ∃ (x y : BTree K (d + 1)) (k : K) (s' : BTreePages K),
      splitInternal z.pageId s = .ok (k, y.pageId) s' ∧
      s'.Pages (R + (x.cells (some y.firstLeaf) + y.cells next)) ∧ x.pageId = z.pageId ∧
      x.firstLeaf = z.firstLeaf ∧ z.inorder = x.inorder ++ Mark.sep k :: y.inorder ∧
      z.entries = x.entries ++ y.entries ∧ x.Occupied s.maxKeysPerNode ∧
      y.Occupied s.maxKeysPerNode ∧ SameHead s s' := by
  obtain ⟨p, keys, cs, rfl⟩ := exists_branch z
  rw [keyCount_branch] at hlen
  obtain ⟨hcs, hocc⟩ := inner_branch.mp hinner
  -- the keys and children left and right of the cut
  obtain ⟨A, k, B, rfl, hA⟩ : ∃ A k B, keys = A ++ k :: B ∧ A.length = keys.length / 2 := by
    have hlt : keys.length / 2 < keys.length := by omega
    exact ⟨keys.take (keys.length / 2), keys[keys.length / 2], keys.drop (keys.length / 2 + 1),
      by rw [← drop_eq_getElem_cons hlt, take_append_drop],
      length_take_of_le hlt.le⟩
  obtain ⟨cs₁, cs₂, rfl, hcs₁⟩ : ∃ cs₁ cs₂, cs = cs₁ ++ cs₂ ∧ cs₁.length = A.length + 1 :=
    ⟨cs.take (A.length + 1), cs.drop (A.length + 1), (take_append_drop _ _).symm,
      length_take_of_le (by simp at hcs; omega)⟩
  have hlens : A.length + 1 + B.length = s.maxKeysPerNode + 1 := by
    simp only [length_append, length_cons] at hlen
    omega
  have hcs₂ : cs₂.length = B.length + 1 := by
    simp only [length_append, length_cons] at hcs
    omega
  obtain ⟨c₂, cs₂', rfl⟩ := exists_cons_of_length_eq_add_one hcs₂
  obtain ⟨c₁, cs₁', rfl⟩ := exists_cons_of_length_eq_add_one hcs₁
  rw [cells_branch, Multiset.add_cons] at hpages
  obtain ⟨r, s₁, halloc, hfresh, hpages₁, hhead⟩ := hpages.allocatePage
  have hlive := hpages₁.live (Multiset.mem_cons_self _ _)
  have hmid : (A ++ k :: B).length / 2 = A.length := hA.symm
  have hkeysLeft : (A ++ k :: B).take A.length = A := take_left
  have hkeysRight : (A ++ k :: B).drop (A.length + 1) = B := by
    rw [append_cons, drop_left' (by simp)]
  have hleft : ((c₁ :: cs₁' ++ c₂ :: cs₂').map pageId).take (A.length + 1) =
      (c₁ :: cs₁').map pageId := by
    rw [map_append, take_left' (by rw [length_map, hcs₁])]
  have hright : ((c₁ :: cs₁' ++ c₂ :: cs₂').map pageId).drop (A.length + 1) =
      (c₂ :: cs₂').map pageId := by
    rw [map_append, drop_left' (by rw [length_map, hcs₁])]
  refine ⟨branch p A (c₁ :: cs₁'), branch r B (c₂ :: cs₂'), k,
    (s₁.put p (innerNode p A ((c₁ :: cs₁').map pageId))).put r
      (innerNode r B ((c₂ :: cs₂').map pageId)), ?_, ?_, rfl, rfl, ?_, ?_,
    ⟨inner_branch.mpr ⟨hcs₁, ?_⟩, ?_⟩, ⟨inner_branch.mpr ⟨hcs₂, ?_⟩, ?_⟩,
    (hhead.put _ _).put _ _⟩
  · rw [pageId_branch, splitInternal, hpages.node_bind (Multiset.mem_cons_self _ _)]
    dsimp only [innerNode]
    rw [hmid, element_bind (x := k) (by simp), bind_of_ok halloc, setNode_bind,
      (hfresh.put hlive _).emplaceNode_bind, hkeysLeft, hkeysRight, hleft, hright]
    rfl
  · have h := (hpages₁.put (innerNode p A ((c₁ :: cs₁').map pageId))).put_fresh
      (hfresh.put hlive _) (innerNode r B ((c₂ :: cs₂').map pageId))
    rw [siblingCells_append] at h
    convert h using 1
    rw [cells_branch, cells_branch, firstLeaf_branch]
    simp only [← Multiset.singleton_add]
    show _ + (_ + siblingCells cells firstLeaf (some c₂.firstLeaf) _ + _) = _
    rw [linkTo]
    abel
  · rw [inorder_branch, weave_cut _ _ _ _ _ _ hcs₁]
    rfl
  · simp only [entries_branch, flatMap_append]
  · exact fun c hc => hocc c (mem_append_left _ hc)
  · simp only [BTree.InRange, keyCount_branch]
    omega
  · exact fun c hc => hocc c (mem_append_right _ hc)
  · simp only [BTree.InRange, keyCount_branch]
    omega

end Split

section InsertSeparator

variable [LinearOrder K]

/-- A new subtree goes in to the right of the hole. -/
theorem insertSeparator_spec (c : BCtx K d n) {x y : BTree K d} {k : K}
    (hcap : 2 ≤ s.maxKeysPerNode)
    (hpages : s.Pages (c.cells x.pageId x.firstLeaf +
      (x.cells (some y.firstLeaf) + y.cells c.next)))
    (hroot : s.rootPageId = c.rootPage x.pageId)
    (hsorted : (c.before ++ (x.inorder ++ Mark.sep k :: y.inorder) ++ c.after).Pairwise (· < ·))
    (hfits : c.Fits s.maxKeysPerNode) (hx : x.Occupied s.maxKeysPerNode)
    (hy : y.Occupied s.maxKeysPerNode) :
    ∃ (n' : ℕ) (t : BTree K n') (s' : BTreePages K),
      insertSeparator c.path k y.pageId s = .ok ⟨⟩ s' ∧
      Outcome s s' (c.before ++ (x.inorder ++ Mark.sep k :: y.inorder) ++ c.after)
        (c.entriesBefore ++ (x.entries ++ y.entries) ++ c.entriesAfter) t := by
  induction c generalizing s k with
  | @top d =>
    -- the root was cut: a new root above the two halves
    obtain ⟨r, s₁, halloc, hfresh, hpages₁, hhead⟩ := hpages.allocatePage
    refine ⟨d + 1, branch r [k] [x, y],
      { s₁.put r (innerNode r [k] [x.pageId, y.pageId]) with rootPageId := r }, ?_, ?_⟩
    · rw [BCtx.path, insertSeparator, bind_of_ok halloc, get_bind, hfresh.emplaceNode_bind,
        modify_apply, hhead.rootPageId, hroot]
      rfl
    · have hnew := hpages₁.put_fresh hfresh (innerNode r [k] [x.pageId, y.pageId])
      refine ⟨?_, rfl, ?_, ?_, ⟨inner_branch.mpr ⟨rfl, ?_⟩, ?_, ?_⟩,
        hhead.maxKeysPerNode, hhead.keyCount⟩
      · have h := hnew.setHead r (s₁.put r (innerNode r [k] [x.pageId, y.pageId])).keyCount
        rw [BCtx.cells, zero_add, BCtx.next] at h
        rw [cells_branch, siblingCells, siblingCells, siblingCells, linkTo, linkTo, add_zero]
        exact h
      · simp [inorder_branch, weave, BCtx.before, BCtx.after]
      · simp [BCtx.entriesBefore, BCtx.entriesAfter]
      · simp [hx, hy]
      · simp
      · rw [keyCount_branch, length_singleton]
        omega
  | frame f up ih =>
    obtain ⟨hleft, hright, hfloor, hle, hup⟩ := hfits
    rw [BCtx.cells, Multiset.cons_add] at hpages
    have hidx : childIndex k f.keys = f.left.length := by
      refine f.childIndex_keys (l := up.before) (r := up.after) (hsorted.sublist ?_)
      rw [BCtx.before, BCtx.after, append_assoc, append_assoc, append_assoc]
      refine (List.Sublist.refl _).append ((List.Sublist.refl _).append ?_)
      rw [append_assoc]
      refine List.Sublist.trans ?_ (sublist_append_right _ _)
      exact (sublist_append_right _ _).cons_cons _
    -- the parent with the new subtree
    have hpage := f.page_insertRight k y x.pageId
    have hpages₁ := hpages.put ((f.insertRight k y).page x.pageId)
    have hpages₂ : (s.put f.pageId ((f.insertRight k y).page x.pageId)).Pages
        (up.cells f.pageId (f.first x.firstLeaf) + ((f.insertRight k y).plug x).cells up.next) := by
      rw [f.cells_insertRight]
      convert hpages₁ using 1
      rw [Multiset.add_cons, BCtx.next]
      congr 1
      abel
    have hfirst : ((f.insertRight k y).plug x).firstLeaf = f.first x.firstLeaf :=
      (f.insertRight k y).firstLeaf_plug x
    have hself : ((f.insertRight k y).plug x).pageId = f.pageId := rfl
    have hinner : ((f.insertRight k y).plug x).Inner s.maxKeysPerNode := by
      refine (f.insertRight k y).inner_plug hleft hx fun entry hentry => ?_
      rcases mem_cons.mp hentry with rfl | hentry
      · exact hy
      · exact hright entry hentry
    have hmarks : up.before ++ ((f.insertRight k y).plug x).inorder ++ up.after =
        (BCtx.frame f up).before ++ (x.inorder ++ sep k :: y.inorder) ++
          (BCtx.frame f up).after := by
      rw [f.inorder_insertRight, BCtx.before, BCtx.after]
      simp only [append_assoc]
    have hentries : up.entriesBefore ++ ((f.insertRight k y).plug x).entries ++ up.entriesAfter =
        (BCtx.frame f up).entriesBefore ++ (x.entries ++ y.entries) ++
          (BCtx.frame f up).entriesAfter := by
      rw [f.entries_insertRight, BCtx.entriesBefore, BCtx.entriesAfter]
      simp only [append_assoc]
    have hrun : insertSeparator (BCtx.frame f up).path k y.pageId s =
        (if s.maxKeysPerNode < f.keys.length + 1 then
          splitInternal f.pageId >>= fun r => insertSeparator up.path r.1 r.2 else pure ⟨⟩)
          (s.put f.pageId ((f.insertRight k y).page x.pageId)) := by
      rw [BCtx.path, insertSeparator, hpages.node_bind (Multiset.mem_cons_self _ _)]
      show (setNode f.pageId
        { f.page x.pageId with
          keys := f.keys.insertIdx (childIndex k f.keys) k
          children := (f.page x.pageId).children.insertIdx (childIndex k f.keys + 1) y.pageId } >>=
        _) s = _
      have hlen : (f.keys.insertIdx f.left.length k).length = f.keys.length + 1 := by
        rw [← f.length_keys_insertRight k y]
        exact congrArg (fun b => b.keys.length) hpage
      rw [hidx, hpage, setNode_bind, get_bind, f.keys_page, hidx, hlen]
      rfl
    rw [hrun, ← hmarks, ← hentries]
    have hcount := f.length_keys_insertRight k y
    split_ifs with hfull
    · obtain ⟨x', y', k', s₂, hsplit, hpages₃, hpage', hfirst', hinorder, hentries', hx',
          hy', hhead⟩ :=
        splitInternal_spec hpages₂ hcap hinner
          (by rw [BFrame.keyCount_plug, maxKeysPerNode_put]; omega)
      rw [hself] at hsplit hpage'
      rw [bind_of_ok hsplit, hinorder, hentries']
      have hmax := hhead.maxKeysPerNode
      rw [← hmarks, hinorder] at hsorted
      rw [← hfirst, ← hfirst'] at hpages₃
      obtain ⟨n', t, s', hok, hout⟩ := ih (s := s₂) (x := x') (y := y') (k := k')
        (by rw [hmax]; exact hcap) (by rw [hpage']; exact hpages₃)
        (by rw [hhead.rootPageId, hpage']; exact hroot) hsorted (by rw [hmax]; exact hup)
        (by rw [hmax]; exact hx') (by rw [hmax]; exact hy')
      exact ⟨n', t, s', hok, hout.head hmax hhead.keyCount⟩
    · have haccepts : up.Accepts s.maxKeysPerNode ((f.insertRight k y).plug x) :=
        up.accepts_branch hinner (by rw [BFrame.keyCount_plug]; omega)
          (by rw [BFrame.keyCount_plug]; omega)
      rw [← hfirst] at hpages₂
      exact ⟨_, _, _, rfl, (outcome_plug hpages₂ hroot hup haccepts).head rfl rfl⟩

end InsertSeparator

section Leaf

variable {es : List (K × List ℕ)}

theorem accepts_leaf {capacity : ℕ} {c : BCtx K 0 n} {p : ℕ} {es' : List (K × List ℕ)}
    (h : c.Accepts capacity (leaf p es)) (hlen : es.length ≤ es'.length)
    (hle : es'.length ≤ capacity) : c.Accepts capacity (leaf p es') := by
  cases c with
  | top => exact hle
  | frame f up => exact ⟨trivial, h.2.1.trans hlen, hle⟩

theorem length_le_of_accepts {capacity : ℕ} {c : BCtx K 0 n} {p : ℕ}
    (h : c.Accepts capacity (leaf p es)) : es.length ≤ capacity := by
  cases c with
  | top => exact h
  | frame f up => exact h.2.2

variable [LinearOrder K]

/-- A separator comes in before a key that is not the first one of its leaf. -/
theorem pairwise_insert_sep {l r : List (Mark K)} {A : List (K × List ℕ)} {k : K} (hA : A ≠ [])
    (h : ((l ++ A.map fun entry => Mark.key entry.1) ++ Mark.key k :: r).Pairwise (· < ·)) :
    ((l ++ A.map fun entry => Mark.key entry.1) ++ Mark.sep k :: Mark.key k :: r).Pairwise
      (· < ·) := by
  obtain ⟨hleft, hright, hcross⟩ := pairwise_append.mp h
  have hbelow : ∀ entry ∈ A, key entry.1 < sep k := fun entry hentry =>
    key_lt_sep.mpr (key_lt_key.mp
      (hcross _ (mem_append_right _ (mem_map_of_mem hentry)) _ mem_cons_self))
  have hself : sep k < key k := sep_lt_key.mpr le_rfl
  refine pairwise_insert h (fun m hm => ?_) fun m hm => ?_
  · rcases mem_append.mp hm with hm | hm
    · obtain ⟨entry, hentry⟩ := exists_mem_of_ne_nil A hA
      exact ((pairwise_append.mp hleft).2.2 m hm _ (mem_map_of_mem hentry)).trans
        (hbelow entry hentry)
    · obtain ⟨entry, hentry, rfl⟩ := mem_map.mp hm
      exact hbelow entry hentry
  · rcases mem_cons.mp hm with rfl | hm
    · exact hself
    · exact hself.trans ((pairwise_cons.mp hright).1 m hm)

/-- A full leaf is cut in two, and the first key of the new leaf goes up as a separator. -/
theorem splitLeaf_spec {c : BCtx K 0 n} {p : ℕ}
    (hpages : s.Pages (c.cells p p + (leaf p es).cells c.next))
    (hcap : 2 ≤ s.maxKeysPerNode) (hroot : s.rootPageId = c.rootPage p)
    (hsorted : (c.before ++ (leaf p es).inorder ++ c.after).Pairwise (· < ·))
    (hfits : c.Fits s.maxKeysPerNode) (hlen : es.length = s.maxKeysPerNode + 1) :
    ∃ (n' : ℕ) (t : BTree K n') (s' : BTreePages K) (marks : List (Mark K)),
      splitLeaf p c.path s = .ok ⟨⟩ s' ∧ marks.Pairwise (· < ·) ∧
      Outcome s s' marks (c.entriesBefore ++ es ++ c.entriesAfter) t := by
  obtain ⟨A, k, ids, B, rfl, hA⟩ : ∃ A k ids B, es = A ++ (k, ids) :: B ∧
      A.length = es.length / 2 := by
    have hlt : es.length / 2 < es.length := by omega
    exact ⟨es.take (es.length / 2), es[es.length / 2].1, es[es.length / 2].2,
      es.drop (es.length / 2 + 1), by rw [← drop_eq_getElem_cons hlt, take_append_drop],
      length_take_of_le hlt.le⟩
  have hlens : A.length + 1 + B.length = s.maxKeysPerNode + 1 := by
    simp only [length_append, length_cons] at hlen
    omega
  rw [cells_leaf, Multiset.add_comm, Multiset.singleton_add] at hpages
  obtain ⟨r, s₁, halloc, hfresh, hpages₁, hhead⟩ := hpages.allocatePage
  have hlive := hpages₁.live (Multiset.mem_cons_self _ _)
  have hpages₂ := (hpages₁.put (leafNode ⟨p, A⟩ (some r))).put_fresh
    (hfresh.put hlive _) (leafNode ⟨r, (k, ids) :: B⟩ c.next)
  have hsorted' : (c.before ++ ((leaf p A).inorder ++
      sep k :: (leaf r ((k, ids) :: B)).inorder) ++ c.after).Pairwise (· < ·) := by
    simp only [inorder_leaf, map_append, map_cons, append_assoc, cons_append] at hsorted ⊢
    rw [← append_assoc] at hsorted ⊢
    exact pairwise_insert_sep (ne_nil_of_length_pos (by omega)) hsorted
  have hmax := hhead.maxKeysPerNode
  obtain ⟨n', t, s', hok, hout⟩ := insertSeparator_spec c (x := leaf p A)
    (y := leaf r ((k, ids) :: B)) (k := k)
    (s := (s₁.put p (leafNode ⟨p, A⟩ (some r))).put r (leafNode ⟨r, (k, ids) :: B⟩ c.next))
    (by simpa [hmax] using hcap)
    (by
      convert hpages₂ using 1
      simp only [cells_leaf, pageId_leaf, firstLeaf_leaf, ← Multiset.singleton_add]
      abel)
    (hhead.rootPageId.trans hroot) hsorted' (by simpa [hmax] using hfits)
    ⟨trivial, by
      simp only [BTree.InRange, keyCount_leaf, maxKeysPerNode_put, hmax]
      omega⟩
    ⟨trivial, by
      simp only [BTree.InRange, keyCount_leaf, maxKeysPerNode_put, hmax, length_cons]
      omega⟩
  refine ⟨n', t, s', _, ?_, hsorted', ?_⟩
  · have hmid : ((A ++ (k, ids) :: B).map Prod.fst).length / 2 = A.length := by
      rw [length_map, hA]
    rw [splitLeaf, hpages.node_bind (Multiset.mem_cons_self _ _)]
    dsimp only [leafNode]
    rw [hmid, bind_of_ok halloc, setNode_bind]
    simp only [← map_take, ← map_drop, take_left, drop_left]
    rw [element_bind (x := k) rfl, (hfresh.put hlive _).emplaceNode_bind]
    exact hok
  · exact hout.head hmax hhead.keyCount

/-- What insertion does to the entries of the leaves. -/
inductive Inserted (key : K) (rowId : ℕ) (es es' : List (K × List ℕ)) : Prop
  | old (A B : List (K × List ℕ)) (ids : List ℕ) (before : es = A ++ (key, ids) :: B)
      (after : es' = A ++ (key, ids ++ [rowId]) :: B)
  | new (A B : List (K × List ℕ)) (before : es = A ++ B) (below : ∀ entry ∈ A, entry.1 < key)
      (above : ∀ entry ∈ B, key < entry.1) (after : es' = A ++ (key, [rowId]) :: B)

section Step

variable {c : BCtx K 0 n} {p : ℕ} {path : List ℕ} {next : Option ℕ}
  {A B : List (K × List ℕ)} {key : K}
  {ids : List ℕ}

theorem insertIntoLeaf_old
    (hnode : node p s = .ok (leafNode ⟨p, A ++ (key, ids) :: B⟩ next) s)
    (hidx : lowerBoundKey ((A ++ (key, ids) :: B).map Prod.fst) key = A.length) (rowId : ℕ) :
    insertIntoLeaf p path key rowId s =
      .ok ⟨⟩ (s.put p (leafNode ⟨p, A ++ (key, ids ++ [rowId]) :: B⟩ next)) := by
  rw [insertIntoLeaf, bind_of_ok hnode]
  simp only [leafNode, hidx]
  have hids := modify_length_append (A.map Prod.snd) (B.map Prod.snd) ids (· ++ [rowId])
  rw [length_map] at hids
  rw [if_pos (by simp), setNode_apply]
  simp [hids]

theorem insertIntoLeaf_new (hnode : node p s = .ok (leafNode ⟨p, A ++ B⟩ next) s)
    (hidx : lowerBoundKey ((A ++ B).map Prod.fst) key = A.length)
    (hB : ∀ entry ∈ B, entry.1 ≠ key) (rowId : ℕ) :
    insertIntoLeaf p path key rowId s =
      (if s.maxKeysPerNode < (A ++ (key, [rowId]) :: B).length then splitLeaf p path else pure ⟨⟩)
        { s.put p (leafNode ⟨p, A ++ (key, [rowId]) :: B⟩ next) with
          keyCount := s.keyCount + 1 } := by
  have hnot : ((A ++ B).map Prod.fst)[A.length]? ≠ some key := by
    intro hkey
    cases B with
    | nil => simp at hkey
    | cons entry B => exact hB entry mem_cons_self (by simpa using hkey)
  have hkeys : ((A ++ B).map Prod.fst).insertIdx A.length key =
      (A ++ (key, [rowId]) :: B).map Prod.fst := by
    simpa using insertIdx_length_append (A.map Prod.fst) (B.map Prod.fst) key
  have hids : ((A ++ B).map Prod.snd).insertIdx A.length [rowId] =
      (A ++ (key, [rowId]) :: B).map Prod.snd := by
    simpa using insertIdx_length_append (A.map Prod.snd) (B.map Prod.snd) [rowId]
  rw [insertIntoLeaf, bind_of_ok hnode]
  simp only [leafNode, hidx]
  rw [if_neg hnot, setNode_bind, modify_bind, get_bind, hkeys, hids, length_map]
  rfl

end Step

/-- Insertion into the leaf that the path of the key ends at. -/
theorem insertIntoLeaf_spec {c : BCtx K 0 n} {p : ℕ} {key : K}
    (hcap : 2 ≤ s.maxKeysPerNode) (h : s.Represents (c.plug (leaf p es)))
    (hfits : c.Fits s.maxKeysPerNode) (haccepts : c.Accepts s.maxKeysPerNode (leaf p es))
    (hlocates : c.Locates key) (rowId : ℕ) :
    ∃ (n' : ℕ) (t' : BTree K n') (s' : BTreePages K),
      insertIntoLeaf p c.path key rowId s = .ok ⟨⟩ s' ∧ s'.Represents t' ∧
      s'.maxKeysPerNode = s.maxKeysPerNode ∧
      Inserted key rowId (c.plug (leaf p es)).entries t'.entries := by
  have hroot : s.rootPageId = c.rootPage p := h.laid.root.trans (c.pageId_plug _)
  have hsorted := h.ordered
  rw [BTree.Ordered, c.inorder_plug] at hsorted
  have hkeys : (es.map Prod.fst).Pairwise (· < ·) := by
    have h := (pairwise_append.mp (pairwise_append.mp hsorted).1).2.1
    simpa [pairwise_map] using h
  obtain ⟨A, B, rfl, hA, hB, hidx⟩ := exists_lowerBound hkeys key
  have hpages := h.pages
  rw [c.cells_plug, cells_leaf, Multiset.add_comm, Multiset.singleton_add] at hpages
  have hnode := hpages.node (Multiset.mem_cons_self _ _)
  have hput : ∀ es', (s.put p (leafNode ⟨p, es'⟩ c.next)).Pages
      (c.cells p p + (leaf p es').cells c.next) := by
    intro es'
    rw [cells_leaf, Multiset.add_comm, Multiset.singleton_add]
    exact hpages.put _
  have hcount := h.count
  rw [c.entries_plug, entries_leaf] at hcount ⊢
  by_cases hfound : ∃ ids B', B = (key, ids) :: B'
  · obtain ⟨ids, B', rfl⟩ := hfound
    have hout := outcome_plug (hput (A ++ (key, ids ++ [rowId]) :: B')) hroot hfits
      (accepts_leaf haccepts (by simp) (by simpa using length_le_of_accepts haccepts))
    refine ⟨n, _, _, insertIntoLeaf_old hnode hidx rowId, hout.represents ?_ ?_, rfl, ?_⟩
    · simpa using hsorted
    · exact hcount.trans (by simp)
    · rw [hout.entries_eq]
      exact .old (c.entriesBefore ++ A) (B' ++ c.entriesAfter) ids (by simp) (by simp)
  · have hne : ∀ entry ∈ B, key < entry.1 := by
      intro entry hentry
      refine lt_of_le_of_ne (hB entry hentry) fun heq => ?_
      obtain ⟨first, B', rfl⟩ := exists_cons_of_ne_nil (ne_nil_of_mem hentry)
      rcases mem_cons.mp hentry with rfl | hrest
      · exact hfound ⟨entry.2, B', by rw [heq]⟩
      · rw [map_append, pairwise_append] at hkeys
        have hlt := (pairwise_cons.mp hkeys.2.1).1 entry.1 (mem_map_of_mem hrest)
        exact absurd (heq ▸ hlt) (not_lt.mpr (hB first mem_cons_self))
    -- the marks with the new key
    have hsorted' : (c.before ++ (leaf p (A ++ (key, [rowId]) :: B)).inorder ++
        c.after).Pairwise (· < ·) := by
      simp only [inorder_leaf, map_append, map_cons, append_assoc, cons_append] at hsorted ⊢
      rw [← append_assoc] at hsorted ⊢
      refine pairwise_insert hsorted (fun m hm => ?_) fun m hm => ?_
      · rcases mem_append.mp hm with hm | hm
        · exact hlocates.before m hm
        · obtain ⟨entry, hentry, rfl⟩ := mem_map.mp hm
          exact key_lt_key.mpr (hA entry hentry)
      · rcases mem_append.mp hm with hm | hm
        · obtain ⟨entry, hentry, rfl⟩ := mem_map.mp hm
          exact key_lt_key.mpr (hne entry hentry)
        · exact hlocates.after m hm
    have hpages₁ := (hput (A ++ (key, [rowId]) :: B)).setHead s.rootPageId (s.keyCount + 1)
    have hins : Inserted key rowId (c.entriesBefore ++ (A ++ B) ++ c.entriesAfter)
        (c.entriesBefore ++ (A ++ (key, [rowId]) :: B) ++ c.entriesAfter) := by
      refine .new (c.entriesBefore ++ A) (B ++ c.entriesAfter) (by simp) ?_ ?_ (by simp)
      · exact fun entry hentry => (mem_append.mp hentry).elim (lt_of_mem_before hlocates) (hA entry)
      · exact fun entry hentry => (mem_append.mp hentry).elim (hne entry) (lt_of_mem_after hlocates)
    have hcount' : s.keyCount + 1 =
        (c.entriesBefore ++ (A ++ (key, [rowId]) :: B) ++ c.entriesAfter).length := by
      simp only [length_append, length_cons] at hcount ⊢
      omega
    have hle := length_le_of_accepts haccepts
    rw [insertIntoLeaf_new hnode hidx (fun entry hentry => (hne entry hentry).ne') rowId]
    split_ifs with hfull
    · obtain ⟨n', t, s', marks, hok, hmarks, hout⟩ :=
        splitLeaf_spec hpages₁ hcap hroot hsorted' hfits (by
          simp only [length_append, length_cons, maxKeysPerNode_put] at hfull hle ⊢
          omega)
      refine ⟨n', t, s', hok, hout.represents hmarks hcount', hout.maxKeysPerNode, ?_⟩
      rw [hout.entries_eq]
      exact hins
    · have hout := outcome_plug hpages₁ hroot hfits
        (accepts_leaf haccepts (by simp) (not_lt.mp hfull))
      refine ⟨n, _, _, rfl, hout.represents hsorted' hcount', rfl, ?_⟩
      rw [hout.entries_eq]
      exact hins

/-- Insertion keeps the tree and adds the row id to the list of its key. -/
theorem insert_spec {t : BTree K n} (hcap : 2 ≤ s.maxKeysPerNode) (h : s.Represents t) (key : K)
    (rowId : ℕ) :
    ∃ (n' : ℕ) (t' : BTree K n') (s' : BTreePages K),
      insert key rowId s = .ok ⟨⟩ s' ∧ s'.Represents t' ∧
      s'.maxKeysPerNode = s.maxKeysPerNode ∧ Inserted key rowId t.entries t'.entries := by
  obtain ⟨c, p, es, rfl, hfits, haccepts, hlocates, hpath⟩ :=
    h.laid.exists_path h.ids h.ordered h.rooted key
  have hrun : insert key rowId s = insertIntoLeaf p c.path key rowId s := by
    rw [insert, get_bind, hpath]
    rfl
  rw [hrun]
  exact insertIntoLeaf_spec hcap h hfits haccepts hlocates rowId

end Leaf

end BTreePages

end VertexDB
