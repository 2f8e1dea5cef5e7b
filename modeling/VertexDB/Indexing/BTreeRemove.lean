import VertexDB.Indexing.BTreeRebalance

/-!
# Removal from an ordered index

Removal keeps the pages of an ordered index those of a search tree of the right shape. When a leaf
loses its first key, the separator before it follows the new first key; when it has too few keys
left, the tree is rebalanced.
-/

namespace VertexDB

open Exec CellHeap BTree BFrame Mark List

variable {K : Type}

namespace BTreePages

variable {s : BTreePages K} {d n : ℕ}

section Leaf

theorem half_le_of_accepts {capacity p : ℕ} {c : BCtx K 0 n} {es : List (K × List ℕ)}
    (h : c.Accepts capacity (leaf p es)) (hpath : c.path ≠ []) :
    capacity / 2 ≤ es.length := by
  cases c with
  | top => exact absurd rfl hpath
  | frame f up => exact h.2.1

/-- What removal does to the entries of the leaves. -/
inductive Removed (key : K) (rowId : ℕ) (es es' : List (K × List ℕ)) : Prop
  | absent (none : ∀ ids, (key, ids) ∉ es) (after : es' = es)
  | kept (A B : List (K × List ℕ)) (ids : List ℕ) (before : es = A ++ (key, ids) :: B)
      (left : ids.filter (· ≠ rowId) ≠ []) (after : es' = A ++ (key, ids.filter (· ≠ rowId)) :: B)
  | gone (A B : List (K × List ℕ)) (ids : List ℕ) (before : es = A ++ (key, ids) :: B)
      (none : ids.filter (· ≠ rowId) = []) (after : es' = A ++ B)

variable [LinearOrder K] {p : ℕ} {key : K} {es A B : List (K × List ℕ)} {ids : List ℕ}
  {next : Option ℕ} {path : List ℕ}

/-- A separator follows the key after it. -/
theorem pairwise_raise_sep {l r : List (Mark K)} {k k' : K}
    (h : (l ++ Mark.sep k :: Mark.key k' :: r).Pairwise (· < ·)) :
    (l ++ Mark.sep k' :: Mark.key k' :: r).Pairwise (· < ·) := by
  have hrest : (l ++ key k' :: r).Pairwise (· < ·) := h.sublist (by simp)
  obtain ⟨-, hright, hcross⟩ := pairwise_append.mp h
  have hle : k ≤ k' := sep_lt_key.mp ((pairwise_cons.mp hright).1 _ mem_cons_self)
  have hself : sep k' < key k' := sep_lt_key.mpr le_rfl
  refine pairwise_insert hrest (fun m hm => ?_) fun m hm => ?_
  · have hlt : m < sep k := hcross m hm _ mem_cons_self
    rcases hle.eq_or_lt with rfl | hle
    · exact hlt
    · exact hlt.trans (sep_lt_sep.mpr hle)
  · rcases mem_cons.mp hm with rfl | hm
    · exact hself
    · exact hself.trans ((pairwise_cons.mp (pairwise_cons.mp hright).2).1 m hm)

theorem childIndex_locates {f : BFrame K (BTree K d)} {up : BCtx K (d + 1) n}
    (h : (BCtx.frame f up).Locates key) : childIndex key f.keys = f.left.length := by
  rw [BFrame.keys, childIndex_append, length_map]
  · intro k hk
    obtain ⟨entry, hentry, rfl⟩ := mem_map.mp hk
    exact Mark.sep_lt_key.mp (h.before _ (mem_append_right _ (f.sep_mem_before hentry)))
  · intro k hk
    obtain ⟨entry, hentry, rfl⟩ := mem_map.mp hk
    exact Mark.key_lt_sep.mp (h.after _ (mem_append_left _ (f.sep_mem_after hentry)))

/-- The node with another separator before the hole. -/
def setSeparator (f : BFrame K (BTree K d)) (L : List (BTree K d × K)) (a : BTree K d) (k : K) :
    BFrame K (BTree K d) := ⟨f.pageId, L ++ [(a, k)], f.right⟩

/-- Only the separator left of a leaf is written, and only when the leaf has a new first key. -/
theorem followFirstKey_cases {f : BFrame K (BTree K d)} {up : BCtx K (d + 1) n} {hole : ℕ}
    (hnode : node f.pageId s = .ok (f.page hole) s) (hlocates : (BCtx.frame f up).Locates key)
    (index : ℕ) (es : List (K × List ℕ)) :
    followFirstKey f.pageId index key (es.map Prod.fst) s = .ok ⟨⟩ s ∨
      ∃ L a k front ids es', f.left = L ++ [(a, k)] ∧ es = (front, ids) :: es' ∧
        followFirstKey f.pageId index key (es.map Prod.fst) s =
          .ok ⟨⟩ (s.put f.pageId ((setSeparator f L a front).page hole)) := by
  match index, es with
  | 0, [] => exact Or.inl rfl
  | _ + 1, _ => exact Or.inl rfl
  | 0, (front, ids) :: es =>
    have hrun : followFirstKey f.pageId 0 key (((front, ids) :: es).map Prod.fst) s =
        (if 0 < f.left.length then updateSeparator f.pageId f.left.length front else pure ())
          s := by
      rw [map_cons, followFirstKey, bind_of_ok hnode, f.keys_page, childIndex_locates hlocates]
    rw [hrun]
    rcases eq_nil_or_concat' f.left with hleft | ⟨L, ⟨a, k⟩, hleft⟩
    · exact Or.inl (by rw [if_neg (by simp [hleft])]; rfl)
    · refine Or.inr ⟨L, a, k, front, ids, es, hleft, rfl, ?_⟩
      have hlen : f.left.length = L.length + 1 := by
        rw [hleft, length_append]
        rfl
      have hkeys : f.keys.length = f.left.length + f.right.length := by
        rw [BFrame.keys, length_append, length_map, length_map]
      have hpage : ({ f.page hole with keys := f.keys.set L.length front } : BTreeNode K) =
          (setSeparator f L a front).page hole := by
        simp [setSeparator, BFrame.page, innerNode, BFrame.keys, hleft]
      rw [if_pos (by omega), updateSeparator, bind_of_ok hnode, f.keys_page, if_neg (by omega),
        setNode_apply, hlen, Nat.add_sub_cancel, hpage]

/-- The separator left of a leaf follows its new first key; nothing else changes. -/
theorem followFirstKey_spec {f : BFrame K (BTree K 0)} {up : BCtx K 1 n}
    (hpages : s.Pages (((BCtx.frame f up).plug (leaf p es)).cells none))
    (hord : ((BCtx.frame f up).plug (leaf p es)).Ordered)
    (hlocates : (BCtx.frame f up).Locates key) (hfits : (BCtx.frame f up).Fits s.maxKeysPerNode)
    (index : ℕ) :
    ∃ (f' : BFrame K (BTree K 0)) (s' : BTreePages K),
      followFirstKey f.pageId index key (es.map Prod.fst) s = .ok ⟨⟩ s' ∧ SameHead s s' ∧
      s'.Pages (((BCtx.frame f' up).plug (leaf p es)).cells none) ∧ f'.pageId = f.pageId ∧
      ((BCtx.frame f' up).plug (leaf p es)).Ordered ∧
      ((BCtx.frame f' up).plug (leaf p es)).entries =
        ((BCtx.frame f up).plug (leaf p es)).entries ∧
      (BCtx.frame f' up).Fits s.maxKeysPerNode := by
  have hpages' := hpages
  rw [BCtx.plug, up.cells_plug] at hpages'
  rcases followFirstKey_cases hpages'.parent hlocates index es with
    hrun | ⟨L, a, k, front, ids, es', hleft, rfl, hrun⟩
  · exact ⟨f, s, hrun, ⟨rfl, rfl, rfl⟩, hpages, rfl, hord, rfl, hfits⟩
  · obtain ⟨hl, hr, hfloor, hkeys, hup⟩ := hfits
    have hlen : (setSeparator f L a front).keys.length = f.keys.length := by
      simp [setSeparator, BFrame.keys, hleft]
    refine ⟨setSeparator f L a front, _, hrun, sameHead_put, ?_, rfl, ?_, ?_, ?_⟩
    · have hsiblings : ∀ first next,
          (setSeparator f L a front).siblings first next = f.siblings first next := by
        intro first next
        simp [BFrame.siblings, setSeparator, hleft]
      have hfirst : ∀ hole, (setSeparator f L a front).first hole = f.first hole := by
        intro hole
        rw [BFrame.first, BFrame.first, hleft, setSeparator]
        cases L <;> rfl
      rw [BCtx.cells_plug, BCtx.cells, Multiset.cons_add] at hpages ⊢
      rw [hsiblings, hfirst]
      exact hpages.put _
    · rw [BTree.Ordered, BCtx.inorder_plug] at hord ⊢
      have hbefore : (BCtx.frame f up).before =
          up.before ++ (L.flatMap fun entry => entry.1.inorder ++ [Mark.sep entry.2]) ++
            a.inorder ++ [Mark.sep k] := by
        simp [BCtx.before, BFrame.before, hleft]
      have hbefore' : (BCtx.frame (setSeparator f L a front) up).before =
          up.before ++ (L.flatMap fun entry => entry.1.inorder ++ [Mark.sep entry.2]) ++
            a.inorder ++ [Mark.sep front] := by
        simp [BCtx.before, BFrame.before, setSeparator]
      rw [hbefore] at hord
      rw [hbefore']
      simp only [inorder_leaf, map_cons, append_assoc, cons_append] at hord ⊢
      simp only [← append_assoc] at hord ⊢
      exact pairwise_raise_sep hord
    · simp [BCtx.entries_plug, BCtx.entriesBefore, BCtx.entriesAfter, setSeparator, hleft]
    · refine ⟨fun entry hentry => ?_, hr, hlen ▸ hfloor, hlen ▸ hkeys, hup⟩
      rw [hleft] at hl
      rcases mem_append.mp hentry with hentry | hentry
      · exact hl entry (mem_append_left _ hentry)
      · rw [mem_singleton.mp hentry]
        exact hl (a, k) (mem_append_right _ (mem_singleton_self _))

theorem endsIn_plug {c : BCtx K d n} {x : BTree K d} (hpages : s.Pages ((c.plug x).cells none))
    (hroot : s.rootPageId = (c.plug x).pageId) (hord : (c.plug x).Ordered)
    (hfits : c.Fits s.maxKeysPerNode) (haccepts : c.Accepts s.maxKeysPerNode x) :
    EndsIn s (.ok ⟨⟩ s) (c.plug x).entries :=
  ⟨n, c.plug x, s, _, rfl, hord, ⟨hpages, hroot, rfl, rfl, c.rooted_plug hfits haccepts, rfl, rfl⟩⟩

theorem EndsIn.head {s₁ : BTreePages K} {r : EStateM.Result Error (BTreePages K) Unit}
    {entries : List (K × List ℕ)} (h : EndsIn s₁ r entries)
    (hmax : s₁.maxKeysPerNode = s.maxKeysPerNode) (hcount : s₁.keyCount = s.keyCount) :
    EndsIn s r entries := by
  obtain ⟨n, t, s', marks, hrun, hmarks, hout⟩ := h
  exact ⟨n, t, s', marks, hrun, hmarks, hout.head hmax hcount⟩

/-- The end of `removeFromLeaf`: the separator before the leaf and the number of its keys are put
right. -/
theorem afterErase_spec {c : BCtx K 0 n}
    (hpages : s.Pages ((c.plug (leaf p es)).cells none)) (hcap : 2 ≤ s.maxKeysPerNode)
    (hroot : s.rootPageId = (c.plug (leaf p es)).pageId)
    (hord : (c.plug (leaf p es)).Ordered) (hlocates : c.Locates key)
    (hfits : c.Fits s.maxKeysPerNode) (hle : es.length ≤ s.maxKeysPerNode)
    (hlow : c.path ≠ [] → s.maxKeysPerNode / 2 ≤ es.length + 1) (index : ℕ) :
    EndsIn s (afterErase p c.path index key (es.map Prod.fst) s)
      (c.plug (leaf p es)).entries := by
  cases c with
  | top => exact endsIn_plug hpages hroot hord hfits hle
  | frame f up =>
    obtain ⟨f', s', hrun, hhead, hpages', hpage, hord', hentries, hfits'⟩ :=
      followFirstKey_spec hpages hord hlocates hfits index
    have hmax := hhead.maxKeysPerNode
    have hroot' : s'.rootPageId = ((BCtx.frame f' up).plug (leaf p es)).pageId := by
      rw [hhead.rootPageId, hroot, BCtx.pageId_plug, BCtx.pageId_plug, BCtx.rootPage, BCtx.rootPage,
        hpage]
    have hlow' := hlow (cons_ne_nil _ _)
    rw [BCtx.path, afterErase, bind_of_ok hrun, get_bind, length_map, ← hentries, ← hpage]
    refine EndsIn.head ?_ hmax hhead.keyCount
    have hmin : s'.minKeys = s'.maxKeysPerNode / 2 := rfl
    rw [ite_run]
    split_ifs with hfew
    · exact rebalance_spec (.frame f' up) (x := leaf p es)
        ⟨hmax ▸ hcap, hpages', hroot', hord', hmax ▸ hfits', trivial, by rw [hmax]; exact hlow',
          by rw [hmax]; exact hle⟩
    · refine endsIn_plug hpages' hroot' hord' (hmax ▸ hfits') ⟨trivial, ?_, by rw [hmax]; exact hle⟩
      rw [keyCount_leaf]
      omega

theorem removeFromLeaf_absent (hnode : node p s = .ok (leafNode ⟨p, A ++ B⟩ next) s)
    (hidx : lowerBoundKey ((A ++ B).map Prod.fst) key = A.length)
    (hB : ∀ ids B', B ≠ (key, ids) :: B') (rowId : ℕ) :
    removeFromLeaf p path key rowId s = .ok ⟨⟩ s := by
  rw [removeFromLeaf, bind_of_ok hnode]
  simp only [leafNode, hidx]
  rw [if_pos]
  · rfl
  · intro hkey
    cases B with
    | nil => simp at hkey
    | cons entry B =>
      obtain rfl : entry.1 = key := by simpa using hkey
      exact hB entry.2 B rfl

theorem removeFromLeaf_kept {rowId : ℕ}
    (hnode : node p s = .ok (leafNode ⟨p, A ++ (key, ids) :: B⟩ next) s)
    (hidx : lowerBoundKey ((A ++ (key, ids) :: B).map Prod.fst) key = A.length)
    (hleft : ids.filter (· ≠ rowId) ≠ []) :
    removeFromLeaf p path key rowId s =
      .ok ⟨⟩ (s.put p (leafNode ⟨p, A ++ (key, ids.filter (· ≠ rowId)) :: B⟩ next)) := by
  rw [removeFromLeaf, bind_of_ok hnode]
  simp only [leafNode, hidx]
  rw [if_neg (by simp), element_bind (x := ids) (by simp), setNode_bind, if_pos hleft]
  simp

theorem removeFromLeaf_gone {rowId : ℕ}
    (hnode : node p s = .ok (leafNode ⟨p, A ++ (key, ids) :: B⟩ next) s)
    (hidx : lowerBoundKey ((A ++ (key, ids) :: B).map Prod.fst) key = A.length)
    (hleft : ids.filter (· ≠ rowId) = []) :
    removeFromLeaf p path key rowId s =
      afterErase p path A.length key ((A ++ B).map Prod.fst)
        { (s.put p (leafNode ⟨p, A ++ (key, []) :: B⟩ next)).put p
            (leafNode ⟨p, A ++ B⟩ next) with keyCount := s.keyCount - 1 } := by
  rw [removeFromLeaf, bind_of_ok hnode]
  simp only [leafNode, hidx]
  have hkeys : ((A ++ (key, ids) :: B).map Prod.fst).eraseIdx A.length = (A ++ B).map Prod.fst := by
    simp [eraseIdx_append_of_length_le]
  have hids : ((A ++ (key, ids) :: B).map Prod.snd).eraseIdx A.length = (A ++ B).map Prod.snd := by
    simp [eraseIdx_append_of_length_le]
  rw [if_neg (by simp), element_bind (x := ids) (by simp), setNode_bind, hleft, if_neg (by simp),
    hkeys, hids, setNode_bind, modify_bind]
  simp [put]

end Leaf

section Removal

variable [LinearOrder K]

/-- Removal from the leaf that the path of the key ends at. -/
theorem removeFromLeaf_spec {c : BCtx K 0 n} {p : ℕ} {es : List (K × List ℕ)} {key : K}
    (hcap : 2 ≤ s.maxKeysPerNode) (h : s.Represents (c.plug (leaf p es)))
    (hfits : c.Fits s.maxKeysPerNode) (haccepts : c.Accepts s.maxKeysPerNode (leaf p es))
    (hlocates : c.Locates key) (rowId : ℕ) :
    ∃ (n' : ℕ) (t' : BTree K n') (s' : BTreePages K),
      removeFromLeaf p c.path key rowId s = .ok ⟨⟩ s' ∧ s'.Represents t' ∧
      s'.maxKeysPerNode = s.maxKeysPerNode ∧
      Removed key rowId (c.plug (leaf p es)).entries t'.entries := by
  have hsorted := h.ordered
  rw [BTree.Ordered, c.inorder_plug] at hsorted
  have hkeys : (es.map Prod.fst).Pairwise (· < ·) := by
    have h := (pairwise_append.mp (pairwise_append.mp hsorted).1).2.1
    simpa [pairwise_map] using h
  obtain ⟨A, B, rfl, hA, hB, hidx⟩ := exists_lowerBound hkeys key
  have hpages := h.pages
  rw [c.cells_plug, cells_leaf, Multiset.add_comm, Multiset.singleton_add] at hpages
  have hnode := hpages.node (Multiset.mem_cons_self _ _)
  have hle := length_le_of_accepts haccepts
  have hcount := h.count
  rw [c.entries_plug, entries_leaf] at hcount
  by_cases hfound : ∃ ids B', B = (key, ids) :: B'
  · obtain ⟨ids, B', rfl⟩ := hfound
    have hroot : ∀ es', s.rootPageId = (c.plug (leaf p es')).pageId := by
      intro es'
      rw [c.pageId_plug]
      exact h.laid.root.trans (c.pageId_plug _)
    by_cases hleft : ids.filter (· ≠ rowId) = []
    · -- the key goes, and the tree may have to be rebalanced
      have hord : (c.plug (leaf p (A ++ B'))).Ordered := by
        rw [BTree.Ordered, c.inorder_plug]
        exact hsorted.sublist (by simp)
      have hpages' : Pages { (s.put p (leafNode ⟨p, A ++ (key, []) :: B'⟩ c.next)).put p
          (leafNode ⟨p, A ++ B'⟩ c.next) with keyCount := s.keyCount - 1 }
          ((c.plug (leaf p (A ++ B'))).cells none) := by
        rw [c.cells_plug, cells_leaf, Multiset.add_comm, Multiset.singleton_add]
        exact ((hpages.put _).put _).setHead s.rootPageId (s.keyCount - 1)
      obtain ⟨n', t', s', marks, hrun, hmarks, hout⟩ := afterErase_spec hpages' hcap
        (hroot _) hord hlocates hfits
        (by
          show (A ++ B').length ≤ s.maxKeysPerNode
          simp only [length_append, length_cons] at hle ⊢
          omega)
        (fun hpath => by
          have hhalf := half_le_of_accepts haccepts hpath
          show s.maxKeysPerNode / 2 ≤ (A ++ B').length + 1
          simp only [length_append, length_cons] at hhalf ⊢
          omega)
        A.length
      refine ⟨n', t', s', (removeFromLeaf_gone hnode hidx hleft).trans hrun,
        hout.represents hmarks ?_, hout.maxKeysPerNode, ?_⟩
      · show s.keyCount - 1 = _
        rw [hcount, c.entries_plug, entries_leaf]
        simp only [length_append, length_cons]
        omega
      · rw [hout.entries_eq]
        exact .gone (c.entriesBefore ++ A)
          (B' ++ c.entriesAfter) ids (by simp [c.entries_plug]) hleft
          (by simp [c.entries_plug])
    · have hpages' : (s.put p (leafNode ⟨p, A ++ (key, ids.filter (· ≠ rowId)) :: B'⟩
          c.next)).Pages ((c.plug (leaf p (A ++ (key, ids.filter (· ≠ rowId)) :: B'))).cells
            none) := by
        rw [c.cells_plug, cells_leaf, Multiset.add_comm, Multiset.singleton_add]
        exact hpages.put _
      have hord : (c.plug (leaf p (A ++ (key, ids.filter (· ≠ rowId)) :: B'))).Ordered := by
        rw [BTree.Ordered, c.inorder_plug]
        simpa using hsorted
      obtain ⟨n', t', s', marks, hrun, hmarks, hout⟩ := endsIn_plug hpages' (hroot _) hord hfits
        (accepts_leaf haccepts (by simp) (by simpa using hle))
      refine ⟨n', t', s', (removeFromLeaf_kept hnode hidx hleft).trans hrun,
        hout.represents hmarks ?_, hout.maxKeysPerNode, ?_⟩
      · exact hcount.trans (by simp [c.entries_plug])
      · rw [hout.entries_eq]
        exact .kept (c.entriesBefore ++ A)
          (B' ++ c.entriesAfter) ids (by simp [c.entries_plug]) hleft
          (by simp [c.entries_plug])
  · refine ⟨n, _, s, removeFromLeaf_absent hnode hidx
      (fun ids B' hB' => hfound ⟨ids, B', hB'⟩) rowId, h, rfl, .absent (fun ids hmem => ?_) rfl⟩
    obtain ⟨B', hB'⟩ := (mem_entries_iff p hlocates hkeys hA hB ids).mp hmem
    exact hfound ⟨ids, B', hB'⟩

/-- Removal keeps the tree and takes the row id from the list of its key. -/
theorem remove_spec {t : BTree K n} (hcap : 2 ≤ s.maxKeysPerNode) (h : s.Represents t) (key : K)
    (rowId : ℕ) :
    ∃ (n' : ℕ) (t' : BTree K n') (s' : BTreePages K),
      remove key rowId s = .ok ⟨⟩ s' ∧ s'.Represents t' ∧
      s'.maxKeysPerNode = s.maxKeysPerNode ∧ Removed key rowId t.entries t'.entries := by
  obtain ⟨c, p, es, rfl, hfits, haccepts, hlocates, hpath⟩ :=
    h.laid.exists_path h.ids h.ordered h.rooted key
  have hrun : remove key rowId s = removeFromLeaf p c.path key rowId s := by
    rw [remove, get_bind, hpath]
    rfl
  rw [hrun]
  exact removeFromLeaf_spec hcap h hfits haccepts hlocates rowId

end Removal

end BTreePages

end VertexDB
