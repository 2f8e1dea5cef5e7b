import VertexDB.Indexing.BTreeInsert

/-!
# Neighbours in an ordered index

A node of an ordered index with too few keys takes one over from a neighbour or is merged with it.
Whether the neighbour is on the left or on the right, the parent is seen with a pair of neighbouring
children: what it is around the pair, `g`, with the left one `a` in its hole, and the separator `k`
and the right one `b` inserted to the right of it.
-/

namespace VertexDB

open Exec CellHeap BTree List

variable {K : Type}

namespace BFrame

variable {n : ℕ} (g : BFrame K (BTree K n)) (k : K) (a b : ℕ)

/-- The page of the node with a pair of children, of the given pages, in its hole. -/
def pairPage : BTreeNode K :=
  innerNode g.pageId (g.left.map Prod.snd ++ k :: g.right.map Prod.fst)
    (g.left.map (fun entry => entry.1.pageId) ++ a :: b :: g.right.map fun entry => entry.2.pageId)

theorem children_pairPage_left : (g.pairPage k a b).children[g.left.length]? = some a := by
  simp [pairPage, innerNode]

theorem children_pairPage_right : (g.pairPage k a b).children[g.left.length + 1]? = some b := by
  simp [pairPage, innerNode]

theorem keys_pairPage : (g.pairPage k a b).keys[g.left.length]? = some k := by
  simp [pairPage, innerNode]

theorem pairPage_setKey (k' : K) :
    { g.pairPage k a b with keys := (g.pairPage k a b).keys.set g.left.length k' } =
      g.pairPage k' a b := by
  simp [pairPage, innerNode]

theorem pairPage_eraseRight :
    { g.pairPage k a b with
      keys := (g.pairPage k a b).keys.eraseIdx g.left.length
      children := (g.pairPage k a b).children.eraseIdx (g.left.length + 1) } = g.page a := by
  simp [pairPage, page, innerNode, keys, eraseIdx_append_of_length_le]

end BFrame

namespace BTreePages

variable {s s' : BTreePages K} {d n : ℕ} {R : Multiset (ℕ × BTreeNode K)} {next : Option ℕ}

section Cells

variable {rest : Multiset (ℕ × BTreeNode K)} {c c' : ℕ × BTreeNode K} {p : ℕ} {b : BTreeNode K}

theorem Pages.put_second (h : s.Pages (c ::ₘ (p, b) ::ₘ rest)) (b' : BTreeNode K) :
    (s.put p b').Pages (c ::ₘ (p, b') ::ₘ rest) := by
  rw [Multiset.cons_swap] at h ⊢
  exact h.put b'

theorem Pages.put_third (h : s.Pages (c ::ₘ c' ::ₘ (p, b) ::ₘ rest)) (b' : BTreeNode K) :
    (s.put p b').Pages (c ::ₘ c' ::ₘ (p, b') ::ₘ rest) := by
  rw [Multiset.cons_swap c', Multiset.cons_swap c] at h ⊢
  exact h.put b'

theorem Pages.discard_third (h : s.Pages (c ::ₘ c' ::ₘ (p, b) ::ₘ rest)) :
    (s.discard p).Pages (c ::ₘ c' ::ₘ rest) := by
  rw [Multiset.cons_swap c', Multiset.cons_swap c] at h
  exact h.discard

theorem Pages.node_second (h : s.Pages (c ::ₘ (p, b) ::ₘ rest)) : BTreePages.node p s = .ok b s :=
  h.node (Multiset.mem_cons_of_mem (Multiset.mem_cons_self _ _))

theorem Pages.node_third (h : s.Pages (c ::ₘ c' ::ₘ (p, b) ::ₘ rest)) :
    BTreePages.node p s = .ok b s :=
  h.node (Multiset.mem_cons_of_mem (Multiset.mem_cons_of_mem (Multiset.mem_cons_self _ _)))

end Cells

section Leaves

variable (g : BFrame K (BTree K 0)) (k : K) (ap bp : ℕ)

theorem cells_leaves (es xs : List (K × List ℕ)) (R : Multiset (ℕ × BTreeNode K))
    (next : Option ℕ) :
    R + ((g.insertRight k (leaf bp xs)).plug (leaf ap es)).cells next =
      (g.pageId, g.pairPage k ap bp) ::ₘ (ap, leafNode ⟨ap, es⟩ (some bp)) ::ₘ
        (bp, leafNode ⟨bp, xs⟩ (g.next next)) ::ₘ (R + g.siblings ap next) := by
  have hpage : (g.insertRight k (leaf bp xs)).page ap = g.pairPage k ap bp := rfl
  rw [g.cells_insertRight, cells_leaf, cells_leaf]
  simp only [pageId_leaf, firstLeaf_leaf, ← Multiset.singleton_add, hpage]
  abel

variable {g k ap bp} {e : K × List ℕ} {es xs : List (K × List ℕ)}

theorem borrowFromLeftLeaf_run
    (h : s.Pages (R +
      ((g.insertRight k (leaf bp xs)).plug (leaf ap (es ++ [e]))).cells next)) :
    ∃ s', borrowFromLeftLeaf g.pageId (g.left.length + 1) s = .ok ⟨⟩ s' ∧ SameHead s s' ∧
      s'.Pages (R + ((g.insertRight e.1 (leaf bp (e :: xs))).plug (leaf ap es)).cells
        next) := by
  rw [cells_leaves] at h
  have hpages := ((h.put_third (leafNode ⟨bp, e :: xs⟩ (g.next next))).put_second
    (leafNode ⟨ap, es⟩ (some bp))).put (g.pairPage e.1 ap bp)
  rw [← cells_leaves] at hpages
  refine ⟨_, ?_, ((sameHead_put.put _ _).put _ _), hpages⟩
  rw [borrowFromLeftLeaf, h.node_bind (Multiset.mem_cons_self _ _), Nat.add_sub_cancel,
    element_bind (g.children_pairPage_left k ap bp),
    element_bind (g.children_pairPage_right k ap bp), bind_of_ok h.node_second,
    bind_of_ok h.node_third, element_bind (x := e.1) (by simp [leafNode]),
    element_bind (x := e.2) (by simp [leafNode]), setNode_bind, setNode_bind, setNode_apply,
    g.pairPage_setKey]
  simp [leafNode]

theorem borrowFromRightLeaf_run {e' : K × List ℕ}
    (h : s.Pages (R +
      ((g.insertRight k (leaf bp (e :: e' :: xs))).plug (leaf ap es)).cells next)) :
    ∃ s', borrowFromRightLeaf g.pageId g.left.length s = .ok ⟨⟩ s' ∧ SameHead s s' ∧
      s'.Pages (R + ((g.insertRight e'.1 (leaf bp (e' :: xs))).plug
        (leaf ap (es ++ [e]))).cells next) := by
  rw [cells_leaves] at h
  have hpages := ((h.put_second (leafNode ⟨ap, es ++ [e]⟩ (some bp))).put_third
    (leafNode ⟨bp, e' :: xs⟩ (g.next next))).put (g.pairPage e'.1 ap bp)
  rw [← cells_leaves] at hpages
  refine ⟨_, ?_, ((sameHead_put.put _ _).put _ _), hpages⟩
  rw [borrowFromRightLeaf, h.node_bind (Multiset.mem_cons_self _ _),
    element_bind (g.children_pairPage_left k ap bp),
    element_bind (g.children_pairPage_right k ap bp), bind_of_ok h.node_second,
    bind_of_ok h.node_third, element_bind (x := e.1) rfl, element_bind (x := e.2) rfl, setNode_bind,
    setNode_bind, element_bind (x := e'.1) rfl, setNode_apply, g.pairPage_setKey]
  simp [leafNode]

theorem mergeLeaves_run
    (h : s.Pages (R + ((g.insertRight k (leaf bp xs)).plug (leaf ap es)).cells next)) :
    ∃ s', mergeLeaves g.pageId g.left.length s = .ok ⟨⟩ s' ∧ SameHead s s' ∧
      s'.Pages (R + (g.plug (leaf ap (es ++ xs))).cells next) := by
  rw [cells_leaves] at h
  have hpages := ((h.put_second (leafNode ⟨ap, es ++ xs⟩ (g.next next))).put
    (g.page ap)).discard_third
  have hcells : R + (g.plug (leaf ap (es ++ xs))).cells next =
      (g.pageId, g.page ap) ::ₘ (ap, leafNode ⟨ap, es ++ xs⟩ (g.next next)) ::ₘ
        (R + g.siblings ap next) := by
    rw [g.cells_plug, cells_leaf]
    simp only [pageId_leaf, firstLeaf_leaf, ← Multiset.singleton_add]
    abel
  rw [← hcells] at hpages
  refine ⟨_, ?_, ((sameHead_put.put _ _).discard _), hpages⟩
  rw [mergeLeaves, h.node_bind (Multiset.mem_cons_self _ _),
    element_bind (g.children_pairPage_left k ap bp),
    element_bind (g.children_pairPage_right k ap bp), bind_of_ok h.node_second,
    bind_of_ok h.node_third, setNode_bind, setNode_bind, freePage_apply, g.pairPage_eraseRight]
  simp [leafNode]

end Leaves

section Branches

variable (g : BFrame K (BTree K (d + 1))) (k : K) (ap bp : ℕ)

theorem cells_branches (ak bk : List K) (ac bc : List (BTree K d)) (hbc : bc ≠ [])
    (R : Multiset (ℕ × BTreeNode K)) (next : Option ℕ) :
    R + ((g.insertRight k (branch bp bk bc)).plug (branch ap ak ac)).cells next =
      (g.pageId, g.pairPage k ap bp) ::ₘ (ap, innerNode ap ak (ac.map pageId)) ::ₘ
        (bp, innerNode bp bk (bc.map pageId)) ::ₘ
          (R + g.siblings ((ac.head?.map firstLeaf).getD 0) next +
            siblingCells cells firstLeaf (g.next next) (ac ++ bc)) := by
  have hpage : (g.insertRight k (branch bp bk bc)).page ap = g.pairPage k ap bp := rfl
  have hlink : linkTo firstLeaf (g.next next) bc =
      some (branch bp bk bc).firstLeaf := by
    obtain ⟨c, bc, rfl⟩ := exists_cons_of_ne_nil hbc
    rfl
  rw [g.cells_insertRight, cells_branch, cells_branch, siblingCells_append, hlink]
  simp only [pageId_branch, firstLeaf_branch, ← Multiset.singleton_add, hpage]
  abel

variable {g k ap bp} {k' : K} {ak bk : List K} {c : BTree K d} {ac bc : List (BTree K d)}

theorem borrowFromLeftInternal_run (hac : ac ≠ []) (hbc : bc ≠ [])
    (h : s.Pages (R + ((g.insertRight k (branch bp bk bc)).plug
      (branch ap (ak ++ [k']) (ac ++ [c]))).cells next)) :
    ∃ s', borrowFromLeftInternal g.pageId (g.left.length + 1) s = .ok ⟨⟩ s' ∧ SameHead s s' ∧
      s'.Pages (R + ((g.insertRight k' (branch bp (k :: bk) (c :: bc))).plug
        (branch ap ak ac)).cells next) := by
  rw [cells_branches _ _ _ _ _ _ _ _ hbc] at h
  have hpages := ((h.put_third
    (innerNode bp (k :: bk) ((c :: bc).map pageId))).put
      (g.pairPage k' ap bp)).put_second (innerNode ap ak (ac.map pageId))
  rw [head?_append_of_ne_nil _ hac, append_assoc, singleton_append,
    ← cells_branches _ _ _ _ _ _ _ _ (cons_ne_nil c bc)] at hpages
  refine ⟨_, ?_, ((sameHead_put.put _ _).put _ _), hpages⟩
  rw [borrowFromLeftInternal, h.node_bind (Multiset.mem_cons_self _ _), Nat.add_sub_cancel,
    element_bind (g.children_pairPage_left k ap bp),
    element_bind (g.children_pairPage_right k ap bp), bind_of_ok h.node_second,
    bind_of_ok h.node_third, element_bind (g.keys_pairPage k ap bp),
    element_bind (x := c.pageId) (by simp [innerNode]),
    element_bind (x := k') (by simp [innerNode]), setNode_bind, setNode_bind, setNode_apply,
    g.pairPage_setKey]
  simp [innerNode]

theorem borrowFromRightInternal_run (hac : ac ≠ []) (hbc : bc ≠ [])
    (h : s.Pages (R + ((g.insertRight k (branch bp (k' :: bk) (c :: bc))).plug
      (branch ap ak ac)).cells next)) :
    ∃ s', borrowFromRightInternal g.pageId g.left.length s = .ok ⟨⟩ s' ∧ SameHead s s' ∧
      s'.Pages (R + ((g.insertRight k' (branch bp bk bc)).plug
        (branch ap (ak ++ [k]) (ac ++ [c]))).cells next) := by
  rw [cells_branches _ _ _ _ _ _ _ _ (cons_ne_nil c bc)] at h
  have hpages := ((h.put_second
    (innerNode ap (ak ++ [k]) ((ac ++ [c]).map pageId))).put
      (g.pairPage k' ap bp)).put_third (innerNode bp bk (bc.map pageId))
  have hhead : (ac ++ [c]).head? = ac.head? := head?_append_of_ne_nil _ hac
  rw [← hhead, append_cons ac c bc, ← cells_branches _ _ _ _ _ _ _ _ hbc] at hpages
  refine ⟨_, ?_, ((sameHead_put.put _ _).put _ _), hpages⟩
  rw [borrowFromRightInternal, h.node_bind (Multiset.mem_cons_self _ _),
    element_bind (g.children_pairPage_left k ap bp),
    element_bind (g.children_pairPage_right k ap bp), bind_of_ok h.node_second,
    bind_of_ok h.node_third, element_bind (g.keys_pairPage k ap bp),
    element_bind (x := c.pageId) rfl, element_bind (x := k') rfl, setNode_bind, setNode_bind,
    setNode_apply, g.pairPage_setKey]
  simp [innerNode]

theorem mergeInternals_run (hac : ac ≠ []) (hbc : bc ≠ [])
    (h : s.Pages (R + ((g.insertRight k (branch bp bk bc)).plug
      (branch ap ak ac)).cells next)) :
    ∃ s', mergeInternals g.pageId g.left.length s = .ok ⟨⟩ s' ∧ SameHead s s' ∧
      s'.Pages (R + (g.plug (branch ap (ak ++ k :: bk) (ac ++ bc))).cells next) := by
  rw [cells_branches _ _ _ _ _ _ _ _ hbc] at h
  have hpages := ((h.put_second (innerNode ap (ak ++ k :: bk)
    ((ac ++ bc).map pageId))).put (g.page ap)).discard_third
  have hcells : R + (g.plug (branch ap (ak ++ k :: bk) (ac ++ bc))).cells next =
      (g.pageId, g.page ap) ::ₘ
        (ap, innerNode ap (ak ++ k :: bk) ((ac ++ bc).map pageId)) ::ₘ
          (R + g.siblings ((ac.head?.map firstLeaf).getD 0) next +
            siblingCells cells firstLeaf (g.next next) (ac ++ bc)) := by
    rw [g.cells_plug, cells_branch, firstLeaf_branch, head?_append_of_ne_nil _ hac]
    simp only [pageId_branch, ← Multiset.singleton_add]
    abel
  rw [← hcells] at hpages
  refine ⟨_, ?_, ((sameHead_put.put _ _).discard _), hpages⟩
  rw [mergeInternals, h.node_bind (Multiset.mem_cons_self _ _),
    element_bind (g.children_pairPage_left k ap bp),
    element_bind (g.children_pairPage_right k ap bp), bind_of_ok h.node_second,
    bind_of_ok h.node_third, element_bind (g.keys_pairPage k ap bp), setNode_bind, setNode_bind,
    freePage_apply, g.pairPage_eraseRight]
  simp [innerNode]

end Branches

section Pairs

variable [LinearOrder K] {capacity : ℕ}

/-- A pair of neighbours with the separator between them, before and after a key has moved over. -/
structure Rotated (capacity : ℕ) (a : BTree K d) (k : K) (b a' : BTree K d) (k' : K)
    (b' : BTree K d) : Prop where
  inner_left : a'.Inner capacity
  inner_right : b'.Inner capacity
  pageId : a'.pageId = a.pageId
  firstLeaf : a'.firstLeaf = a.firstLeaf
  entries : a'.entries ++ b'.entries = a.entries ++ b.entries
  sorted : ∀ l r : List (Mark K),
    (l ++ (a.inorder ++ Mark.sep k :: b.inorder) ++ r).Pairwise (· < ·) →
      (l ++ (a'.inorder ++ Mark.sep k' :: b'.inorder) ++ r).Pairwise (· < ·)

/-- A pair of neighbours with the separator between them, and the one node it is merged into. -/
structure Merged (capacity : ℕ) (a : BTree K d) (k : K) (b m : BTree K d) : Prop where
  inner : m.Inner capacity
  pageId : m.pageId = a.pageId
  firstLeaf : m.firstLeaf = a.firstLeaf
  entries : m.entries = a.entries ++ b.entries
  sorted : ∀ l r : List (Mark K),
    (l ++ (a.inorder ++ Mark.sep k :: b.inorder) ++ r).Pairwise (· < ·) →
      (l ++ m.inorder ++ r).Pairwise (· < ·)

variable {g : BFrame K (BTree K d)} {a b : BTree K d} {k : K}

variable (hpages : s.Pages (R + ((g.insertRight k b).plug a).cells next)) (ha : a.Inner capacity)
  (hb : b.Inner capacity)
include hpages ha hb

/-- The last key of the left neighbour moves over. -/
theorem borrowFromLeft_spec (hcount : 2 ≤ a.keyCount) :
    ∃ a' k' b' s',
      (if d = 0 then borrowFromLeftLeaf g.pageId (g.left.length + 1)
        else borrowFromLeftInternal g.pageId (g.left.length + 1)) s = .ok ⟨⟩ s' ∧
      SameHead s s' ∧ s'.Pages (R + ((g.insertRight k' b').plug a').cells next) ∧
      Rotated capacity a k b a' k' b' ∧ a'.keyCount + 1 = a.keyCount ∧
      b'.keyCount = b.keyCount + 1 := by
  cases d with
  | zero =>
    obtain ⟨ap, es, rfl⟩ := exists_leaf a
    obtain ⟨bp, xs, rfl⟩ := exists_leaf b
    obtain ⟨es, e, rfl⟩ := eq_nil_or_concat' es |>.resolve_left fun h => by
      simp [h] at hcount
    obtain ⟨s', hrun, hhead, hpages'⟩ := borrowFromLeftLeaf_run hpages
    refine ⟨_, _, _, s', ?_, hhead, hpages', ⟨trivial, trivial, rfl, rfl, ?_, fun l r h => ?_⟩, ?_,
      ?_⟩
    · rw [if_pos rfl]
      exact hrun
    · simp
    · have hne : es ≠ [] := by
        rintro rfl
        simp at hcount
      have h' := pairwise_insert_sep (l := l) (k := e.1)
        (r := (xs.map fun entry => Mark.key entry.1) ++ r) hne (h.sublist (by simp))
      simpa using h'
    · simp
    · simp
  | succ d =>
    obtain ⟨ap, ak, ac, rfl⟩ := exists_branch a
    obtain ⟨bp, bk, bc, rfl⟩ := exists_branch b
    obtain ⟨hac, hac'⟩ := inner_branch.mp ha
    obtain ⟨hbc, hbc'⟩ := inner_branch.mp hb
    rw [keyCount_branch] at hcount
    obtain ⟨ak, k', rfl⟩ := eq_nil_or_concat' ak |>.resolve_left fun h => by simp [h] at hcount
    obtain ⟨ac, c, rfl⟩ := eq_nil_or_concat' ac |>.resolve_left fun h => by simp [h] at hac
    rw [length_append, length_append, length_singleton, length_singleton] at hac
    have hne : ac ≠ [] := ne_nil_of_length_pos (by omega)
    obtain ⟨s', hrun, hhead, hpages'⟩ := borrowFromLeftInternal_run hne
      (ne_nil_of_length_pos (by omega)) hpages
    have hmarks : (branch ap ak ac).inorder ++
        Mark.sep k' :: (branch bp (k :: bk) (c :: bc)).inorder =
        (branch ap (ak ++ [k']) (ac ++ [c])).inorder ++
          Mark.sep k :: (branch bp bk bc).inorder := by
      simp only [inorder_branch]
      rw [weave_cut _ ak k' [] ac [c] (by omega), weave, weave_nil]
      simp
    refine ⟨_, _, _, s', ?_, hhead, hpages', ⟨?_, ?_, rfl, ?_, ?_, fun l r h => ?_⟩, ?_, ?_⟩
    · rw [if_neg (Nat.succ_ne_zero d)]
      exact hrun
    · exact inner_branch.mpr ⟨by omega, fun x hx => hac' x (mem_append_left _ hx)⟩
    · refine inner_branch.mpr ⟨by simpa using hbc, fun x hx => ?_⟩
      rcases mem_cons.mp hx with rfl | hx
      · exact hac' x (mem_append_right _ (mem_singleton_self x))
      · exact hbc' x hx
    · rw [firstLeaf_branch, firstLeaf_branch, head?_append_of_ne_nil _ hne]
    · simp
    · rw [hmarks]
      exact h
    · simp
    · simp

/-- The first key of the right neighbour moves over. -/
theorem borrowFromRight_spec (hcount : 2 ≤ b.keyCount) :
    ∃ a' k' b' s',
      (if d = 0 then borrowFromRightLeaf g.pageId g.left.length
        else borrowFromRightInternal g.pageId g.left.length) s = .ok ⟨⟩ s' ∧
      SameHead s s' ∧ s'.Pages (R + ((g.insertRight k' b').plug a').cells next) ∧
      Rotated capacity a k b a' k' b' ∧ a'.keyCount = a.keyCount + 1 ∧
      b'.keyCount + 1 = b.keyCount := by
  cases d with
  | zero =>
    obtain ⟨ap, es, rfl⟩ := exists_leaf a
    obtain ⟨bp, xs, rfl⟩ := exists_leaf b
    obtain ⟨e, e', xs, rfl⟩ : ∃ e e' xs', xs = e :: e' :: xs' := by
      match xs, hcount with
      | e :: e' :: xs, _ => exact ⟨e, e', xs, rfl⟩
    obtain ⟨s', hrun, hhead, hpages'⟩ := borrowFromRightLeaf_run hpages
    refine ⟨_, _, _, s', ?_, hhead, hpages', ⟨trivial, trivial, rfl, rfl, ?_, fun l r h => ?_⟩, ?_,
      ?_⟩
    · rw [if_pos rfl]
      exact hrun
    · simp
    · have h' := pairwise_insert_sep (l := l) (k := e'.1) (A := es ++ [e])
        (r := (xs.map fun entry => Mark.key entry.1) ++ r) (by simp) (h.sublist (by simp))
      simpa using h'
    · simp
    · simp
  | succ d =>
    obtain ⟨ap, ak, ac, rfl⟩ := exists_branch a
    obtain ⟨bp, bk, bc, rfl⟩ := exists_branch b
    obtain ⟨hac, hac'⟩ := inner_branch.mp ha
    obtain ⟨hbc, hbc'⟩ := inner_branch.mp hb
    rw [keyCount_branch] at hcount
    obtain ⟨k', bk, rfl⟩ := exists_cons_of_length_pos (by omega : 0 < bk.length)
    obtain ⟨c, bc, rfl⟩ := exists_cons_of_length_pos (by omega : 0 < bc.length)
    rw [length_cons, length_cons] at hbc
    rw [length_cons] at hcount
    have hne : ac ≠ [] := ne_nil_of_length_pos (by omega)
    obtain ⟨s', hrun, hhead, hpages'⟩ := borrowFromRightInternal_run hne
      (ne_nil_of_length_pos (by omega)) hpages
    have hmarks : (branch ap (ak ++ [k]) (ac ++ [c])).inorder ++
        Mark.sep k' :: (branch bp bk bc).inorder =
        (branch ap ak ac).inorder ++ Mark.sep k :: (branch bp (k' :: bk) (c :: bc)).inorder := by
      simp only [inorder_branch]
      rw [weave_cut _ ak k [] ac [c] hac, weave, weave_nil]
      simp
    refine ⟨_, _, _, s', ?_, hhead, hpages', ⟨?_, ?_, rfl, ?_, ?_, fun l r h => ?_⟩, ?_, ?_⟩
    · rw [if_neg (Nat.succ_ne_zero d)]
      exact hrun
    · refine inner_branch.mpr ⟨by simpa using hac, fun x hx => ?_⟩
      rcases mem_append.mp hx with hx | hx
      · exact hac' x hx
      · rw [mem_singleton.mp hx]
        exact hbc' c mem_cons_self
    · exact inner_branch.mpr ⟨by omega, fun x hx => hbc' x (mem_cons_of_mem _ hx)⟩
    · rw [firstLeaf_branch, firstLeaf_branch, head?_append_of_ne_nil _ hne]
    · simp
    · rw [hmarks]
      exact h
    · simp
    · simp

/-- The keys and children of the right neighbour go over to the left one. -/
theorem merge_spec :
    ∃ m s',
      (if d = 0 then mergeLeaves g.pageId g.left.length
        else mergeInternals g.pageId g.left.length) s = .ok ⟨⟩ s' ∧
      SameHead s s' ∧ s'.Pages (R + (g.plug m).cells next) ∧ Merged capacity a k b m ∧
      a.keyCount + b.keyCount ≤ m.keyCount ∧ m.keyCount ≤ a.keyCount + b.keyCount + 1 := by
  cases d with
  | zero =>
    obtain ⟨ap, es, rfl⟩ := exists_leaf a
    obtain ⟨bp, xs, rfl⟩ := exists_leaf b
    obtain ⟨s', hrun, hhead, hpages'⟩ := mergeLeaves_run hpages
    refine ⟨_, s', ?_, hhead, hpages', ⟨trivial, rfl, rfl, rfl, fun l r h => ?_⟩, ?_, ?_⟩
    · rw [if_pos rfl]
      exact hrun
    · refine h.sublist ?_
      simp
    · simp
    · simp
  | succ d =>
    obtain ⟨ap, ak, ac, rfl⟩ := exists_branch a
    obtain ⟨bp, bk, bc, rfl⟩ := exists_branch b
    obtain ⟨hac, hac'⟩ := inner_branch.mp ha
    obtain ⟨hbc, hbc'⟩ := inner_branch.mp hb
    have hne : ac ≠ [] := ne_nil_of_length_pos (by omega)
    obtain ⟨s', hrun, hhead, hpages'⟩ := mergeInternals_run hne
      (ne_nil_of_length_pos (by omega)) hpages
    have hmarks : (branch ap (ak ++ k :: bk) (ac ++ bc)).inorder =
        (branch ap ak ac).inorder ++ Mark.sep k :: (branch bp bk bc).inorder := by
      simp only [inorder_branch]
      rw [weave_cut _ ak k bk ac bc hac]
    refine ⟨_, s', ?_, hhead, hpages', ⟨?_, rfl, ?_, ?_, fun l r h => ?_⟩, ?_, ?_⟩
    · rw [if_neg (Nat.succ_ne_zero d)]
      exact hrun
    · refine inner_branch.mpr ⟨?_, fun x hx => (mem_append.mp hx).elim (hac' x) (hbc' x)⟩
      simp only [length_append, length_cons]
      omega
    · rw [firstLeaf_branch, firstLeaf_branch, head?_append_of_ne_nil _ hne]
    · simp
    · rw [hmarks]
      exact h
    · simp only [keyCount_branch, length_append, length_cons]
      omega
    · simp only [keyCount_branch, length_append, length_cons]
      omega

end Pairs

end BTreePages

end VertexDB
