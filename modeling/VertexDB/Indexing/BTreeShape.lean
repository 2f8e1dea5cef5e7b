import VertexDB.Indexing.BTreePages
import VertexDB.Lib.CellHeap
import Mathlib.Data.Prod.Lex

/-!
# Trees laid out on pages

The tree that the pages of an ordered index stand for. The height of the tree is an index of its
type, so that all leaves have the same depth. A tree is read in order as a list of marks, one for
each separator and one for each key of a leaf: separators and keys are where they belong exactly
when this list increases, if a separator counts as just below the key of the same value. Splits,
merges and rotations of inner nodes do not change the list.
-/

namespace VertexDB

open List

variable {K : Type}

/-- A mark of the in-order reading: a separator or a key of a leaf. -/
abbrev Mark (K : Type) := K ×ₗ Bool

/-- The mark of a separator. -/
def Mark.sep (k : K) : Mark K := toLex (k, false)

/-- The mark of a key of a leaf. -/
def Mark.key (k : K) : Mark K := toLex (k, true)

section MarkOrder

variable [LinearOrder K] {a b : K}

@[simp] theorem Mark.sep_lt_sep : Mark.sep a < Mark.sep b ↔ a < b := by
  simp [Mark.sep, Prod.Lex.toLex_lt_toLex]

@[simp] theorem Mark.sep_lt_key : Mark.sep a < Mark.key b ↔ a ≤ b := by
  simp [Mark.sep, Mark.key, Prod.Lex.toLex_lt_toLex, le_iff_lt_or_eq]

@[simp] theorem Mark.key_lt_sep : Mark.key a < Mark.sep b ↔ a < b := by
  simp [Mark.sep, Mark.key, Prod.Lex.toLex_lt_toLex]

@[simp] theorem Mark.key_lt_key : Mark.key a < Mark.key b ↔ a < b := by
  simp [Mark.key, Prod.Lex.toLex_lt_toLex]

end MarkOrder

/-- A leaf: the page and its keys with their row ids. -/
structure BLeaf (K : Type) where
  pageId : ℕ
  entries : List (K × List ℕ)

/-- An inner node: the page, its keys and its children. -/
structure BBranch (K C : Type) where
  pageId : ℕ
  keys : List K
  children : List C

/-- A tree of the given height. -/
def BTree (K : Type) : ℕ → Type
  | 0 => BLeaf K
  | n + 1 => BBranch K (BTree K n)

section Siblings

variable {C γ : Type}

/-- The leaf that follows on a list of subtrees begins. -/
def linkTo (first : C → ℕ) (next : Option ℕ) : List C → Option ℕ
  | [] => next
  | c :: _ => some (first c)

/-- The cells of neighbouring subtrees, each linked to the next one. -/
def siblingCells (cells : C → Option ℕ → Multiset γ) (first : C → ℕ) (next : Option ℕ) :
    List C → Multiset γ
  | [] => 0
  | c :: cs => cells c (linkTo first next cs) + siblingCells cells first next cs

/-- The in-order reading of children and the separators between them. -/
def weave (read : C → List (Mark K)) : List K → List C → List (Mark K)
  | k :: keys, c :: cs => read c ++ Mark.sep k :: weave read keys cs
  | _, cs => cs.flatMap read

theorem weave_nil (read : C → List (Mark K)) (cs : List C) :
    weave read [] cs = cs.flatMap read := by
  cases cs <;> rfl

theorem linkTo_append (first : C → ℕ) (next : Option ℕ) (cs cs' : List C) :
    linkTo first next (cs ++ cs') = linkTo first (linkTo first next cs') cs := by
  cases cs <;> rfl

theorem siblingCells_append (cells : C → Option ℕ → Multiset γ) (first : C → ℕ) (next : Option ℕ)
    (cs cs' : List C) :
    siblingCells cells first next (cs ++ cs') =
      siblingCells cells first (linkTo first next cs') cs + siblingCells cells first next cs' := by
  induction cs with
  | nil => simp [siblingCells]
  | cons c cs ih =>
    rw [cons_append, siblingCells, siblingCells, ih, linkTo_append, add_assoc]

theorem weave_append (read : C → List (Mark K)) (left : List (C × K)) (keys : List K)
    (cs : List C) :
    weave read (left.map Prod.snd ++ keys) (left.map Prod.fst ++ cs) =
      (left.flatMap fun entry => read entry.1 ++ [Mark.sep entry.2]) ++ weave read keys cs := by
  induction left with
  | nil => rfl
  | cons entry left ih => simp [weave, ih]

theorem weave_right (read : C → List (Mark K)) (x : C) (right : List (K × C)) :
    weave read (right.map Prod.fst) (x :: right.map Prod.snd) =
      read x ++ right.flatMap fun entry => Mark.sep entry.1 :: read entry.2 := by
  induction right generalizing x with
  | nil => simp [weave]
  | cons entry right ih => simp [weave, ih]

theorem weave_cut (read : C → List (Mark K)) (keys : List K) (k : K) (keys' : List K)
    (cs cs' : List C) (h : cs.length = keys.length + 1) :
    weave read (keys ++ k :: keys') (cs ++ cs') =
      weave read keys cs ++ Mark.sep k :: weave read keys' cs' := by
  induction keys generalizing cs with
  | nil =>
    obtain ⟨c, rfl⟩ := length_eq_one_iff.mp h
    simp [weave]
  | cons k' keys ih =>
    cases cs with
    | nil => simp at h
    | cons c cs => simp [weave, ih cs (by simpa using h)]

end Siblings

namespace BTree

/-- The page of the root. -/
def pageId : {n : ℕ} → BTree K n → ℕ
  | 0, t => BLeaf.pageId t
  | _ + 1, t => BBranch.pageId t

/-- The page of the first leaf. -/
def firstLeaf : {n : ℕ} → BTree K n → ℕ
  | 0, t => BLeaf.pageId t
  | _ + 1, t => ((BBranch.children t).head?.map firstLeaf).getD 0

/-- The number of keys of the root. -/
def keyCount : {n : ℕ} → BTree K n → ℕ
  | 0, t => (BLeaf.entries t).length
  | _ + 1, t => (BBranch.keys t).length

/-- The keys of the leaves with their row ids, from left to right. -/
def entries : {n : ℕ} → BTree K n → List (K × List ℕ)
  | 0, t => BLeaf.entries t
  | _ + 1, t => (BBranch.children t).flatMap entries

/-- The in-order reading. -/
def inorder : {n : ℕ} → BTree K n → List (Mark K)
  | 0, t => (BLeaf.entries t).map fun entry => Mark.key entry.1
  | _ + 1, t => weave inorder (BBranch.keys t) (BBranch.children t)

/-- The leaves from left to right. -/
def leaves : {n : ℕ} → BTree K n → List (BLeaf K)
  | 0, t => [t]
  | _ + 1, t => (BBranch.children t).flatMap leaves

/-- The page of a leaf. -/
def leafNode (t : BLeaf K) (next : Option ℕ) : BTreeNode K :=
  { pageId := t.pageId
    keys := t.entries.map Prod.fst
    rowIds := t.entries.map Prod.snd
    nextLeaf := next }

/-- The page of an inner node. -/
def innerNode (pageId : ℕ) (keys : List K) (children : List ℕ) : BTreeNode K :=
  { pageId := pageId, leaf := false, keys := keys, children := children }

/-- The pages of a tree; `next` is the leaf that follows on it. -/
def cells : {n : ℕ} → BTree K n → Option ℕ → Multiset (ℕ × BTreeNode K)
  | 0, t, next => {(BLeaf.pageId t, leafNode t next)}
  | _ + 1, t, next =>
    (BBranch.pageId t,
        innerNode (BBranch.pageId t) (BBranch.keys t) ((BBranch.children t).map pageId)) ::ₘ
      siblingCells cells firstLeaf next (BBranch.children t)

/-- The number of keys of a node that is not the root. -/
def InRange (capacity : ℕ) {n : ℕ} (t : BTree K n) : Prop :=
  capacity / 2 ≤ t.keyCount ∧ t.keyCount ≤ capacity

/-- Everything below the root: an inner node has one more child than keys, and every child has its
number of keys in range. -/
def Inner (capacity : ℕ) : {n : ℕ} → BTree K n → Prop
  | 0, _ => True
  | _ + 1, t =>
    (BBranch.children t).length = (BBranch.keys t).length + 1 ∧
      ∀ c ∈ BBranch.children t, Inner capacity c ∧ InRange capacity c

/-- A tree as a node below the root. -/
def Occupied (capacity : ℕ) {n : ℕ} (t : BTree K n) : Prop := Inner capacity t ∧ InRange capacity t

variable {n : ℕ}

/-- A tree with an inner node as its root. -/
def branch (pageId : ℕ) (keys : List K) (children : List (BTree K n)) : BTree K (n + 1) :=
  (⟨pageId, keys, children⟩ : BBranch K (BTree K n))

/-- A tree that is a leaf. -/
def leaf (pageId : ℕ) (entries : List (K × List ℕ)) : BTree K 0 := (⟨pageId, entries⟩ : BLeaf K)

end BTree

variable {capacity : ℕ}

namespace BTree

variable {n : ℕ}

@[simp] theorem pageId_leaf (p : ℕ) (es : List (K × List ℕ)) : (leaf p es).pageId = p := rfl

@[simp] theorem pageId_branch (p : ℕ) (keys : List K) (cs : List (BTree K n)) :
    (branch p keys cs).pageId = p := rfl

@[simp] theorem firstLeaf_leaf (p : ℕ) (es : List (K × List ℕ)) : (leaf p es).firstLeaf = p := rfl

theorem firstLeaf_branch (p : ℕ) (keys : List K) (cs : List (BTree K n)) :
    (branch p keys cs).firstLeaf = (cs.head?.map firstLeaf).getD 0 := rfl

@[simp] theorem keyCount_leaf (p : ℕ) (es : List (K × List ℕ)) :
    (leaf p es).keyCount = es.length := rfl

@[simp] theorem keyCount_branch (p : ℕ) (keys : List K) (cs : List (BTree K n)) :
    (branch p keys cs).keyCount = keys.length := rfl

@[simp] theorem entries_leaf (p : ℕ) (es : List (K × List ℕ)) : (leaf p es).entries = es := rfl

@[simp] theorem entries_branch (p : ℕ) (keys : List K) (cs : List (BTree K n)) :
    (branch p keys cs).entries = cs.flatMap entries := rfl

@[simp] theorem inorder_leaf (p : ℕ) (es : List (K × List ℕ)) :
    (leaf p es).inorder = es.map fun entry => Mark.key entry.1 := rfl

theorem inorder_branch (p : ℕ) (keys : List K) (cs : List (BTree K n)) :
    (branch p keys cs).inorder = weave inorder keys cs := rfl

theorem cells_leaf (p : ℕ) (es : List (K × List ℕ)) (next : Option ℕ) :
    (leaf p es).cells next = {(p, leafNode ⟨p, es⟩ next)} := rfl

theorem cells_branch (p : ℕ) (keys : List K) (cs : List (BTree K n)) (next : Option ℕ) :
    (branch p keys cs).cells next =
      (p, innerNode p keys (cs.map pageId)) ::ₘ siblingCells cells firstLeaf next cs := rfl

theorem inner_branch {p : ℕ} {keys : List K} {cs : List (BTree K n)} :
    (branch p keys cs).Inner capacity ↔
      cs.length = keys.length + 1 ∧ ∀ c ∈ cs, c.Occupied capacity := Iff.rfl

theorem exists_leaf (t : BTree K 0) : ∃ p es, t = leaf p es := ⟨_, _, rfl⟩

theorem exists_branch (t : BTree K (n + 1)) : ∃ p keys cs, t = branch p keys cs := ⟨_, _, _, rfl⟩

/-- The shape of a whole tree: an inner root has at least one key. -/
def Rooted (capacity : ℕ) : {n : ℕ} → BTree K n → Prop
  | 0, t => t.keyCount ≤ capacity
  | _ + 1, t => Inner capacity t ∧ 1 ≤ t.keyCount ∧ t.keyCount ≤ capacity

theorem Rooted.inner {t : BTree K n} (h : t.Rooted capacity) : t.Inner capacity := by
  cases n with
  | zero => trivial
  | succ n => exact h.1

theorem Rooted.keyCount_le {t : BTree K n} (h : t.Rooted capacity) :
    t.keyCount ≤ capacity := by
  cases n with
  | zero => exact h
  | succ n => exact h.2.2

theorem Occupied.rooted {t : BTree K n} (hcap : 2 ≤ capacity) (h : t.Occupied capacity) :
    t.Rooted capacity := by
  cases n with
  | zero => exact h.2.2
  | succ n => exact ⟨h.1, le_trans (by omega) h.2.1, h.2.2⟩

/-- The keys of the leaves are marks of the in-order reading. -/
theorem entries_sublist_inorder (t : BTree K n) :
    List.Sublist (t.entries.map fun entry => Mark.key entry.1) t.inorder := by
  induction n with
  | zero => exact List.Sublist.refl _
  | succ n ih =>
    obtain ⟨p, keys, cs, rfl⟩ := exists_branch t
    rw [entries_branch, inorder_branch]
    induction cs generalizing keys with
    | nil => simp
    | cons c cs ihcs =>
      rw [flatMap_cons, map_append]
      cases keys with
      | nil =>
        rw [weave_nil, flatMap_cons]
        exact (ih c).append (weave_nil inorder cs ▸ ihcs [])
      | cons k keys =>
        rw [weave]
        exact (ih c).append ((ihcs keys).trans (sublist_cons_self _ _))

end BTree

/-- An inner node with a hole among its children: what is left of it, each child with the separator
that follows, and what is right of it. -/
structure BFrame (K C : Type) where
  pageId : ℕ
  left : List (C × K)
  right : List (K × C)

namespace BFrame

variable {n : ℕ} (f : BFrame K (BTree K n))

/-- The keys of the node. -/
def keys : List K := f.left.map Prod.snd ++ f.right.map Prod.fst

/-- The children of the node. -/
def children (x : BTree K n) : List (BTree K n) := f.left.map Prod.fst ++ x :: f.right.map Prod.snd

/-- The node with a subtree in its hole. -/
def plug (x : BTree K n) : BTree K (n + 1) := BTree.branch f.pageId f.keys (f.children x)

/-- The page of the node when the subtree in the hole has the given page. -/
def page (hole : ℕ) : BTreeNode K :=
  BTree.innerNode f.pageId f.keys
    (f.left.map (fun entry => entry.1.pageId) ++ hole :: f.right.map fun entry => entry.2.pageId)

/-- The first leaf of the node. -/
def first (hole : ℕ) : ℕ := (f.left.head?.map fun entry => entry.1.firstLeaf).getD hole

/-- The leaf that follows on the hole. -/
def next (after : Option ℕ) : Option ℕ := linkTo BTree.firstLeaf after (f.right.map Prod.snd)

/-- The pages of the siblings of the hole. -/
def siblings (holeFirst : ℕ) (after : Option ℕ) : Multiset (ℕ × BTreeNode K) :=
  siblingCells BTree.cells BTree.firstLeaf (some holeFirst) (f.left.map Prod.fst) +
    siblingCells BTree.cells BTree.firstLeaf after (f.right.map Prod.snd)

/-- The marks left of the hole. -/
def before : List (Mark K) :=
  f.left.flatMap fun entry => entry.1.inorder ++ [Mark.sep entry.2]

/-- The marks right of the hole. -/
def after : List (Mark K) := f.right.flatMap fun entry => Mark.sep entry.1 :: entry.2.inorder

@[simp] theorem pageId_plug (x : BTree K n) : (f.plug x).pageId = f.pageId := rfl

@[simp] theorem keyCount_plug (x : BTree K n) : (f.plug x).keyCount = f.keys.length := rfl

theorem firstLeaf_plug (x : BTree K n) : (f.plug x).firstLeaf = f.first x.firstLeaf := by
  rw [plug, BTree.firstLeaf_branch, children, first]
  cases f.left <;> rfl

theorem cells_plug (x : BTree K n) (after : Option ℕ) :
    (f.plug x).cells after =
      (f.pageId, f.page x.pageId) ::ₘ
        (f.siblings x.firstLeaf after + x.cells (f.next after)) := by
  rw [plug, BTree.cells_branch, children, siblingCells_append, siblingCells, siblings, next, page]
  simp only [map_append, map_map, map_cons, linkTo]
  congr 1
  exact (add_assoc _ _ _).symm.trans ((add_right_comm _ _ _))

theorem inorder_plug (x : BTree K n) : (f.plug x).inorder = f.before ++ x.inorder ++ f.after := by
  rw [plug, BTree.inorder_branch, keys, children, weave_append, weave_right, before, after,
    append_assoc]

theorem entries_plug (x : BTree K n) :
    (f.plug x).entries =
      (f.left.flatMap fun entry => entry.1.entries) ++ x.entries ++
        f.right.flatMap fun entry => entry.2.entries := by
  simp [plug, children, flatMap_map]

theorem inner_plug {x : BTree K n} (hleft : ∀ entry ∈ f.left, entry.1.Occupied capacity)
    (hx : x.Occupied capacity) (hright : ∀ entry ∈ f.right, entry.2.Occupied capacity) :
    (f.plug x).Inner capacity := by
  rw [plug, BTree.inner_branch]
  refine ⟨?_, fun c hc => ?_⟩
  · simp only [children, keys, length_append, length_map, length_cons]
    omega
  · rcases mem_append.mp hc with hc | hc
    · obtain ⟨entry, hentry, rfl⟩ := mem_map.mp hc
      exact hleft entry hentry
    · rcases mem_cons.mp hc with rfl | hc
      · exact hx
      · obtain ⟨entry, hentry, rfl⟩ := mem_map.mp hc
        exact hright entry hentry

end BFrame

/-- A tree of height `n` with a hole for a tree of height `d`. -/
inductive BCtx (K : Type) : ℕ → ℕ → Type
  | top {n : ℕ} : BCtx K n n
  | frame {d n : ℕ} (f : BFrame K (BTree K d)) (up : BCtx K (d + 1) n) : BCtx K d n

namespace BCtx

variable {d n : ℕ}

/-- The tree with a subtree in its hole. -/
def plug : {d n : ℕ} → BCtx K d n → BTree K d → BTree K n
  | _, _, top, x => x
  | _, _, frame f up, x => up.plug (f.plug x)

/-- The pages from the node of the hole up to the root. -/
def path : {d n : ℕ} → BCtx K d n → List ℕ
  | _, _, top => []
  | _, _, frame f up => f.pageId :: up.path

/-- The page of the root. -/
def rootPage : {d n : ℕ} → BCtx K d n → ℕ → ℕ
  | _, _, top, hole => hole
  | _, _, frame f up, _ => up.rootPage f.pageId

/-- The leaf that follows on the hole. -/
def next : {d n : ℕ} → BCtx K d n → Option ℕ
  | _, _, top => none
  | _, _, frame f up => f.next up.next

/-- The pages around the hole, when the subtree in it has the given page and first leaf. -/
def cells : {d n : ℕ} → BCtx K d n → ℕ → ℕ → Multiset (ℕ × BTreeNode K)
  | _, _, top, _, _ => 0
  | _, _, frame f up, hole, holeFirst =>
    (f.pageId, f.page hole) ::ₘ
      (f.siblings holeFirst up.next + up.cells f.pageId (f.first holeFirst))

/-- The marks left of the hole. -/
def before : {d n : ℕ} → BCtx K d n → List (Mark K)
  | _, _, top => []
  | _, _, frame f up => up.before ++ f.before

/-- The marks right of the hole. -/
def after : {d n : ℕ} → BCtx K d n → List (Mark K)
  | _, _, top => []
  | _, _, frame f up => f.after ++ up.after

/-- The entries left of the hole. -/
def entriesBefore : {d n : ℕ} → BCtx K d n → List (K × List ℕ)
  | _, _, top => []
  | _, _, frame f up => up.entriesBefore ++ f.left.flatMap fun entry => entry.1.entries

/-- The entries right of the hole. -/
def entriesAfter : {d n : ℕ} → BCtx K d n → List (K × List ℕ)
  | _, _, top => []
  | _, _, frame f up => (f.right.flatMap fun entry => entry.2.entries) ++ up.entriesAfter

/-- The least number of keys of an inner node in the hole. -/
def floor (capacity : ℕ) : {d n : ℕ} → BCtx K d n → ℕ
  | _, _, top => 1
  | _, _, frame _ _ => capacity / 2

/-- The nodes around the hole have the shape of a tree. -/
def Fits (capacity : ℕ) : {d n : ℕ} → BCtx K d n → Prop
  | _, _, top => True
  | _, _, frame f up =>
    (∀ entry ∈ f.left, entry.1.Occupied capacity) ∧ (∀ entry ∈ f.right, entry.2.Occupied capacity) ∧
      up.floor capacity ≤ f.keys.length ∧ f.keys.length ≤ capacity ∧ up.Fits capacity

/-- The subtree has the shape of one in the hole. -/
def Accepts (capacity : ℕ) : {d n : ℕ} → BCtx K d n → BTree K d → Prop
  | _, _, top, x => x.Rooted capacity
  | _, _, frame _ _, x => x.Occupied capacity

theorem pageId_plug (c : BCtx K d n) (x : BTree K d) : (c.plug x).pageId = c.rootPage x.pageId := by
  induction c with
  | top => rfl
  | frame f up ih => exact ih (f.plug x)

theorem inorder_plug (c : BCtx K d n) (x : BTree K d) :
    (c.plug x).inorder = c.before ++ x.inorder ++ c.after := by
  induction c with
  | top => simp [plug, before, after]
  | frame f up ih => rw [plug, ih, f.inorder_plug, before, after]; simp

theorem entries_plug (c : BCtx K d n) (x : BTree K d) :
    (c.plug x).entries = c.entriesBefore ++ x.entries ++ c.entriesAfter := by
  induction c with
  | top => simp [plug, entriesBefore, entriesAfter]
  | frame f up ih => rw [plug, ih, f.entries_plug, entriesBefore, entriesAfter]; simp

theorem cells_plug (c : BCtx K d n) (x : BTree K d) :
    (c.plug x).cells none = c.cells x.pageId x.firstLeaf + x.cells c.next := by
  induction c with
  | top => simp [plug, cells, next]
  | frame f up ih =>
    rw [plug, ih, f.cells_plug, cells, next, f.pageId_plug, f.firstLeaf_plug]
    rw [Multiset.cons_add, Multiset.add_cons]
    congr 1
    abel

theorem accepts_branch (c : BCtx K (d + 1) n) {x : BTree K (d + 1)} (hinner : x.Inner capacity)
    (hfloor : c.floor capacity ≤ x.keyCount) (hle : x.keyCount ≤ capacity) :
    c.Accepts capacity x := by
  cases c with
  | top => exact ⟨hinner, hfloor, hle⟩
  | frame f up => exact ⟨hinner, hfloor, hle⟩

theorem rooted_plug {c : BCtx K d n} {x : BTree K d} (hc : c.Fits capacity)
    (hx : c.Accepts capacity x) :
    (c.plug x).Rooted capacity := by
  induction c with
  | top => exact hx
  | frame f up ih =>
    obtain ⟨hleft, hright, hfloor, hle, hup⟩ := hc
    exact ih hup (up.accepts_branch (f.inner_plug hleft hx hright) hfloor hle)

end BCtx

section Descent

variable [LinearOrder K] {capacity : ℕ} {d n : ℕ}

namespace BCtx

/-- The marks around the hole leave the place of the key in it. -/
structure Locates (c : BCtx K d n) (key : K) : Prop where
  before : ∀ m ∈ c.before, m < Mark.key key
  after : ∀ m ∈ c.after, Mark.key key < m

end BCtx

/-- The tree is a search tree: its in-order reading increases. -/
def BTree.Ordered (t : BTree K n) : Prop := t.inorder.Pairwise (· < ·)

/-- `childIndex` counts the separators that are not above the key. -/
theorem childIndex_split (key : K) {keys : List K} (hsorted : keys.Pairwise (· < ·)) :
    ∃ l r, keys = l ++ r ∧ BTreePages.childIndex key keys = l.length ∧ (∀ k ∈ l, k ≤ key) ∧
      ∀ k ∈ r, key < k := by
  induction keys with
  | nil => exact ⟨[], [], rfl, rfl, by simp, by simp⟩
  | cons k keys ih =>
    rw [pairwise_cons] at hsorted
    rw [BTreePages.childIndex]
    split_ifs with hk
    · refine ⟨[], k :: keys, rfl, rfl, by simp, fun k' hk' => ?_⟩
      rcases mem_cons.mp hk' with rfl | hk'
      · exact hk
      · exact hk.trans (hsorted.1 k' hk')
    · obtain ⟨l, r, rfl, hidx, hl, hr⟩ := ih hsorted.2
      refine ⟨k :: l, r, rfl, by rw [hidx, length_cons], fun k' hk' => ?_, hr⟩
      rcases mem_cons.mp hk' with rfl | hk'
      · exact not_lt.mp hk
      · exact hl k' hk'

/-- The child of an inner node that a key leads to, with the node around it. -/
theorem exists_frame {p : ℕ} {keys : List K} {cs : List (BTree K n)} (key : K)
    (hlen : cs.length = keys.length + 1) (hsorted : keys.Pairwise (· < ·)) :
    ∃ (f : BFrame K (BTree K n)) (x : BTree K n), f.plug x = BTree.branch p keys cs ∧
      f.pageId = p ∧ BTreePages.childIndex key keys = f.left.length ∧
      (∀ entry ∈ f.left, entry.2 ≤ key) ∧ ∀ entry ∈ f.right, key < entry.1 := by
  obtain ⟨l, r, hlr, hidx, hl, hr⟩ := childIndex_split key hsorted
  have hlt : l.length < cs.length := by
    rw [hlen, hlr, length_append]
    omega
  have hrlen : (cs.drop (l.length + 1)).length = r.length := by
    rw [length_drop, hlen, hlr, length_append]
    omega
  have htake : (cs.take l.length).length = l.length := length_take_of_le hlt.le
  refine ⟨⟨p, (cs.take l.length).zip l, r.zip (cs.drop (l.length + 1))⟩, cs[l.length], ?_, rfl, ?_,
    ?_, ?_⟩
  · have hkeys : ((cs.take l.length).zip l).map Prod.snd ++
        (r.zip (cs.drop (l.length + 1))).map Prod.fst = keys := by
      rw [map_snd_zip htake.ge, map_fst_zip hrlen.ge, hlr]
    have hcs : ((cs.take l.length).zip l).map Prod.fst ++
        cs[l.length] :: (r.zip (cs.drop (l.length + 1))).map Prod.snd = cs := by
      rw [map_fst_zip htake.le, map_snd_zip hrlen.le, ← drop_eq_getElem_cons hlt, take_append_drop]
    rw [BFrame.plug, BFrame.keys, BFrame.children, hkeys, hcs]
  · rw [hidx, length_zip, htake, min_self]
  · rintro ⟨c, k⟩ hmem
    exact hl k (of_mem_zip hmem).2
  · rintro ⟨k, c⟩ hmem
    exact hr k (of_mem_zip hmem).1

end Descent

end VertexDB
