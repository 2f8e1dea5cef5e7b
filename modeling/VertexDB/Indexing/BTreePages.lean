import VertexDB.Common.Value
import VertexDB.Lib.Exec
import Mathlib.Order.Lattice

/-!
# The pages of an ordered index

The B+ tree of `src/indexing/btree_index_lookup.cpp` and `btree_index_mutate.cpp` on its pages, over
any linearly ordered type of keys. A path from the root to a leaf is kept with its last page first.
A loop along the pages of the tree has the number of page ids given out so far as its bound. An
index into a vector that is out of range is undefined in the source and throws here, as a page that
is missing does. The dirty marks are not part of this model.
-/

namespace VertexDB

open Exec

/-- `BTreeNode`. -/
structure BTreeNode (K : Type) where
  pageId : ℕ
  leaf : Bool := true
  keys : List K := []
  rowIds : List (List ℕ) := []
  children : List ℕ := []
  nextLeaf : Option ℕ := none
  deriving DecidableEq, Repr

/-- `BTreeIndex` with its pages. -/
structure BTreePages (K : Type) where
  maxKeysPerNode : ℕ := 64
  nodes : Std.ExtTreeMap ℕ (BTreeNode K) := ∅
  freePageIds : List ℕ := []
  rootPageId : ℕ := 1
  nextPageId : ℕ := 2
  keyCount : ℕ := 0

namespace BTreePages

variable {K : Type} [LinearOrder K]

/-- An element of a vector. -/
def element {α : Type} (xs : List α) (index : ℕ) : Except Error α :=
  match xs[index]? with
  | some x => pure x
  | none => throw (.runtimeError "vector index out of range")

section Search

/-- The loop of `lowerBoundKey` between `lo` and `hi`. -/
def lowerBoundFrom (keys : List K) (key : K) (lo hi : ℕ) : ℕ :=
  if lo < hi then
    let mid := lo + (hi - lo) / 2
    if keys[mid]?.any (· < key) then lowerBoundFrom keys key (mid + 1) hi
    else lowerBoundFrom keys key lo mid
  else lo
termination_by hi - lo

/-- `lowerBoundKey`. -/
def lowerBoundKey (keys : List K) (key : K) : ℕ := lowerBoundFrom keys key 0 keys.length

/-- `BTreeIndex::childIndex`. -/
def childIndex (key : K) : List K → ℕ
  | [] => 0
  | k :: keys => if key < k then 0 else childIndex key keys + 1

/-- `BTreeIndex::childFor`. -/
def childFor (internal : BTreeNode K) (key : K) : Except Error ℕ :=
  element internal.children (childIndex key internal.keys)

/-- `BTreeIndex::node` of a constant index. -/
def nodeAt (s : BTreePages K) (pageId : ℕ) : Except Error (BTreeNode K) :=
  match s.nodes[pageId]? with
  | some node => pure node
  | none => throw (.runtimeError "unordered_map::at")

/-- `BTreeIndex::minKeys`. -/
def minKeys (s : BTreePages K) : ℕ := s.maxKeysPerNode / 2

/-- The loop of `pathToLeaf`. -/
def pathFrom (s : BTreePages K) (key : K) : ℕ → ℕ → List ℕ → Except Error (List ℕ)
  | 0, _, _ => throw (.runtimeError "no leaf on the path")
  | fuel + 1, pageId, path => do
    let current ← s.nodeAt pageId
    if current.leaf then return pageId :: path
    else
      let child ← childFor current key
      s.pathFrom key fuel child (pageId :: path)

/-- `BTreeIndex::pathToLeaf`. -/
def pathToLeaf (s : BTreePages K) (key : K) : Except Error (List ℕ) :=
  s.pathFrom key s.nextPageId s.rootPageId []

/-- The loop of `leftmostLeaf`. -/
def leftmostFrom (s : BTreePages K) : ℕ → ℕ → Except Error ℕ
  | 0, _ => throw (.runtimeError "no leaf on the path")
  | fuel + 1, pageId => do
    let current ← s.nodeAt pageId
    if current.leaf then return pageId
    else
      let child ← element current.children 0
      s.leftmostFrom fuel child

/-- `BTreeIndex::leftmostLeaf`. -/
def leftmostLeaf (s : BTreePages K) : Except Error ℕ := s.leftmostFrom s.nextPageId s.rootPageId

/-- The last page of a path. -/
def lastPage (path : List ℕ) : Except Error ℕ := element path 0

/-- `BTreeIndex::find`. -/
def find (s : BTreePages K) (key : K) : Except Error (List ℕ) := do
  let path ← s.pathToLeaf key
  let leafId ← lastPage path
  let leaf ← s.nodeAt leafId
  let index := lowerBoundKey leaf.keys key
  if leaf.keys[index]? = some key then element leaf.rowIds index else return []

/-- The loop of `lessThan` over the leaves. In a leaf it takes the row ids up to the first key that
is not smaller, and then the loop ends. -/
def lessThanFrom (s : BTreePages K) (key : K) : ℕ → Option ℕ → Except Error (List ℕ)
  | _, none => return []
  | 0, some _ => throw (.runtimeError "the leaves do not end")
  | fuel + 1, some pageId => do
    let leaf ← s.nodeAt pageId
    let below := (leaf.keys.zip leaf.rowIds).takeWhile fun entry => entry.1 < key
    if below.length < leaf.keys.length then return below.flatMap Prod.snd
    else
      let rest ← s.lessThanFrom key fuel leaf.nextLeaf
      return below.flatMap Prod.snd ++ rest

/-- `BTreeIndex::lessThan`. -/
def lessThan (s : BTreePages K) (key : K) : Except Error (List ℕ) := do
  let first ← s.leftmostLeaf
  s.lessThanFrom key s.nextPageId (some first)

/-- The loop of `greaterThan` over a leaf, with its flag `collecting`. -/
def greaterInLeaf (key : K) : Bool → List (K × List ℕ) → List ℕ × Bool
  | collecting, [] => ([], collecting)
  | collecting, (k, rowIds) :: entries =>
    let collecting := collecting || key < k
    let rest := greaterInLeaf key collecting entries
    ((if collecting then rowIds else []) ++ rest.1, rest.2)

/-- The loop of `greaterThan` over the leaves. -/
def greaterThanFrom (s : BTreePages K) (key : K) : ℕ → Bool → Option ℕ → Except Error (List ℕ)
  | _, _, none => return []
  | 0, _, some _ => throw (.runtimeError "the leaves do not end")
  | fuel + 1, collecting, some pageId => do
    let leaf ← s.nodeAt pageId
    let here := greaterInLeaf key collecting (leaf.keys.zip leaf.rowIds)
    let rest ← s.greaterThanFrom key fuel here.2 leaf.nextLeaf
    return here.1 ++ rest

/-- `BTreeIndex::greaterThan`. -/
def greaterThan (s : BTreePages K) (key : K) : Except Error (List ℕ) := do
  let path ← s.pathToLeaf key
  let start ← lastPage path
  s.greaterThanFrom key s.nextPageId false (some start)

/-- `BTreeIndex::size`. -/
def size (s : BTreePages K) : ℕ := s.keyCount

end Search

section Pages

/-- `BTreeIndex::node`. -/
def node (pageId : ℕ) : EStateM Error (BTreePages K) (BTreeNode K) := do
  let s ← EStateM.get
  Exec.ofExcept (s.nodeAt pageId)

/-- A change through the reference that `node` returns. -/
def setNode (pageId : ℕ) (node : BTreeNode K) : EStateM Error (BTreePages K) Unit :=
  modify fun s => { s with nodes := s.nodes.insert pageId node }

/-- `nodes_.emplace`. -/
def emplaceNode (pageId : ℕ) (node : BTreeNode K) : EStateM Error (BTreePages K) Unit :=
  modify fun s => { s with nodes := s.nodes.insertIfNew pageId node }

/-- `BTreeIndex::allocatePage`. -/
def allocatePage : EStateM Error (BTreePages K) ℕ := do
  let s ← EStateM.get
  match s.freePageIds.getLast? with
  | some id =>
    EStateM.set { s with freePageIds := s.freePageIds.dropLast }
    return id
  | none =>
    EStateM.set { s with nextPageId := s.nextPageId + 1 }
    return s.nextPageId

/-- `BTreeIndex::freePage`. -/
def freePage (pageId : ℕ) : EStateM Error (BTreePages K) Unit :=
  modify fun s =>
    { s with nodes := s.nodes.erase pageId, freePageIds := s.freePageIds ++ [pageId] }

end Pages

section Insertion

/-- `BTreeIndex::splitInternal` up to its call of `insertSeparator`: the key that moves up, and the
new page. -/
def splitInternal (leftId : ℕ) : EStateM Error (BTreePages K) (K × ℕ) := do
  let left ← node leftId
  let mid := left.keys.length / 2
  let promoted ← Exec.ofExcept (element left.keys mid)
  let rightId ← allocatePage
  setNode leftId { left with keys := left.keys.take mid, children := left.children.take (mid + 1) }
  emplaceNode rightId
    { pageId := rightId
      leaf := false
      keys := left.keys.drop (mid + 1)
      children := left.children.drop (mid + 1) }
  return (promoted, rightId)

/-- `BTreeIndex::insertSeparator`. -/
def insertSeparator : List ℕ → K → ℕ → EStateM Error (BTreePages K) Unit
  | [], separator, rightChild => do
    let rootId ← allocatePage
    let s ← EStateM.get
    emplaceNode rootId
      { pageId := rootId, leaf := false, keys := [separator],
        children := [s.rootPageId, rightChild] }
    modify fun s => { s with rootPageId := rootId }
  | parentId :: path, separator, rightChild => do
    let parent ← node parentId
    let index := childIndex separator parent.keys
    let keys := parent.keys.insertIdx index separator
    setNode parentId
      { parent with keys := keys, children := parent.children.insertIdx (index + 1) rightChild }
    let s ← EStateM.get
    if s.maxKeysPerNode < keys.length then
      let (promoted, rightId) ← splitInternal parentId
      insertSeparator path promoted rightId
    else pure ()

/-- `BTreeIndex::splitLeaf`. -/
def splitLeaf (leftId : ℕ) (path : List ℕ) : EStateM Error (BTreePages K) Unit := do
  let left ← node leftId
  let mid := left.keys.length / 2
  let rightId ← allocatePage
  setNode leftId
    { left with
      keys := left.keys.take mid, rowIds := left.rowIds.take mid, nextLeaf := some rightId }
  let separator ← Exec.ofExcept (element (left.keys.drop mid) 0)
  emplaceNode rightId
    { pageId := rightId
      keys := left.keys.drop mid
      rowIds := left.rowIds.drop mid
      nextLeaf := left.nextLeaf }
  insertSeparator path separator rightId

/-- `BTreeIndex::insertIntoLeaf`. -/
def insertIntoLeaf (leafId : ℕ) (path : List ℕ) (key : K) (rowId : ℕ) :
    EStateM Error (BTreePages K) Unit := do
  let leaf ← node leafId
  let index := lowerBoundKey leaf.keys key
  if leaf.keys[index]? = some key then
    setNode leafId { leaf with rowIds := leaf.rowIds.modify index (· ++ [rowId]) }
  else
    let keys := leaf.keys.insertIdx index key
    setNode leafId { leaf with keys := keys, rowIds := leaf.rowIds.insertIdx index [rowId] }
    modify fun s => { s with keyCount := s.keyCount + 1 }
    let s ← EStateM.get
    if s.maxKeysPerNode < keys.length then splitLeaf leafId path else pure ()

/-- `BTreeIndex::insert`. -/
def insert (key : K) (rowId : ℕ) : EStateM Error (BTreePages K) Unit := do
  let s ← EStateM.get
  let path ← Exec.ofExcept (s.pathToLeaf key)
  let leafId ← Exec.ofExcept (lastPage path)
  insertIntoLeaf leafId path.tail key rowId

end Insertion

section Removal

/-- `BTreeIndex::updateSeparator`. -/
def updateSeparator (parentId childIndex : ℕ) (separator : K) :
    EStateM Error (BTreePages K) Unit := do
  let parent ← node parentId
  if childIndex = 0 ∨ parent.keys.length < childIndex then pure ()
  else setNode parentId { parent with keys := parent.keys.set (childIndex - 1) separator }

/-- The child of a page. -/
def childNode (parent : BTreeNode K) (index : ℕ) : EStateM Error (BTreePages K) (BTreeNode K) := do
  let pageId ← Exec.ofExcept (element parent.children index)
  node pageId

/-- `BTreeIndex::borrowFromLeftLeaf`. -/
def borrowFromLeftLeaf (parentId childIndex : ℕ) : EStateM Error (BTreePages K) Unit := do
  let parent ← node parentId
  let leftId ← Exec.ofExcept (element parent.children (childIndex - 1))
  let rightId ← Exec.ofExcept (element parent.children childIndex)
  let left ← node leftId
  let right ← node rightId
  let key ← Exec.ofExcept (element left.keys (left.keys.length - 1))
  let rowIds ← Exec.ofExcept (element left.rowIds (left.rowIds.length - 1))
  setNode rightId { right with keys := key :: right.keys, rowIds := rowIds :: right.rowIds }
  setNode leftId { left with keys := left.keys.dropLast, rowIds := left.rowIds.dropLast }
  setNode parentId { parent with keys := parent.keys.set (childIndex - 1) key }

/-- `BTreeIndex::borrowFromRightLeaf`. -/
def borrowFromRightLeaf (parentId childIndex : ℕ) : EStateM Error (BTreePages K) Unit := do
  let parent ← node parentId
  let leftId ← Exec.ofExcept (element parent.children childIndex)
  let rightId ← Exec.ofExcept (element parent.children (childIndex + 1))
  let left ← node leftId
  let right ← node rightId
  let key ← Exec.ofExcept (element right.keys 0)
  let rowIds ← Exec.ofExcept (element right.rowIds 0)
  setNode leftId { left with keys := left.keys ++ [key], rowIds := left.rowIds ++ [rowIds] }
  setNode rightId { right with keys := right.keys.tail, rowIds := right.rowIds.tail }
  let separator ← Exec.ofExcept (element right.keys.tail 0)
  setNode parentId { parent with keys := parent.keys.set childIndex separator }

/-- `BTreeIndex::borrowFromLeftInternal`. -/
def borrowFromLeftInternal (parentId childIndex : ℕ) : EStateM Error (BTreePages K) Unit := do
  let parent ← node parentId
  let leftId ← Exec.ofExcept (element parent.children (childIndex - 1))
  let rightId ← Exec.ofExcept (element parent.children childIndex)
  let left ← node leftId
  let right ← node rightId
  let separator ← Exec.ofExcept (element parent.keys (childIndex - 1))
  let child ← Exec.ofExcept (element left.children (left.children.length - 1))
  let key ← Exec.ofExcept (element left.keys (left.keys.length - 1))
  setNode rightId
    { right with keys := separator :: right.keys, children := child :: right.children }
  setNode parentId { parent with keys := parent.keys.set (childIndex - 1) key }
  setNode leftId { left with keys := left.keys.dropLast, children := left.children.dropLast }

/-- `BTreeIndex::borrowFromRightInternal`. -/
def borrowFromRightInternal (parentId childIndex : ℕ) : EStateM Error (BTreePages K) Unit := do
  let parent ← node parentId
  let leftId ← Exec.ofExcept (element parent.children childIndex)
  let rightId ← Exec.ofExcept (element parent.children (childIndex + 1))
  let left ← node leftId
  let right ← node rightId
  let separator ← Exec.ofExcept (element parent.keys childIndex)
  let child ← Exec.ofExcept (element right.children 0)
  let key ← Exec.ofExcept (element right.keys 0)
  setNode leftId
    { left with keys := left.keys ++ [separator], children := left.children ++ [child] }
  setNode parentId { parent with keys := parent.keys.set childIndex key }
  setNode rightId { right with keys := right.keys.tail, children := right.children.tail }

/-- `BTreeIndex::mergeLeaves`. -/
def mergeLeaves (parentId leftChildIndex : ℕ) : EStateM Error (BTreePages K) Unit := do
  let parent ← node parentId
  let leftId ← Exec.ofExcept (element parent.children leftChildIndex)
  let rightId ← Exec.ofExcept (element parent.children (leftChildIndex + 1))
  let left ← node leftId
  let right ← node rightId
  setNode leftId
    { left with
      keys := left.keys ++ right.keys
      rowIds := left.rowIds ++ right.rowIds
      nextLeaf := right.nextLeaf }
  setNode parentId
    { parent with
      keys := parent.keys.eraseIdx leftChildIndex
      children := parent.children.eraseIdx (leftChildIndex + 1) }
  freePage rightId

/-- `BTreeIndex::mergeInternals`. -/
def mergeInternals (parentId leftChildIndex : ℕ) : EStateM Error (BTreePages K) Unit := do
  let parent ← node parentId
  let leftId ← Exec.ofExcept (element parent.children leftChildIndex)
  let rightId ← Exec.ofExcept (element parent.children (leftChildIndex + 1))
  let left ← node leftId
  let right ← node rightId
  let separator ← Exec.ofExcept (element parent.keys leftChildIndex)
  setNode leftId
    { left with
      keys := left.keys ++ separator :: right.keys
      children := left.children ++ right.children }
  setNode parentId
    { parent with
      keys := parent.keys.eraseIdx leftChildIndex
      children := parent.children.eraseIdx (leftChildIndex + 1) }
  freePage rightId

/-- `BTreeIndex::collapseRootIfNeeded`. -/
def collapseRootIfNeeded : EStateM Error (BTreePages K) Unit := do
  let s ← EStateM.get
  let root ← node s.rootPageId
  if root.leaf then pure ()
  else
    match root.children with
    | [onlyChild] =>
      freePage s.rootPageId
      modify fun s => { s with rootPageId := onlyChild }
    | _ => pure ()

/-- A sibling with more keys than it needs, if the parent has one at this place. -/
def canLend (parent : BTreeNode K) (exists? : Bool) (index : ℕ) :
    EStateM Error (BTreePages K) Bool := do
  if exists? then
    let sibling ← childNode parent index
    let s ← EStateM.get
    return s.minKeys < sibling.keys.length
  else return false

/-- The loop of `rebalanceAfterDelete`. -/
def rebalance : List ℕ → EStateM Error (BTreePages K) Unit
  | pageId :: parentId :: path => do
    let current ← node pageId
    let parent ← node parentId
    let index := parent.children.idxOf pageId
    let s ← EStateM.get
    if parent.children.length ≤ index then
      throw (.runtimeError "B+ tree child missing from parent")
    else if s.minKeys ≤ current.keys.length then pure ()
    else
      let left ← canLend parent (0 < index) (index - 1)
      if left then
        if current.leaf then borrowFromLeftLeaf parentId index
        else borrowFromLeftInternal parentId index
      else
        let right ← canLend parent (index + 1 < parent.children.length) (index + 1)
        if right then
          if current.leaf then borrowFromRightLeaf parentId index
          else borrowFromRightInternal parentId index
        else
          let leftChildIndex := if 0 < index then index - 1 else index
          if current.leaf then mergeLeaves parentId leftChildIndex
          else mergeInternals parentId leftChildIndex
          let merged ← node parentId
          if s.minKeys ≤ merged.keys.length ∨ path = [] then pure ()
          else rebalance (parentId :: path)
  | _ => pure ()

/-- `BTreeIndex::rebalanceAfterDelete`. -/
def rebalanceAfterDelete (path : List ℕ) : EStateM Error (BTreePages K) Unit := do
  rebalance path
  collapseRootIfNeeded

/-- The separator of a leaf that lost its first key follows the new first key. -/
def followFirstKey (parentId index : ℕ) (key : K) (keys : List K) :
    EStateM Error (BTreePages K) Unit :=
  match index, keys with
  | 0, front :: _ => do
    let parent ← node parentId
    let parentChild := childIndex key parent.keys
    if 0 < parentChild then updateSeparator parentId parentChild front else pure ()
  | _, _ => pure ()

/-- The end of `removeFromLeaf`, once the leaf has lost a key. -/
def afterErase (leafId : ℕ) (path : List ℕ) (index : ℕ) (key : K) (keys : List K) :
    EStateM Error (BTreePages K) Unit :=
  match path with
  | [] => pure ()
  | parentId :: _ => do
    followFirstKey parentId index key keys
    let s ← EStateM.get
    if keys.length < s.minKeys then rebalanceAfterDelete (leafId :: path) else pure ()

/-- `BTreeIndex::removeFromLeaf`. -/
def removeFromLeaf (leafId : ℕ) (path : List ℕ) (key : K) (rowId : ℕ) :
    EStateM Error (BTreePages K) Unit := do
  let leaf ← node leafId
  let index := lowerBoundKey leaf.keys key
  if leaf.keys[index]? ≠ some key then pure ()
  else
    let ids ← Exec.ofExcept (element leaf.rowIds index)
    let left := ids.filter (· ≠ rowId)
    setNode leafId { leaf with rowIds := leaf.rowIds.set index left }
    if left ≠ [] then pure ()
    else
      let keys := leaf.keys.eraseIdx index
      setNode leafId { leaf with keys := keys, rowIds := leaf.rowIds.eraseIdx index }
      modify fun s => { s with keyCount := s.keyCount - 1 }
      afterErase leafId path index key keys

/-- `BTreeIndex::remove`. -/
def remove (key : K) (rowId : ℕ) : EStateM Error (BTreePages K) Unit := do
  let s ← EStateM.get
  let path ← Exec.ofExcept (s.pathToLeaf key)
  let leafId ← Exec.ofExcept (lastPage path)
  removeFromLeaf leafId path.tail key rowId

end Removal

/-- The pages of an index without keys. -/
def empty (maxKeysPerNode : ℕ) : BTreePages K :=
  { maxKeysPerNode := maxKeysPerNode
    nodes := (∅ : Std.ExtTreeMap ℕ (BTreeNode K)).insert 1 { pageId := 1 } }

/-- The constructor of `BTreeIndex`. -/
def create (maxKeysPerNode : ℕ) : Except Error (BTreePages K) :=
  if maxKeysPerNode < 2 then
    throw (.invalidArgument "B+ tree node capacity must be at least 2")
  else pure (empty maxKeysPerNode)

/-- `BTreeIndex::clear`. -/
def clear : EStateM Error (BTreePages K) Unit := modify fun s => empty s.maxKeysPerNode

end BTreePages

end VertexDB
