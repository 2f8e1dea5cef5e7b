import VertexDB.Common.Value

/-!
# Ordered indexes

The ordered index of `src/indexing/btree_index_lookup.cpp` and `btree_index_mutate.cpp` as a table
and its readers see it: the keys of the leaves from left to right, each with its row ids in
insertion order. How the keys are spread over the pages of the tree is not part of this model.
-/

namespace VertexDB

/-- `BTreeIndex`: the keys of the leaves, and whether a page is marked dirty. -/
structure BTreeIndex where
  entries : List (Value × List ℕ) := []
  dirty : Bool := false
  deriving DecidableEq, Repr

namespace BTreeIndex

/-- Insertion at the lower bound of the key: before the first key that is not smaller, or into its
row ids when it is equal. -/
def insertEntry (key : Value) (rowId : ℕ) : List (Value × List ℕ) → List (Value × List ℕ)
  | [] => [(key, [rowId])]
  | (k, rowIds) :: entries =>
    if k.lt key then (k, rowIds) :: insertEntry key rowId entries
    else if k.beq key then (k, rowIds ++ [rowId]) :: entries
    else (key, [rowId]) :: (k, rowIds) :: entries

/-- `BTreeIndex::insert`. -/
def insert (index : BTreeIndex) (key : Value) (rowId : ℕ) : BTreeIndex :=
  { entries := insertEntry key rowId index.entries, dirty := true }

/-- `BTreeIndex::clear`. -/
def clear (_index : BTreeIndex) : BTreeIndex := { entries := [], dirty := true }

/-- `BTreeIndex::find`. -/
def find (index : BTreeIndex) (key : Value) : List ℕ :=
  match index.entries.find? fun entry => !entry.1.lt key with
  | some entry => if entry.1.beq key then entry.2 else []
  | none => []

/-- `BTreeIndex::lessThan`. -/
def lessThan (index : BTreeIndex) (key : Value) : List ℕ :=
  (index.entries.takeWhile fun entry => entry.1.lt key).flatMap Prod.snd

/-- `BTreeIndex::greaterThan`. -/
def greaterThan (index : BTreeIndex) (key : Value) : List ℕ :=
  (index.entries.dropWhile fun entry => !key.lt entry.1).flatMap Prod.snd

/-- `orderedFind`. -/
def orderedFind (index : BTreeIndex) (op : ComparisonOperator) (value : Value) : List ℕ :=
  match op with
  | .equal => index.find value
  | .greater => index.greaterThan value
  | .less => index.lessThan value

end BTreeIndex

end VertexDB
