import VertexDB.Storage.PageRowStore

/-!
# Page images

The physical redo of the heap: `takePageImageCapture` of `src/storage/table_snapshot_io.cpp` takes
the pages written since the last `clearDirtyTracking` together with the capacity and the free list.
The images of index pages and buckets are not part of the model.
-/

namespace VertexDB

open Exec

/-- `PageImageCapture`, as far as it concerns the heap. -/
structure PageImageCapture where
  capacity : ℕ
  freeList : List ℕ
  heapPages : List (ℕ × List Row)
  deriving DecidableEq

namespace PageRowStore

/-- `PageRowStore::clearDirtyPages`. -/
def clearDirtyPages (s : PageRowStore) : PageRowStore := { s with dirtyPages := ∅ }

/-- `PageRowStore::takeDirtyPages`, without the clearing. -/
def dirtyPageImages (s : PageRowStore) : List (ℕ × List Row) :=
  s.dirtyPages.toList.filterMap fun pageId => (s.pageDirectory[pageId]?).map (pageId, ·)

/-- `TableSnapshotIO::takePageImageCapture`. -/
def takePageImageCapture (s : PageRowStore) : PageImageCapture × PageRowStore :=
  ({ capacity := s.capacity, freeList := s.freeList, heapPages := s.dirtyPageImages },
    s.clearDirtyPages)

end PageRowStore

end VertexDB
