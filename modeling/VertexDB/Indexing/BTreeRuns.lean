import VertexDB.Indexing.BTreeIndex
import VertexDB.Indexing.BTreeRemove
import VertexDB.Indexing.BTreeWellFormed
import VertexDB.Lib.MultiMap

/-!
# Runs of an ordered index

Any sequence of insertions, removals and clears of an ordered index, beside the map from keys to
lists of row ids that it stands for.
-/

namespace VertexDB

open Exec CellHeap BTreeIndex List

variable {K : Type}

theorem BTreePages.create_ok {capacity : ℕ} (h : 2 ≤ capacity) :
    create capacity = .ok (empty capacity : BTreePages K) :=
  if_neg (not_lt.mpr h)

variable [LinearOrder K]

/-- A call of an operation of an ordered index that changes it. -/
inductive BTreeOp (K : Type)
  | insert (key : K) (rowId : ℕ)
  | remove (key : K) (rowId : ℕ)
  | clear
  deriving DecidableEq, Repr

namespace BTreeOp

/-- The call on the pages of the index. -/
def run : BTreeOp K → EStateM Error (BTreePages K) Unit
  | insert key rowId => BTreePages.insert key rowId
  | remove key rowId => BTreePages.remove key rowId
  | clear => BTreePages.clear

/-- The calls one after the other. -/
def runAll (ops : List (BTreeOp K)) : EStateM Error (BTreePages K) Unit := forM ops run

/-- What the call does to the map that the index stands for. -/
def apply : BTreeOp K → MultiMap K ℕ → MultiMap K ℕ
  | insert key rowId, m => m.add key rowId
  | remove key rowId, m => m.remove key rowId
  | clear, _ => .empty

/-- The map after the calls. -/
def reference (ops : List (BTreeOp K)) : MultiMap K ℕ := ops.foldl (fun m op => op.apply m) .empty

end BTreeOp

namespace BTreePages

variable {s : BTreePages K} {m : MultiMap K ℕ}

/-- The index is a search tree of the right shape on its pages that has the entries of the map. -/
structure StandsFor (s : BTreePages K) (m : MultiMap K ℕ) : Prop where
  capacity : 2 ≤ s.maxKeysPerNode
  represents : ∃ (n : ℕ) (t : BTree K n), s.Represents t ∧ m.ListedBy t.entries

theorem represents_empty (capacity : ℕ) :
    (empty capacity : BTreePages K).Represents (BTree.leaf 1 []) where
  laid := ⟨holds_singleton 1 _, rfl⟩
  ids := by
    refine ⟨fun p hp => ?_, fun p hp => ?_, fun p hp => ?_, nodup_nil⟩
    · rw [empty, Std.ExtTreeMap.mem_insert, compare_eq_iff_eq] at hp
      rcases hp with rfl | hp
      · exact Nat.lt_succ_self 1
      · simp at hp
    · cases hp
    · cases hp
  ordered := List.Pairwise.nil
  rooted := Nat.zero_le _
  count := rfl

theorem standsFor_empty {capacity : ℕ} (h : 2 ≤ capacity) :
    (empty capacity : BTreePages K).StandsFor .empty :=
  ⟨h, 0, _, represents_empty capacity, .nil⟩

theorem Inserted.listedBy {key : K} {rowId : ℕ} {es es' : List (K × List ℕ)}
    (h : Inserted key rowId es es') (hm : m.ListedBy es) : (m.add key rowId).ListedBy es' := by
  cases h with
  | old A B ids hes hes' =>
    subst hes hes'
    have hvalues := hm.values_eq (mem_append_right A (mem_cons_self (a := (key, ids))))
    rw [MultiMap.add, hvalues]
    exact hm.replace (by simp)
  | new A B hes hbelow habove hes' =>
    subst hes hes'
    have hvalues : m.values key = [] := hm.values_eq_nil fun ids hmem => by
      rcases mem_append.mp hmem with hmem | hmem
      · exact lt_irrefl _ (hbelow _ hmem)
      · exact lt_irrefl _ (habove _ hmem)
    rw [MultiMap.add, hvalues]
    exact hm.insert hbelow habove (by simp)

theorem Removed.listedBy {key : K} {rowId : ℕ} {es es' : List (K × List ℕ)}
    (h : Removed key rowId es es') (hm : m.ListedBy es) : (m.remove key rowId).ListedBy es' := by
  cases h with
  | absent hnone hes' =>
    subst hes'
    rw [MultiMap.remove, hm.values_eq_nil hnone, filter_nil]
    exact hm.set_nil hnone
  | kept A B ids hes hleft hes' =>
    subst hes hes'
    have hvalues := hm.values_eq (mem_append_right A (mem_cons_self (a := (key, ids))))
    rw [MultiMap.remove, hvalues]
    exact hm.replace hleft
  | gone A B ids hes hnone hes' =>
    subst hes hes'
    have hvalues := hm.values_eq (mem_append_right A (mem_cons_self (a := (key, ids))))
    rw [MultiMap.remove, hvalues, hnone]
    exact hm.erase

/-- A call keeps the index and the map together. -/
theorem StandsFor.run (h : s.StandsFor m) (op : BTreeOp K) :
    ∃ s', op.run s = .ok ⟨⟩ s' ∧ s'.StandsFor (op.apply m) ∧
      s'.maxKeysPerNode = s.maxKeysPerNode := by
  obtain ⟨hcap, n, t, hs, hm⟩ := h
  cases op with
  | insert key rowId =>
    obtain ⟨n', t', s', hrun, hs', hmax, hins⟩ := insert_spec hcap hs key rowId
    exact ⟨s', hrun, ⟨hmax ▸ hcap, n', t', hs', hins.listedBy hm⟩, hmax⟩
  | remove key rowId =>
    obtain ⟨n', t', s', hrun, hs', hmax, hremoved⟩ := remove_spec hcap hs key rowId
    exact ⟨s', hrun, ⟨hmax ▸ hcap, n', t', hs', hremoved.listedBy hm⟩, hmax⟩
  | clear => exact ⟨_, rfl, standsFor_empty hcap, rfl⟩

theorem StandsFor.runAll (h : s.StandsFor m) (ops : List (BTreeOp K)) :
    ∃ s', BTreeOp.runAll ops s = .ok ⟨⟩ s' ∧
      s'.StandsFor (ops.foldl (fun m op => op.apply m) m) ∧
      s'.maxKeysPerNode = s.maxKeysPerNode := by
  induction ops generalizing s m with
  | nil => exact ⟨s, rfl, h, rfl⟩
  | cons op ops ih =>
    obtain ⟨s₁, hrun, hs₁, hmax₁⟩ := h.run op
    obtain ⟨s', hrest, hs', hmax'⟩ := ih hs₁
    refine ⟨s', ?_, hs', hmax'.trans hmax₁⟩
    rw [BTreeOp.runAll, forM_cons_run, bind_of_ok hrun]
    exact hrest

theorem StandsFor.find_eq (h : s.StandsFor m) (key : K) : s.find key = .ok (m.values key) := by
  obtain ⟨-, n, t, hs, hm⟩ := h
  obtain ⟨hfound, hnone⟩ := BTreePages.find_eq hs.laid hs.ids hs.ordered hs.rooted key
  by_cases hkey : m.values key = []
  · rw [hkey]
    refine hnone fun ids hmem => ?_
    exact (m.mem_keys key).mp ((hm.mem_iff key ids).mp hmem).1 hkey
  · exact hfound _ ((hm.mem_iff _ _).mpr ⟨(m.mem_keys key).mpr hkey, rfl⟩)

theorem StandsFor.lessThan_eq (h : s.StandsFor m) (key : K) :
    s.lessThan key = .ok (m.below key) := by
  obtain ⟨-, n, t, hs, hm⟩ := h
  rw [BTreePages.lessThan_eq hs.laid hs.ids hs.ordered hs.rooted key, MultiMap.below,
    ← hm.flatMap_filter]

theorem StandsFor.greaterThan_eq (h : s.StandsFor m) (key : K) :
    s.greaterThan key = .ok (m.above key) := by
  obtain ⟨-, n, t, hs, hm⟩ := h
  rw [BTreePages.greaterThan_eq hs.laid hs.ids hs.ordered hs.rooted key, MultiMap.above,
    ← hm.flatMap_filter]

theorem StandsFor.size_eq (h : s.StandsFor m) : s.size = m.keys.card := by
  obtain ⟨-, n, t, hs, hm⟩ := h
  rw [size, hs.count, hm.length_eq]

end BTreePages

/-- After any sequence of calls the index answers as the map does: `find` with the row ids of the
key in the order of their insertion, `lessThan` and `greaterThan` with the lists of the keys below
or above in the order of the keys, and `size` with the number of keys. -/
theorem btree_agrees_with_map (capacity : ℕ) (hcap : 2 ≤ capacity) (ops : List (BTreeOp K)) :
    ∃ s₀ s : BTreePages K, BTreePages.create capacity = .ok s₀ ∧
      BTreeOp.runAll ops s₀ = .ok ⟨⟩ s ∧
      (∀ key, s.find key = .ok ((BTreeOp.reference ops).values key)) ∧
      (∀ key, s.lessThan key = .ok ((BTreeOp.reference ops).below key)) ∧
      (∀ key, s.greaterThan key = .ok ((BTreeOp.reference ops).above key)) ∧
      s.size = (BTreeOp.reference ops).keys.card := by
  obtain ⟨s, hrun, hs, -⟩ := (BTreePages.standsFor_empty hcap).runAll ops
  exact ⟨_, s, BTreePages.create_ok hcap, hrun, hs.find_eq, hs.lessThan_eq, hs.greaterThan_eq,
    hs.size_eq⟩

/-- Five insertions and two removals with two keys to a node. -/
def smallRun : List (BTreeOp ℕ) :=
  [.insert 5 0, .insert 1 1, .insert 9 2, .insert 3 3, .insert 1 4, .remove 5 0, .remove 9 7]

theorem btree_agrees_on_smallRun :
    2 ≤ 2 ∧ ∃ s₀ s : BTreePages ℕ, BTreePages.create 2 = .ok s₀ ∧
      BTreeOp.runAll smallRun s₀ = .ok ⟨⟩ s ∧
      (∀ key, s.find key = .ok ((BTreeOp.reference smallRun).values key)) ∧
      (∀ key, s.lessThan key = .ok ((BTreeOp.reference smallRun).below key)) ∧
      (∀ key, s.greaterThan key = .ok ((BTreeOp.reference smallRun).above key)) ∧
      s.size = (BTreeOp.reference smallRun).keys.card :=
  ⟨le_rfl, btree_agrees_with_map 2 le_rfl smallRun⟩

/-- After any sequence of calls the pages of the index are well formed, and no lookup misses a
page. -/
theorem btree_wellFormed (capacity : ℕ) (hcap : 2 ≤ capacity) (ops : List (BTreeOp K)) :
    ∃ s₀ s : BTreePages K, BTreePages.create capacity = .ok s₀ ∧
      BTreeOp.runAll ops s₀ = .ok ⟨⟩ s ∧ s.maxKeysPerNode = capacity ∧ s.WellFormed ∧
      ∀ key, (∃ ids, s.find key = .ok ids) ∧ (∃ ids, s.lessThan key = .ok ids) ∧
        ∃ ids, s.greaterThan key = .ok ids := by
  obtain ⟨s, hrun, hs, hmax⟩ := (BTreePages.standsFor_empty hcap).runAll ops
  obtain ⟨-, n, t, hrepresents, -⟩ := id hs
  exact ⟨_, s, BTreePages.create_ok hcap, hrun, hmax, hrepresents.wellFormed, fun key =>
    ⟨⟨_, hs.find_eq key⟩, ⟨_, hs.lessThan_eq key⟩, ⟨_, hs.greaterThan_eq key⟩⟩⟩

theorem btree_wellFormed_smallRun :
    2 ≤ 2 ∧ ∃ s₀ s : BTreePages ℕ, BTreePages.create 2 = .ok s₀ ∧
      BTreeOp.runAll smallRun s₀ = .ok ⟨⟩ s ∧ s.maxKeysPerNode = 2 ∧ s.WellFormed ∧
      ∀ key, (∃ ids, s.find key = .ok ids) ∧ (∃ ids, s.lessThan key = .ok ids) ∧
        ∃ ids, s.greaterThan key = .ok ids :=
  ⟨le_rfl, btree_wellFormed 2 le_rfl smallRun⟩

section Index

variable {value : K → Value} {key : K} {rowId : ℕ} {es es' A B : List (K × List ℕ)}

/-- The keys as values of a column, in the same order. -/
structure KeyValues (value : K → Value) : Prop where
  lt : ∀ a b, (value a).lt (value b) = decide (a < b)
  beq : ∀ a b, (value a).beq (value b) = decide (a = b)

/-- The entries of the leaves, with the keys as values of a column. -/
def columnEntries (value : K → Value) (es : List (K × List ℕ)) : List (Value × List ℕ) :=
  es.map fun entry => (value entry.1, entry.2)

/-- Insertions into the ordered index of a table. -/
def insertColumn (value : K → Value) (index : BTreeIndex) (inserts : List (K × ℕ)) : BTreeIndex :=
  inserts.foldl (fun index entry => index.insert (value entry.1) entry.2) index

namespace KeyValues

theorem insertEntry_append (h : KeyValues value) (hA : ∀ entry ∈ A, entry.1 < key) :
    BTreeIndex.insertEntry (value key) rowId (columnEntries value (A ++ B)) =
      columnEntries value A ++ BTreeIndex.insertEntry (value key)
        rowId (columnEntries value B) := by
  induction A with
  | nil => rfl
  | cons entry A ih =>
    obtain ⟨hentry, hA⟩ := forall_mem_cons.mp hA
    have hrest := ih hA
    simp only [columnEntries, cons_append, map_cons] at hrest ⊢
    rw [insertEntry, if_pos (by simpa [h.lt] using hentry), hrest]

theorem insertEntry_inserted (h : KeyValues value) (hsorted : (es.map Prod.fst).Pairwise (· < ·))
    (hins : BTreePages.Inserted key rowId es es') :
    BTreeIndex.insertEntry (value key) rowId (columnEntries value es) =
      columnEntries value es' := by
  cases hins with
  | old A B ids hes hes' =>
    subst hes hes'
    rw [h.insertEntry_append (MultiMap.ListedBy.ne_of_sorted hsorted).1]
    simp [columnEntries, insertEntry, h.lt, h.beq]
  | new A B hes hbelow habove hes' =>
    subst hes hes'
    rw [h.insertEntry_append hbelow]
    cases B with
    | nil => simp [columnEntries, insertEntry]
    | cons entry B =>
      have hlt := habove entry mem_cons_self
      simp [columnEntries, insertEntry, h.lt, h.beq, hlt.not_gt, hlt.ne']

theorem find_mem (h : KeyValues value) (hA : ∀ entry ∈ A, entry.1 < key) (ids : List ℕ)
    (dirty : Bool) :
    BTreeIndex.find ⟨columnEntries value (A ++ (key, ids) :: B), dirty⟩ (value key) = ids := by
  have hfind : (columnEntries value (A ++ (key, ids) :: B)).find?
      (fun entry => !entry.1.lt (value key)) = some (value key, ids) := by
    induction A with
    | nil => simp [columnEntries, h.lt]
    | cons entry A ih =>
      obtain ⟨hentry, hA⟩ := forall_mem_cons.mp hA
      rw [columnEntries, cons_append, map_cons, find?_cons_of_neg]
      · exact ih hA
      · simpa [h.lt] using hentry
  simp only [find, hfind, h.beq, decide_true, if_true]

theorem find_not_mem (h : KeyValues value) (hnone : ∀ ids, (key, ids) ∉ es) (dirty : Bool) :
    BTreeIndex.find ⟨columnEntries value es, dirty⟩ (value key) = [] := by
  simp only [find]
  cases hfind : (columnEntries value es).find? (fun entry => !entry.1.lt (value key)) with
  | none => rfl
  | some entry =>
    obtain ⟨⟨k, ids⟩, hmem, rfl⟩ := mem_map.mp (mem_of_find?_eq_some hfind)
    have hne : k ≠ key := fun hk => hnone ids (hk ▸ hmem)
    simp [h.beq, hne]

theorem lessThan_columnEntries (h : KeyValues value) (hsorted : (es.map Prod.fst).Pairwise (· < ·))
    (key : K) (dirty : Bool) :
    BTreeIndex.lessThan ⟨columnEntries value es, dirty⟩ (value key) =
      (es.filter fun entry => decide (entry.1 < key)).flatMap Prod.snd := by
  rw [← BTreePages.takeWhile_eq_filter hsorted]
  simp only [lessThan, columnEntries, takeWhile_map, flatMap_map]
  simp only [Function.comp_def, h.lt]

theorem greaterThan_columnEntries (h : KeyValues value)
    (hsorted : (es.map Prod.fst).Pairwise (· < ·)) (key : K) (dirty : Bool) :
    BTreeIndex.greaterThan ⟨columnEntries value es, dirty⟩ (value key) =
      (es.filter fun entry => decide (key < entry.1)).flatMap Prod.snd := by
  rw [← BTreePages.dropWhile_eq_filter hsorted]
  simp only [greaterThan, columnEntries, dropWhile_map, flatMap_map]
  simp only [Function.comp_def, h.lt]

end KeyValues

/-- The keys of an integer column, in the order of the integers. -/
theorem keyValues_int :
    @KeyValues Int64 (LinearOrder.lift' Int64.toInt fun _ _ => Int64.toInt_inj.mp) Value.int := by
  let _ : LinearOrder Int64 := LinearOrder.lift' Int64.toInt fun _ _ => Int64.toInt_inj.mp
  refine ⟨fun a b => decide_eq_decide.mpr Int64.lt_iff_toInt_lt, fun a b => ?_⟩
  rw [Value.beq]
  by_cases h : a = b <;> simp [h]

/-- The insertions on the pages, and on the index that tables use. -/
theorem BTreePages.Represents.insertAll (h : KeyValues value) {s : BTreePages K} {n : ℕ}
    {t : BTree K n} (hcap : 2 ≤ s.maxKeysPerNode) (hs : s.Represents t) {index : BTreeIndex}
    (hidx : index.entries = columnEntries value t.entries) (inserts : List (K × ℕ)) :
    ∃ (n' : ℕ) (t' : BTree K n') (s' : BTreePages K),
      BTreeOp.runAll (inserts.map fun entry => .insert entry.1 entry.2) s = .ok ⟨⟩ s' ∧
      s'.Represents t' ∧
      (insertColumn value index inserts).entries = columnEntries value t'.entries := by
  induction inserts generalizing s n t index with
  | nil => exact ⟨n, t, s, rfl, hs, hidx⟩
  | cons entry inserts ih =>
    obtain ⟨n₁, t₁, s₁, hrun, hs₁, hmax, hins⟩ := insert_spec hcap hs entry.1 entry.2
    have hidx₁ : (index.insert (value entry.1) entry.2).entries = columnEntries value
        t₁.entries := by
      rw [BTreeIndex.insert, hidx]
      exact h.insertEntry_inserted (sorted_entries hs.ordered) hins
    obtain ⟨n', t', s', hrest, hs', hidx'⟩ := ih (hmax ▸ hcap) hs₁ hidx₁
    refine ⟨n', t', s', ?_, hs', hidx'⟩
    rw [map_cons, BTreeOp.runAll, forM_cons_run]
    exact (bind_of_ok hrun).trans hrest

/-- The pages of an ordered index that rows were inserted into answer as the ordered index of a
table does. -/
theorem btree_agrees_with_index (h : KeyValues value) (capacity : ℕ) (hcap : 2 ≤ capacity)
    (inserts : List (K × ℕ)) :
    ∃ s : BTreePages K,
      BTreeOp.runAll (inserts.map fun entry => .insert entry.1 entry.2)
        (BTreePages.empty capacity) =
        .ok ⟨⟩ s ∧
      ∀ key,
        s.find key = .ok ((insertColumn value {} inserts).find (value key)) ∧
        s.lessThan key = .ok ((insertColumn value {} inserts).lessThan (value key)) ∧
        s.greaterThan key = .ok ((insertColumn value {} inserts).greaterThan (value key)) := by
  have hempty : ({} : BTreeIndex).entries = columnEntries value (BTree.leaf 1 []).entries := rfl
  obtain ⟨n, t, s, hrun, hs, hidx⟩ := BTreePages.Represents.insertAll h
    (s := BTreePages.empty capacity) hcap (BTreePages.represents_empty capacity) hempty inserts
  refine ⟨s, hrun, fun key => ?_⟩
  generalize insertColumn value {} inserts = index at *
  obtain ⟨entries, dirty⟩ := index
  subst hidx
  have hsorted := BTreePages.sorted_entries hs.ordered
  obtain ⟨hfound, hnone⟩ := BTreePages.find_eq hs.laid hs.ids hs.ordered hs.rooted key
  refine ⟨?_, ?_, ?_⟩
  · by_cases hmem : ∃ ids, (key, ids) ∈ t.entries
    · obtain ⟨ids, hmem⟩ := hmem
      rw [hfound ids hmem]
      obtain ⟨A, B, hsplit⟩ := append_of_mem hmem
      rw [hsplit] at hsorted ⊢
      rw [h.find_mem (MultiMap.ListedBy.ne_of_sorted hsorted).1]
    · rw [hnone fun ids hids => hmem ⟨ids, hids⟩, h.find_not_mem fun ids hids => hmem ⟨ids, hids⟩]
  · rw [BTreePages.lessThan_eq hs.laid hs.ids hs.ordered hs.rooted,
      h.lessThan_columnEntries hsorted]
  · rw [BTreePages.greaterThan_eq hs.laid hs.ids hs.ordered hs.rooted,
      h.greaterThan_columnEntries hsorted]

/-- Seven rows of an integer column, one of them with a key that is there already. At capacity 2 the
leaves are split, and the root above them. -/
theorem btree_agrees_on_integers :
    let _ : LinearOrder Int64 := LinearOrder.lift' Int64.toInt fun _ _ => Int64.toInt_inj.mp
    let inserts : List (Int64 × ℕ) := [(3, 0), (1, 1), (-2, 2), (7, 3), (5, 4), (1, 5), (9, 6)]
    ∃ s : BTreePages Int64,
      BTreeOp.runAll (inserts.map fun entry => .insert entry.1 entry.2) (BTreePages.empty 2) =
        .ok ⟨⟩ s ∧
      s.find 1 = .ok [1, 5] ∧ s.lessThan 3 = .ok [2, 1, 5] ∧ s.greaterThan 3 = .ok [4, 3, 6] := by
  intro _ inserts
  obtain ⟨s, hrun, hs⟩ := btree_agrees_with_index keyValues_int 2 le_rfl inserts
  have hindex : (insertColumn Value.int {} inserts).find (.int 1) = [1, 5] ∧
      (insertColumn Value.int {} inserts).lessThan (.int 3) = [2, 1, 5] ∧
      (insertColumn Value.int {} inserts).greaterThan (.int 3) = [4, 3, 6] := by
    decide +kernel
  refine ⟨s, hrun, ?_, ?_, ?_⟩
  · rw [(hs 1).1]
    exact congrArg _ hindex.1
  · rw [(hs 3).2.1]
    exact congrArg _ hindex.2.1
  · rw [(hs 3).2.2]
    exact congrArg _ hindex.2.2

end Index

end VertexDB
