import VertexDB.Transaction.Interleaving

/-!
# What a successful commit has checked

The conflict sets of the transaction manager in any order of events: transactions begin, record what
they read and write, commit and roll back, and autocommit statements commit and record their writes.
The sets of committed transactions are pruned by every commit and rollback, but not those after the
snapshot of an active transaction: the manager answers like one that never prunes. The latter has
all records, so that a commit that succeeds has no conflict with any transaction that committed
between its BEGIN and itself.

## Main definitions

* `SsiRecord.ConflictsWith`: the two records are a conflict.
* `TransactionManager.Follows`: the managers differ in sets that no active transaction needs.
* `SsiHistory`: the manager with all that was recorded.

## Main results

* `TransactionManager.Follows.step`, `TransactionManager.Follows.run`.
* `SsiHistory.Kept.step`, `SsiHistory.Kept.run`: the manager without pruning keeps every record.
-/

namespace VertexDB

open Exec TransactionManager
open Std (ExtTreeMap ExtTreeSet)
open Std.ExtTreeMap (mem_iff_isSome_getElem? getElem?_eq_none getElem?_insertIfNew getElem?_insert)

/-- What a transaction reports to the manager. -/
inductive SsiRecord where
  | read (relation : String) (rowId : ℕ)
  | write (relation : String) (rowId : ℕ)
  | predicate (predicate : SsiPredicate)
  | insert (insert : SsiInsert)
  deriving DecidableEq, Repr

namespace SsiRecord

/-- The record of a transaction that committed meanwhile conflicts with one of the transaction that
commits. -/
inductive ConflictsWith : SsiRecord → SsiRecord → Prop where
  | writeRead (relation : String) (rowId : ℕ) :
      ConflictsWith (.write relation rowId) (.read relation rowId)
  | writeWrite (relation : String) (rowId : ℕ) :
      ConflictsWith (.write relation rowId) (.write relation rowId)
  | insertPredicate {i : SsiInsert} {p : SsiPredicate} (h : insertMatchesPredicate i p = true) :
      ConflictsWith (.insert i) (.predicate p)
  | predicateInsert {i : SsiInsert} {p : SsiPredicate} (h : insertMatchesPredicate i p = true) :
      ConflictsWith (.predicate p) (.insert i)

/-- The record is about a row that is written. -/
def isWrite : SsiRecord → Bool
  | read _ _ => false
  | write _ _ => true
  | predicate _ => false
  | insert _ => true

end SsiRecord

variable {t : Transaction}

namespace TransactionManager

variable {m m' : TransactionManager} {id seq : ℕ} {r : SsiRecord}

/-- The call of the manager that makes the record. -/
def record (m : TransactionManager) (id : ℕ) : SsiRecord → TransactionManager
  | .read relation rowId => m.recordRead id relation rowId
  | .write relation rowId => m.recordWrite id relation rowId
  | .predicate predicate => m.recordPredicateRead id predicate
  | .insert insert => m.recordInsert id insert

/-- The transaction has its four conflict sets. -/
structure Tracks (m : TransactionManager) (id : ℕ) : Prop where
  reads : id ∈ m.activeReads
  writes : id ∈ m.activeWrites
  predicates : id ∈ m.activePredicateReads
  inserts : id ∈ m.activeInserts

/-- The record is in the conflict sets of an active transaction. -/
def ActiveHas (m : TransactionManager) (id : ℕ) : SsiRecord → Prop
  | .read relation rowId => ∃ keys ∈ m.activeReads[id]?, conflictKey relation rowId ∈ keys
  | .write relation rowId => ∃ keys ∈ m.activeWrites[id]?, conflictKey relation rowId ∈ keys
  | .predicate predicate => ∃ predicates ∈ m.activePredicateReads[id]?, predicate ∈ predicates
  | .insert insert => ∃ inserts ∈ m.activeInserts[id]?, insert ∈ inserts

/-- The record is in the conflict sets of a committed transaction; its reads are not kept. -/
def CommittedHas (m : TransactionManager) (seq : ℕ) : SsiRecord → Prop
  | .read _ _ => True
  | .write relation rowId =>
    ∃ keys ∈ m.committedWriteSets[seq]?, conflictKey relation rowId ∈ keys
  | .predicate predicate => ∃ predicates ∈ m.committedPredicateReads[seq]?, predicate ∈ predicates
  | .insert insert => ∃ inserts ∈ m.committedInserts[seq]?, insert ∈ inserts

theorem recorded_record (m : TransactionManager) (id : ℕ) (r : SsiRecord) :
    m.Recorded (m.record id r) := by
  cases r with
  | read relation rowId => exact recorded_recordRead ..
  | write relation rowId => exact recorded_recordWrite ..
  | predicate predicate => exact recorded_recordPredicateRead ..
  | insert insert => exact recorded_recordInsert ..

private theorem foldl_min_le {α : Type} (f : α → Option ℕ) (g : ℕ → α → ℕ) (hle : ∀ n a, g n a ≤ n)
    (hmin : ∀ n a k, f a = some k → g n a ≤ k) (l : List α) (n : ℕ) {a : α} {k : ℕ} (ha : a ∈ l)
    (hk : f a = some k) : l.foldl g n ≤ k := by
  have hmono : ∀ (l : List α) n, l.foldl g n ≤ n := by
    intro l
    induction l with
    | nil => exact fun n => le_rfl
    | cons b l ih => exact fun n => (ih _).trans (hle n b)
  induction l generalizing n with
  | nil => simp at ha
  | cons b l ih =>
    rcases List.mem_cons.mp ha with rfl | ha
    · exact (hmono l _).trans (hmin n a k hk)
    · exact ih _ ha

private theorem getElem?_filter_eq {α : Type} (sets : ExtTreeMap ℕ α) {n : ℕ} (h : n < seq) :
    (sets.filter fun k _ => decide (n < k))[seq]? = sets[seq]? := by
  simp only [ExtTreeMap.getElem?_filter, ExtTreeMap.getKey_eq, h, decide_true]
  cases sets[seq]? <;> rfl

/-- The committed conflict sets of the two managers under the number are the same. -/
structure SameAt (m k : TransactionManager) (seq : ℕ) : Prop where
  writes : m.committedWriteSets[seq]? = k.committedWriteSets[seq]?
  predicates : m.committedPredicateReads[seq]? = k.committedPredicateReads[seq]?
  inserts : m.committedInserts[seq]? = k.committedInserts[seq]?

theorem sameAt_prune (id : ℕ) (htracks : m.Tracks id) (hfind : m.find id = some t)
    (hactive : t.state = .active) (hseq : t.snapshotMaxCommitSeq < seq) :
    m.pruneCommittedConflictSets.SameAt m seq := by
  have hne : m.activeReads.isEmpty = false := by
    by_contra h
    rw [Bool.not_eq_false, ExtTreeMap.isEmpty_iff] at h
    have := htracks.reads
    simp [h] at this
  unfold pruneCommittedConflictSets
  simp only [hne, Bool.false_and, Bool.false_eq_true, if_false]
  generalize hmin : List.foldl _ m.nextCommitSeq _ = n
  have hlt : n < seq := by
    refine lt_of_le_of_lt ?_ hseq
    rw [← hmin]
    refine foldl_min_le (fun id => (m.find id).bind fun t => if t.state = .active then
      some t.snapshotMaxCommitSeq else none)
      _ (fun n id => ?_) (fun n id k hk => ?_) _ _ (a := id) ?_ ?_
    · cases m.find id with
      | none => exact le_rfl
      | some t =>
        dsimp only
        split_ifs
        · exact min_le_left _ _
        · exact le_rfl
    · obtain ⟨t, ht, hk⟩ := Option.bind_eq_some_iff.mp hk
      split_ifs at hk with hs
      rw [ht]
      simp only [hs, if_true]
      exact (min_le_right _ _).trans (Option.some.inj hk).le
    · simp [ExtTreeMap.mem_keys, htracks.reads]
    · simp [hfind, hactive]
  exact ⟨getElem?_filter_eq _ hlt, getElem?_filter_eq _ hlt, getElem?_filter_eq _ hlt⟩

theorem not_conflictsWith_of_isSerializable (hfind : m.find id = some t)
    (h : m.isSerializable id = true) (hseq : t.snapshotMaxCommitSeq < seq) {r' : SsiRecord}
    (hr : m.CommittedHas seq r) (hr' : m.ActiveHas id r') : ¬ r.ConflictsWith r' := by
  have hlater : ∀ {α : Type} {sets : ExtTreeMap ℕ α} {set : α}, sets[seq]? = some set →
      set ∈ (sets.toList.filter fun entry => decide (t.snapshotMaxCommitSeq < entry.1)).map
        Prod.snd := by
    intro α sets set hset
    exact List.mem_map.mpr ⟨(seq, set), List.mem_filter.mpr
      ⟨ExtTreeMap.mem_toList_iff_getElem?_eq_some.mpr hset, by simpa using hseq⟩, rfl⟩
  simp only [isSerializable, hfind] at h
  split_ifs at h with hactive
  simp only [Bool.and_eq_true, List.all_eq_true, Bool.not_eq_true'] at h
  obtain ⟨⟨hwrites, hinserts⟩, hpreds⟩ := h
  have hintersects : ∀ {left right : ExtTreeSet String} {k : String}, k ∈ left → k ∈ right →
      intersects left right = true := by
    intro left right k hl hr
    exact List.any_eq_true.mpr ⟨k, ExtTreeSet.mem_toList.mpr hl, ExtTreeSet.contains_iff_mem.mpr hr⟩
  have hmatches : ∀ {ps : List SsiPredicate} {is : List SsiInsert} {p : SsiPredicate}
      {i : SsiInsert}, p ∈ ps → i ∈ is →
      insertMatchesPredicate i p = true → predicateConflictsWithInserts ps is = true := by
    intro ps is p i hp hi hmatch
    exact List.any_eq_true.mpr ⟨p, hp, List.any_eq_true.mpr ⟨i, hi, hmatch⟩⟩
  rintro (⟨relation, rowId⟩ | ⟨relation, rowId⟩ | hmatch | hmatch)
  · obtain ⟨keys, hkeys, hr⟩ := hr
    obtain ⟨reads, hreads, hr'⟩ := hr'
    have hnot := (hwrites keys (hlater hkeys)).1
    rw [Option.mem_def.mp hreads, Option.getD_some, hintersects hr' hr] at hnot
    cases hnot
  · obtain ⟨keys, hkeys, hr⟩ := hr
    obtain ⟨writes, hwrites', hr'⟩ := hr'
    have hnot := (hwrites keys (hlater hkeys)).2
    rw [Option.mem_def.mp hwrites', Option.getD_some, hintersects hr' hr] at hnot
    cases hnot
  · obtain ⟨inserts, hinserts', hr⟩ := hr
    obtain ⟨predicates, hpreds', hr'⟩ := hr'
    have hnot := hinserts inserts (hlater hinserts')
    rw [Option.mem_def.mp hpreds', Option.getD_some, hmatches hr' hr hmatch] at hnot
    cases hnot
  · obtain ⟨predicates, hpreds', hr⟩ := hr
    obtain ⟨inserts, hinserts', hr'⟩ := hr'
    have hnot := hpreds predicates (hlater hpreds')
    rw [Option.mem_def.mp hinserts', Option.getD_some, hmatches hr hr' hmatch] at hnot
    cases hnot
section Growth

variable {κ β : Type} [Membership κ β]

/-- Every set of a map is part of the set that the other map has in its place. -/
def SetsLe (sets sets' : ExtTreeMap ℕ β) : Prop :=
  ∀ i : ℕ, ∀ set ∈ sets[i]?, ∃ set' ∈ sets'[i]?, ∀ x ∈ set, x ∈ set'

theorem SetsLe.refl (sets : ExtTreeMap ℕ β) : SetsLe sets sets :=
  fun _ set h => ⟨set, h, fun _ hx => hx⟩

theorem setsLe_insert {sets : ExtTreeMap ℕ β} {i : ℕ} {new : β}
    (h : ∀ old ∈ sets[i]?, ∀ x ∈ old, x ∈ new) : SetsLe sets (sets.insert i new) := by
  intro j set hset
  by_cases hij : i = j
  · subst hij
    exact ⟨new, by simp, h set hset⟩
  · exact ⟨set, by simpa [getElem?_insert, hij] using hset, fun _ hx => hx⟩

theorem SetsLe.exists_mem {sets sets' : ExtTreeMap ℕ β} (h : SetsLe sets sets') {i : ℕ} {x : κ}
    (hx : ∃ set ∈ sets[i]?, x ∈ set) : ∃ set ∈ sets'[i]?, x ∈ set := by
  obtain ⟨set, hset, hx⟩ := hx
  obtain ⟨set', hset', hle⟩ := h i set hset
  exact ⟨set', hset', hle x hx⟩

theorem SetsLe.mem {sets sets' : ExtTreeMap ℕ β} (h : SetsLe sets sets') {i : ℕ}
    (hi : i ∈ sets) : i ∈ sets' := by
  obtain ⟨set, hset⟩ := Option.isSome_iff_exists.mp (mem_iff_isSome_getElem?.mp hi)
  obtain ⟨set', hset', -⟩ := h i set hset
  exact mem_iff_isSome_getElem?.mpr (by rw [Option.mem_def.mp hset']; rfl)

end Growth

/-- The conflict sets of `m` are part of those of `m'`. -/
structure Grows (m m' : TransactionManager) : Prop where
  reads : SetsLe m.activeReads m'.activeReads
  writes : SetsLe m.activeWrites m'.activeWrites
  predicates : SetsLe m.activePredicateReads m'.activePredicateReads
  inserts : SetsLe m.activeInserts m'.activeInserts
  committedWrites : SetsLe m.committedWriteSets m'.committedWriteSets
  committedPredicates : SetsLe m.committedPredicateReads m'.committedPredicateReads
  committedInserts : SetsLe m.committedInserts m'.committedInserts

namespace Grows

theorem refl (m : TransactionManager) : m.Grows m :=
  ⟨.refl _, .refl _, .refl _, .refl _, .refl _, .refl _, .refl _⟩

theorem tracks (h : m.Grows m') (hm : m.Tracks id) : m'.Tracks id :=
  ⟨h.reads.mem hm.reads, h.writes.mem hm.writes, h.predicates.mem hm.predicates,
    h.inserts.mem hm.inserts⟩

theorem activeHas (h : m.Grows m') (hr : m.ActiveHas id r) : m'.ActiveHas id r := by
  cases r with
  | read relation rowId => exact h.reads.exists_mem hr
  | write relation rowId => exact h.writes.exists_mem hr
  | predicate predicate => exact h.predicates.exists_mem hr
  | insert insert => exact h.inserts.exists_mem hr

theorem committedHas (h : m.Grows m') (hr : m.CommittedHas seq r) : m'.CommittedHas seq r := by
  cases r with
  | read relation rowId => trivial
  | write relation rowId => exact h.committedWrites.exists_mem hr
  | predicate predicate => exact h.committedPredicates.exists_mem hr
  | insert insert => exact h.committedInserts.exists_mem hr

end Grows

theorem grows_recordRead (m : TransactionManager) (id : ℕ) (relation : String) (rowId : ℕ) :
    m.Grows (m.recordRead id relation rowId) := by
  unfold recordRead
  split_ifs
  · exact .refl m
  · split
    · exact .refl m
    · next reads hreads =>
      refine { Grows.refl m with reads := setsLe_insert fun old hold key hkey => ?_ }
      obtain rfl := Option.mem_unique hold hreads
      exact ExtTreeSet.mem_insert.mpr (Or.inr hkey)

theorem grows_recordWrite (m : TransactionManager) (id : ℕ) (relation : String) (rowId : ℕ) :
    m.Grows (m.recordWrite id relation rowId) := by
  unfold recordWrite
  split_ifs
  · exact .refl m
  · dsimp only
    split
    · next writes hwrites =>
      refine { Grows.refl m with writes := setsLe_insert fun old hold key hkey => ?_ }
      obtain rfl := Option.mem_unique hold hwrites
      exact ExtTreeSet.mem_insert.mpr (Or.inr hkey)
    · split
      · refine { Grows.refl m with committedWrites := setsLe_insert fun old hold key hkey => ?_ }
        rw [Option.mem_def.mp hold, Option.getD_some]
        exact ExtTreeSet.mem_insert.mpr (Or.inr hkey)
      · exact .refl m

theorem grows_recordPredicateRead (m : TransactionManager) (id : ℕ) (predicate : SsiPredicate) :
    m.Grows (m.recordPredicateRead id predicate) := by
  unfold recordPredicateRead
  split_ifs
  · exact .refl m
  · split
    · exact .refl m
    · next predicates hpreds =>
      refine { Grows.refl m with predicates := setsLe_insert fun old hold p hp => ?_ }
      obtain rfl := Option.mem_unique hold hpreds
      exact List.mem_append_left _ hp

theorem grows_recordInsert (m : TransactionManager) (id : ℕ) (insert : SsiInsert) :
    m.Grows (m.recordInsert id insert) := by
  unfold recordInsert
  split_ifs
  · exact .refl m
  · split
    · next inserts hinserts =>
      refine { Grows.refl m with inserts := setsLe_insert fun old hold i hi => ?_ }
      obtain rfl := Option.mem_unique hold hinserts
      exact List.mem_append_left _ hi
    · split
      · refine { Grows.refl m with committedInserts := setsLe_insert fun old hold i hi => ?_ }
        rw [Option.mem_def.mp hold, Option.getD_some]
        exact List.mem_append_left _ hi
      · exact .refl m

theorem grows_record (m : TransactionManager) (id : ℕ) (r : SsiRecord) :
    m.Grows (m.record id r) := by
  cases r with
  | read relation rowId => exact grows_recordRead ..
  | write relation rowId => exact grows_recordWrite ..
  | predicate predicate => exact grows_recordPredicateRead ..
  | insert insert => exact grows_recordInsert ..

/-- A transaction with its conflict sets finds its records in them. -/
theorem activeHas_record (hid : id ≠ systemTransactionId) (hm : m.Tracks id) (r : SsiRecord) :
    (m.record id r).ActiveHas id r := by
  obtain ⟨reads, hreads⟩ := Option.isSome_iff_exists.mp (mem_iff_isSome_getElem?.mp hm.reads)
  obtain ⟨writes, hwrites⟩ := Option.isSome_iff_exists.mp (mem_iff_isSome_getElem?.mp hm.writes)
  obtain ⟨predicates, hpreds⟩ := Option.isSome_iff_exists.mp
    (mem_iff_isSome_getElem?.mp hm.predicates)
  obtain ⟨inserts, hinserts⟩ := Option.isSome_iff_exists.mp (mem_iff_isSome_getElem?.mp hm.inserts)
  cases r with
  | read relation rowId => simp [record, recordRead, ActiveHas, hid, hreads]
  | write relation rowId => simp [record, recordWrite, ActiveHas, hid, hwrites]
  | predicate predicate => simp [record, recordPredicateRead, ActiveHas, hid, hpreds]
  | insert insert => simp [record, recordInsert, ActiveHas, hid, hinserts]

/-- A transaction that has committed finds the records of its writes in the committed sets. -/
theorem committedHas_record (hid : id ≠ systemTransactionId) (hfind : m.find id = some t)
    (hcom : t.state = .committed) (hseq : t.commitSeq = some seq) (hwrites : id ∉ m.activeWrites)
    (hinserts : id ∉ m.activeInserts) (hr : r.isWrite = true) :
    (m.record id r).CommittedHas seq r := by
  obtain ⟨tid, state, commitSeq, snapshot⟩ := t
  obtain rfl : state = .committed := hcom
  obtain rfl : commitSeq = some seq := hseq
  have hw := getElem?_eq_none hwrites
  have hi := getElem?_eq_none hinserts
  cases r with
  | read relation rowId => cases hr
  | write relation rowId => simp [record, recordWrite, CommittedHas, hid, hfind, hw]
  | predicate predicate => cases hr
  | insert insert => simp [record, recordInsert, CommittedHas, hid, hfind, hi]

section Ends

theorem tracks_begin : m.begin.2.Tracks id ↔ m.nextId = id ∨ m.Tracks id := by
  by_cases h : m.nextId = id
  · exact ⟨fun _ => Or.inl h, fun _ => ⟨by simp [begin, h], by simp [begin, h], by simp [begin, h],
      by simp [begin, h]⟩⟩
  · constructor
    · rintro ⟨hr, hw, hp, hi⟩
      simp only [begin, ExtTreeMap.mem_insert, compare_eq_iff_eq, h, false_or] at hr hw hp hi
      exact Or.inr ⟨hr, hw, hp, hi⟩
    · rintro (h' | ⟨hr, hw, hp, hi⟩)
      · exact absurd h' h
      · exact ⟨by simp [begin, hr], by simp [begin, hw], by simp [begin, hp], by simp [begin, hi]⟩

theorem activeHas_begin (h : m.nextId ≠ id) : m.begin.2.ActiveHas id r ↔ m.ActiveHas id r := by
  cases r <;> simp [begin, ActiveHas, getElem?_insert, h]

theorem tracks_prune : m.pruneCommittedConflictSets.Tracks id ↔ m.Tracks id := by
  unfold pruneCommittedConflictSets
  split_ifs <;> exact ⟨fun h => ⟨h.1, h.2, h.3, h.4⟩, fun h => ⟨h.1, h.2, h.3, h.4⟩⟩

theorem Tracks.dropActive {k : ℕ} (hm : m.Tracks id) (h : k ≠ id) : (m.dropActive k).Tracks id :=
  ⟨by simp [TransactionManager.dropActive, hm.reads, h],
    by simp [TransactionManager.dropActive, hm.writes, h],
    by simp [TransactionManager.dropActive, hm.predicates, h],
    by simp [TransactionManager.dropActive, hm.inserts, h]⟩

theorem activeHas_dropActive {k : ℕ} (h : k ≠ id) :
    (m.dropActive k).ActiveHas id r ↔ m.ActiveHas id r := by
  cases r <;> simp [dropActive, ActiveHas, ExtTreeMap.getElem?_erase, h]

theorem exists_mem_emplaceSet {α κ : Type} [Membership κ α] {sets : ExtTreeMap ℕ α} {k : ℕ} {x : κ}
    (set? : Option α) (nonempty : α → Bool) (h : ∃ set ∈ sets[k]?, x ∈ set) :
    ∃ set ∈ (emplaceSet sets seq set? nonempty)[k]?, x ∈ set := by
  obtain ⟨set, hset, hx⟩ := h
  refine ⟨set, ?_, hx⟩
  have hmem : k ∈ sets := mem_iff_isSome_getElem?.mpr (by
    rw [Option.mem_def.mp hset]
    rfl)
  unfold emplaceSet
  split
  · split_ifs
    · rw [getElem?_insertIfNew, if_neg]
      · exact hset
      · rintro ⟨heq, hnot⟩
        exact hnot (compare_eq_iff_eq.mp heq ▸ hmem)
    · exact hset
  · exact hset

theorem exists_mem_emplaceSet_self {α κ : Type} [Membership κ α] {sets : ExtTreeMap ℕ α} {x : κ}
    {set? : Option α} {nonempty : α → Bool} (hnew : seq ∉ sets)
    (hnonempty : ∀ set : α, x ∈ set → nonempty set = true) (h : ∃ set ∈ set?, x ∈ set) :
    ∃ set ∈ (emplaceSet sets seq set? nonempty)[seq]?, x ∈ set := by
  obtain ⟨set, rfl, hx⟩ := h
  refine ⟨set, ?_, hx⟩
  simp only [emplaceSet, hnonempty set hx, if_true, Option.mem_def]
  rw [getElem?_insertIfNew, if_pos ⟨compare_eq_iff_eq.mpr rfl, hnew⟩]

private theorem not_isEmpty_of_mem {keys : ExtTreeSet String} {key : String} (h : key ∈ keys) :
    (!keys.isEmpty) = true := by
  rw [Bool.not_eq_true', Bool.eq_false_iff, ne_eq, ExtTreeSet.isEmpty_iff]
  rintro rfl
  exact ExtTreeSet.not_mem_empty h

end Ends

/-! ### A manager that never prunes -/

variable {k : TransactionManager}

/-- `m` with the committed conflict sets of `k`. -/
def withSetsOf (m k : TransactionManager) : TransactionManager :=
  { m with
    committedWriteSets := k.committedWriteSets
    committedPredicateReads := k.committedPredicateReads
    committedInserts := k.committedInserts }

/-- `markRolledBack` without the pruning. -/
def keepRolledBack (m : TransactionManager) (t : Transaction) : TransactionManager :=
  { m with transactions := m.transactions.insert t.id { t with state := .rolledBack } }.dropActive
    t.id

/-- The records of a transaction that commits are kept. -/
theorem committedHas_keepCommitted (hkeys : m.KeysLe m.nextCommitSeq) (h : m.ActiveHas t.id r) :
    (m.keepCommitted t).CommittedHas (m.nextCommitSeq + 1) r := by
  have hnew : ∀ {α : Type} (sets : ExtTreeMap ℕ α), (∀ seq ∈ sets, seq ≤ m.nextCommitSeq) →
      m.nextCommitSeq + 1 ∉ sets := fun sets hle hmem => by
    have := hle _ hmem
    omega
  cases r with
  | read relation rowId => trivial
  | write relation rowId =>
    exact exists_mem_emplaceSet_self (hnew _ hkeys.writes) (fun _ => not_isEmpty_of_mem) h
  | predicate predicate =>
    exact exists_mem_emplaceSet_self (hnew _ hkeys.predicates)
      (fun set hp => by cases set <;> simp_all) h
  | insert insert =>
    exact exists_mem_emplaceSet_self (hnew _ hkeys.inserts)
      (fun set hp => by cases set <;> simp_all) h

theorem CommittedHas.keepCommitted (t : Transaction) (h : m.CommittedHas seq r) :
    (m.keepCommitted t).CommittedHas seq r := by
  cases r with
  | read relation rowId => trivial
  | write relation rowId => exact exists_mem_emplaceSet _ _ h
  | predicate predicate => exact exists_mem_emplaceSet _ _ h
  | insert insert => exact exists_mem_emplaceSet _ _ h

/-- The managers differ in committed conflict sets only, and not in those that a transaction commits
after the snapshot of an active one. -/
structure Follows (m k : TransactionManager) : Prop where
  valid : m.Valid
  keysLe : k.KeysLe m.nextCommitSeq
  same : k = m.withSetsOf k
  tracks : ∀ id t, m.find id = some t → t.state = .active → m.Tracks id
  agree : ∀ id t seq, m.find id = some t → t.state = .active → t.snapshotMaxCommitSeq < seq →
    m.SameAt k seq

theorem isSerializable_withSetsOf (h : ∀ t seq, m.find id = some t → t.state = .active →
    t.snapshotMaxCommitSeq < seq → m.SameAt k seq) :
    (m.withSetsOf k).isSerializable id = m.isSerializable id := by
  unfold isSerializable
  rw [show (m.withSetsOf k).find id = m.find id from rfl]
  cases hfind : m.find id with
  | none => rfl
  | some t =>
    by_cases hactive : t.state = .active
    · have hlater : ∀ {α : Type} {sets sets' : ExtTreeMap ℕ α},
          (∀ seq : ℕ, t.snapshotMaxCommitSeq < seq → sets[seq]? = sets'[seq]?) →
          (sets.toList.filter fun entry => decide (t.snapshotMaxCommitSeq < entry.1)) =
            sets'.toList.filter fun entry => decide (t.snapshotMaxCommitSeq < entry.1) := by
        intro α sets sets' hsame
        have hfilter : (sets.filter fun seq _ => decide (t.snapshotMaxCommitSeq < seq)) =
            sets'.filter fun seq _ => decide (t.snapshotMaxCommitSeq < seq) := by
          refine ExtTreeMap.ext_getElem? fun seq => ?_
          by_cases hlt : t.snapshotMaxCommitSeq < seq
          · rw [getElem?_filter_eq _ hlt, getElem?_filter_eq _ hlt, hsame seq hlt]
          · simp [ExtTreeMap.getElem?_filter, hlt]
        simpa only [ExtTreeMap.toList_filter] using congrArg ExtTreeMap.toList hfilter
      simp only [hactive, ne_eq, not_true_eq_false, if_false,
        hlater fun seq hlt => (h t seq hfind hactive hlt).writes,
        hlater fun seq hlt => (h t seq hfind hactive hlt).predicates,
        hlater fun seq hlt => (h t seq hfind hactive hlt).inserts]
      rfl
    · simp [hactive]

private theorem getElem?_insert_congr {α : Type} {sets sets' : ExtTreeMap ℕ α}
    (f : Option α → α) (n : ℕ)
    (h : sets[seq]? = sets'[seq]?) :
    (sets.insert n (f sets[n]?))[seq]? = (sets'.insert n (f sets'[n]?))[seq]? := by
  by_cases hn : n = seq
  · subst hn
    simp [h]
  · simp [getElem?_insert, hn, h]

/-- A record changes the set of one commit, in both managers in the same way. -/
theorem record_withSetsOf (m k : TransactionManager) (id : ℕ) (r : SsiRecord) :
    let k' := (m.withSetsOf k).record id r
    k' = (m.record id r).withSetsOf k' ∧ ∀ seq, m.SameAt k seq → (m.record id r).SameAt k' seq := by
  cases r with
  | read relation rowId =>
    simp only [record, recordRead, withSetsOf]
    split_ifs
    · exact ⟨rfl, fun _ h => ⟨h.1, h.2, h.3⟩⟩
    · cases m.activeReads[id]? <;> exact ⟨rfl, fun _ h => ⟨h.1, h.2, h.3⟩⟩
  | predicate predicate =>
    simp only [record, recordPredicateRead, withSetsOf]
    split_ifs
    · exact ⟨rfl, fun _ h => ⟨h.1, h.2, h.3⟩⟩
    · cases m.activePredicateReads[id]? <;> exact ⟨rfl, fun _ h => ⟨h.1, h.2, h.3⟩⟩
  | write relation rowId =>
    simp only [record, recordWrite, withSetsOf, find]
    split_ifs
    · exact ⟨rfl, fun _ h => ⟨h.1, h.2, h.3⟩⟩
    · cases m.activeWrites[id]? with
      | some writes => exact ⟨rfl, fun _ h => ⟨h.1, h.2, h.3⟩⟩
      | none =>
        dsimp only
        split
        · exact ⟨rfl, fun _ h => ⟨getElem?_insert_congr
            (fun set => (set.getD ∅).insert (conflictKey relation rowId)) _ h.1, h.2, h.3⟩⟩
        · exact ⟨rfl, fun _ h => ⟨h.1, h.2, h.3⟩⟩
  | insert insert =>
    simp only [record, recordInsert, withSetsOf, find]
    split_ifs
    · exact ⟨rfl, fun _ h => ⟨h.1, h.2, h.3⟩⟩
    · cases m.activeInserts[id]? with
      | some inserts => exact ⟨rfl, fun _ h => ⟨h.1, h.2, h.3⟩⟩
      | none =>
        dsimp only
        split
        · exact ⟨rfl, fun _ h => ⟨h.1, h.2, getElem?_insert_congr
            (fun set => set.getD [] ++ [insert]) _ h.3⟩⟩
        · exact ⟨rfl, fun _ h => ⟨h.1, h.2, h.3⟩⟩

namespace Follows

section Follows

variable (h : m.Follows k)
include h

theorem find (id : ℕ) : k.find id = m.find id := by
  rw [h.same]
  rfl

theorem nextId : k.nextId = m.nextId := by
  rw [h.same]
  rfl

theorem nextCommitSeq : k.nextCommitSeq = m.nextCommitSeq := by
  rw [h.same]
  rfl

theorem valid_right : k.Valid := by
  rw [h.same]
  exact ⟨h.valid.1, h.valid.2, h.valid.3, h.keysLe.1, h.keysLe.2, h.keysLe.3⟩

theorem tracks_right (hfind : m.find id = some t) (hactive : t.state = .active) : k.Tracks id := by
  rw [h.same]
  obtain ⟨hr, hw, hp, hi⟩ := h.tracks id t hfind hactive
  exact ⟨hr, hw, hp, hi⟩

theorem record (id : ℕ) (r : SsiRecord) : (m.record id r).Follows (k.record id r) := by
  have hm := m.recorded_record id r
  obtain ⟨hsame, hagree⟩ := record_withSetsOf m k id r
  rw [← h.same] at hsame hagree
  refine ⟨hm.valid h.valid, ?_, hsame, ?_, ?_⟩
  · have hkeys := ((k.recorded_record id r).valid h.valid_right).keysLe
    rwa [hsame] at hkeys ⊢
  · rw [hm.find]
    exact fun id t hfind hactive => (m.grows_record _ r).tracks (h.tracks id t hfind hactive)
  · rw [hm.find]
    exact fun id t seq hfind hactive hlt => hagree seq (h.agree id t seq hfind hactive hlt)

theorem begin : m.begin.2.Follows k.begin.2 := by
  refine ⟨h.valid.begin, ⟨h.keysLe.1, h.keysLe.2, h.keysLe.3⟩, by rw [h.same]; rfl, ?_, ?_⟩
  all_goals simp only [find_begin]
  · intro id t hfind hactive
    rw [tracks_begin]
    split_ifs at hfind with hid
    · exact Or.inl hid
    · exact Or.inr (h.tracks id t hfind hactive)
  · intro id t seq hfind hactive hlt
    split_ifs at hfind with hid
    · obtain rfl := Option.some.inj hfind
      -- neither manager has a set above the last number given out
      have hnone : ∀ {α : Type} {sets : ExtTreeMap ℕ α}, (∀ i ∈ sets, i ≤ m.nextCommitSeq) →
          sets[seq]? = none :=
        fun hle => getElem?_eq_none fun hmem => (hle seq hmem).not_gt hlt
      exact ⟨(hnone h.valid.keysLe.1).trans (hnone h.keysLe.1).symm,
        (hnone h.valid.keysLe.2).trans (hnone h.keysLe.2).symm,
        (hnone h.valid.keysLe.3).trans (hnone h.keysLe.3).symm⟩
    · obtain ⟨hw, hp, hi⟩ := h.agree id t seq hfind hactive hlt
      exact ⟨hw, hp, hi⟩

theorem close {t' : Transaction} {m' k' : TransactionManager}
    (hcloses : m.Closes t t' m'.pruneCommittedConflictSets)
    (hvalid : m'.pruneCommittedConflictSets.Valid)
    (htracks : ∀ id, t.id ≠ id → m.Tracks id → m'.Tracks id) (hsame : k' = m'.withSetsOf k')
    (hkeys : k'.KeysLe m'.nextCommitSeq) (hagree : ∀ seq, m.SameAt k seq → m'.SameAt k' seq) :
    m'.pruneCommittedConflictSets.Follows k' := by
  have hreader : ∀ id u, m'.pruneCommittedConflictSets.find id = some u → u.state = .active →
      m.find id = some u ∧ m'.Tracks id := by
    intro id u hu hactive
    rw [hcloses.find] at hu
    split_ifs at hu with hid
    · obtain rfl := Option.some.inj hu
      exact absurd hactive hcloses.ended
    · exact ⟨hu, htracks id hid (h.tracks id u hu hactive)⟩
  refine ⟨hvalid, by rwa [nextCommitSeq_prune], ?_, fun id u hu hactive => ?_,
    fun id u seq hu hactive hlt => ?_⟩
  · rw [hsame, pruneCommittedConflictSets]
    split_ifs <;> rfl
  · exact tracks_prune.mpr (hreader id u hu hactive).2
  · obtain ⟨hfind, htracks⟩ := hreader id u hu hactive
    obtain ⟨hw, hp, hi⟩ := sameAt_prune id htracks ((find_prune m' id).symm.trans hu) hactive hlt
    obtain ⟨hw', hp', hi'⟩ := hagree seq (h.agree id u seq hfind hactive hlt)
    exact ⟨hw.trans hw', hp.trans hp', hi.trans hi'⟩

theorem markRolledBack (hfind : m.find id = some t) :
    (m.markRolledBack t).Follows (k.keepRolledBack t) := by
  refine h.close (m.closes_markRolledBack t) (h.valid.markRolledBack hfind)
    (fun id hid h => .dropActive ⟨h.1, h.2, h.3, h.4⟩ hid)
      (by rw [h.same]; rfl) ⟨h.keysLe.1, h.keysLe.2, h.keysLe.3⟩ fun seq h => ⟨h.1, h.2, h.3⟩

end Follows

theorem getElem?_emplaceSet_congr {α : Type} {sets sets' : ExtTreeMap ℕ α} (n : ℕ) (set? : Option α)
    (nonempty : α → Bool) (h : sets[seq]? = sets'[seq]?) :
    (emplaceSet sets n set? nonempty)[seq]? = (emplaceSet sets' n set? nonempty)[seq]? := by
  unfold emplaceSet
  split
  · split_ifs
    · rw [getElem?_insertIfNew, getElem?_insertIfNew, h]
      refine if_congr (and_congr_right fun heq => ?_) rfl rfl
      rw [compare_eq_iff_eq.mp heq, mem_iff_isSome_getElem?, mem_iff_isSome_getElem?, h]
    · exact h
  · exact h

theorem markCommitted (h : m.Follows k) (hfind : m.find id = some t) :
    (m.markCommitted t).Follows (k.keepCommitted t) := by
  refine h.close (m.closes_markCommitted t) (h.valid.markCommitted hfind)
    (fun id hid h => .dropActive ⟨h.1, h.2, h.3, h.4⟩ hid)
      (by rw [h.same]; rfl) ?_ fun seq hsame => ?_
  · exact h.nextCommitSeq ▸ keysLe_keepCommitted t h.valid_right.keysLe
  · rw [h.same]
    exact ⟨getElem?_emplaceSet_congr _ _ _ hsame.1, getElem?_emplaceSet_congr _ _ _ hsame.2,
      getElem?_emplaceSet_congr _ _ _ hsame.3⟩

theorem records (h : m.Follows k) (id : ℕ) (records : List SsiRecord) :
    (records.foldl (·.record id) m).Follows (records.foldl (·.record id) k) := by
  induction records generalizing m k with
  | nil => exact h
  | cons r records ih => exact ih (h.record id r)

theorem isSerializable (h : m.Follows k) (id : ℕ) : k.isSerializable id = m.isSerializable id := by
  rw [h.same]
  exact isSerializable_withSetsOf (h.agree id)

end Follows
end TransactionManager

/-- An event at the manager. -/
inductive SsiEvent where
  | begin
  | record (id : ℕ) (record : SsiRecord)
  | autocommit (records : List SsiRecord)
  | commit (id : ℕ)
  | rollback (id : ℕ)
  deriving DecidableEq, Repr

namespace TransactionManager

variable {m k : TransactionManager}

/-- The event at the manager. -/
def afterEvent (m : TransactionManager) : SsiEvent → TransactionManager
  | .begin => m.begin.2
  | .record id r => m.record id r
  | .autocommit records => records.foldl (·.record m.nextId) (state (beginCommitted m))
  | .commit id => state (commit id m)
  | .rollback id => state (rollback id m)

/-- The event at a manager that keeps all committed conflict sets. -/
def afterEventKeeping (m : TransactionManager) : SsiEvent → TransactionManager
  | .begin => m.begin.2
  | .record id r => m.record id r
  | .autocommit records => records.foldl (·.record m.nextId) (m.begin.2.keepCommitted m.begin.1)
  | .commit id =>
    match m.find id with
    | some t =>
      if t.state ≠ .active then m
      else if m.isSerializable id then m.keepCommitted t else m.keepRolledBack t
    | none => m
  | .rollback id =>
    match m.find id with
    | some t => if t.state ≠ .active then m else m.keepRolledBack t
    | none => m

/-- Every event keeps the two managers together. -/
theorem Follows.step (h : m.Follows k) (event : SsiEvent) :
    (m.afterEvent event).Follows (k.afterEventKeeping event) := by
  cases event with
  | begin => exact h.begin
  | record id r => exact h.record id r
  | autocommit records =>
    have hbegin : k.begin.1 = m.begin.1 := by rw [h.same]; rfl
    rw [afterEvent, afterEventKeeping, beginCommitted_ok h.valid, h.nextId, hbegin]
    exact (h.begin.markCommitted m.find_begin_nextId).records _ records
  | commit id =>
    simp only [afterEvent, afterEventKeeping, h.find, h.isSerializable]
    cases hfind : m.find id with
    | none => simpa [commit, hfind] using h
    | some t =>
      by_cases hactive : t.state = .active
      · cases hser : m.isSerializable id with
        | false => simpa [commit, rollback, hfind, hactive, hser] using h.markRolledBack hfind
        | true => simpa [commit, hfind, hactive, hser] using h.markCommitted hfind
      · simpa [commit, hfind, hactive] using h
  | rollback id =>
    simp only [afterEvent, afterEventKeeping, h.find]
    cases hfind : m.find id with
    | none => simpa [rollback, hfind] using h
    | some t =>
      by_cases hactive : t.state = .active
      · simpa [rollback, hfind, hactive] using h.markRolledBack hfind
      · simpa [rollback, hfind, hactive] using h

theorem Follows.run (h : m.Follows k) (events : List SsiEvent) :
    (events.foldl afterEvent m).Follows (events.foldl afterEventKeeping k) := by
  induction events generalizing m k with
  | nil => exact h
  | cons event events ih => exact ih (h.step event)

theorem follows_new : Follows {} {} :=
  ⟨valid_new, valid_new.keysLe, rfl, by simp [find], by simp [find]⟩

/-- After any events, a transaction is serializable for the manager exactly when it is for one that
never drops a committed conflict set, and every commit has ended the same way in both. -/
theorem isSerializable_without_pruning (events : List SsiEvent) (id : ℕ) :
    let m := events.foldl afterEvent {}
    let k := events.foldl afterEventKeeping {}
    m.isSerializable id = k.isSerializable id ∧ m.find id = k.find id := by
  have h := follows_new.run events
  exact ⟨(h.isSerializable id).symm, (h.find id).symm⟩

end TransactionManager

/-- The manager and, beside it, what each transaction has recorded. -/
structure SsiHistory where
  manager : TransactionManager := {}
  recorded : ℕ → List SsiRecord := fun _ => []

/-! ### The records of a history -/

namespace SsiHistory

/-- A call that makes a record. The manager drops what a transaction has read when it is reported
after its commit, so that only the records of its writes count then. -/
def report (id : ℕ) (h : SsiHistory) (r : SsiRecord) : SsiHistory where
  manager := h.manager.record id r
  recorded :=
    if h.manager.isActive id || r.isWrite then
      Function.update h.recorded id (r :: h.recorded id)
    else h.recorded

/-- Does the event. A transaction reports records while it is active; an autocommit statement
reports those of its transaction right after that has committed. -/
def step (h : SsiHistory) : SsiEvent → SsiHistory
  | .begin => { h with manager := h.manager.begin.2 }
  | .record id r => if h.manager.isActive id then h.report id r else h
  | .autocommit records =>
    let m := state (beginCommitted h.manager)
    records.foldl (report h.manager.nextId) { h with manager := m }
  | .commit id => { h with manager := state (commit id h.manager) }
  | .rollback id => { h with manager := state (rollback id h.manager) }

/-- The history after the events. -/
def run (h : SsiHistory) (events : List SsiEvent) : SsiHistory := events.foldl step h

/-- What holds after any events, with a manager `k` that never prunes: it has the records of the
transactions that are active and of those that have committed. -/
structure Kept (h : SsiHistory) (k : TransactionManager) : Prop where
  follows : h.manager.Follows k
  system : h.manager.find systemTransactionId = none
  fresh : ∀ id, h.manager.nextId ≤ id → h.recorded id = []
  commitSeq : ∀ id t, h.manager.find id = some t → t.state = .committed →
    ∃ seq, t.commitSeq = some seq
  active : ∀ id t, h.manager.find id = some t → t.state = .active →
    ∀ r ∈ h.recorded id, k.ActiveHas id r
  committed : ∀ id t seq, h.manager.find id = some t → t.state = .committed →
    t.commitSeq = some seq → ∀ r ∈ h.recorded id, k.CommittedHas seq r

variable {h : SsiHistory} {k : TransactionManager}

theorem Kept.begin (hh : h.Kept k) : Kept { h with manager := h.manager.begin.2 } k.begin.2 := by
  have hstep := step_begin hh.follows.valid hh.system
  refine ⟨hh.follows.begin, hstep.system, fun id hid => hh.fresh id ((Nat.le_succ _).trans hid), ?_,
    ?_, ?_⟩
  all_goals simp only [find_begin]
  · intro id t hfind hstate
    split_ifs at hfind with hid
    · obtain rfl := Option.some.inj hfind
      cases hstate
    · exact hh.commitSeq id t hfind hstate
  · intro id t hfind hactive r hr
    split_ifs at hfind with hid
    · rw [hh.fresh id hid.le] at hr
      cases hr
    · exact (activeHas_begin (hh.follows.nextId ▸ hid)).mpr (hh.active id t hfind hactive r hr)
  · intro id t seq hfind hcom hseq r hr
    split_ifs at hfind with hid
    · obtain rfl := Option.some.inj hfind
      cases hcom
    · have := hh.committed id t seq hfind hcom hseq r hr
      cases r <;> exact this

theorem Kept.closes (hh : h.Kept k) {t' : Transaction} {m' k' : TransactionManager}
    (hcloses : h.manager.Closes t t' m') (hstep : h.manager.Step m') (hfollows : m'.Follows k')
    (hactive : ∀ id r, t.id ≠ id → k.ActiveHas id r → k'.ActiveHas id r)
    (hcom : ∀ seq r, k.CommittedHas seq r → k'.CommittedHas seq r)
    (hself : t'.state = .committed → ∀ r ∈ h.recorded t.id, k'.CommittedHas m'.nextCommitSeq r) :
    Kept { h with manager := m' } k' := by
  refine ⟨hfollows, hstep.system, fun id hid => hh.fresh id (hstep.nextId_le.trans hid), ?_, ?_, ?_⟩
  all_goals simp only [hcloses.find]
  · intro id u hfind hstate
    split_ifs at hfind with hid
    · obtain rfl := Option.some.inj hfind
      exact ⟨_, (hcloses.committed hstate).1⟩
    · exact hh.commitSeq id u hfind hstate
  · intro id u hfind hstate r hr
    split_ifs at hfind with hid
    · obtain rfl := Option.some.inj hfind
      exact absurd hstate hcloses.ended
    · exact hactive id r hid (hh.active id u hfind hstate r hr)
  · intro id u seq hfind hstate hseq r hr
    split_ifs at hfind with hid
    · obtain rfl := Option.some.inj hfind
      obtain rfl := Option.some.inj ((hcloses.committed hstate).1.symm.trans hseq)
      exact hself hstate r (hid ▸ hr)
    · exact hcom seq r (hh.committed id u seq hfind hstate hseq r hr)

theorem Kept.markRolledBack (hh : h.Kept k) {id : ℕ} (hfind : h.manager.find id = some t)
    (hactive : t.state = .active) :
    Kept { h with manager := h.manager.markRolledBack t } (k.keepRolledBack t) := by
  refine hh.closes (h.manager.closes_markRolledBack t)
    (step_markRolledBack hh.follows.valid hh.system hfind hactive) (hh.follows.markRolledBack hfind)
    (fun id r hid hr => (activeHas_dropActive hid).mpr ?_) (fun seq r hr => ?_) (by simp) <;>
  cases r <;> exact hr

theorem Kept.markCommitted (hh : h.Kept k) {id : ℕ} (hfind : h.manager.find id = some t)
    (hactive : t.state = .active) :
    Kept { h with manager := h.manager.markCommitted t } (k.keepCommitted t) := by
  obtain ⟨-, rfl⟩ := hh.follows.valid.find_id id t hfind
  refine hh.closes (h.manager.closes_markCommitted t)
    (step_markCommitted hh.follows.valid hh.system hfind hactive) (hh.follows.markCommitted hfind)
    (fun id r hid hr => (activeHas_dropActive hid).mpr ?_) (fun seq r hr => hr.keepCommitted t)
    fun _ r hr => ?_
  · cases r <;> exact hr
  · rw [nextCommitSeq_markCommitted, ← hh.follows.nextCommitSeq]
    exact committedHas_keepCommitted hh.follows.valid_right.keysLe
      (hh.active t.id t hfind hactive r hr)

/-- A record is kept when the sets of its transaction have it. -/
theorem Kept.report (hh : h.Kept k) {id : ℕ} (r : SsiRecord) (hfind : h.manager.find id = some t)
    (hactive : t.state = .active → (k.record id r).ActiveHas id r)
    (hcom : ∀ seq, t.state = .committed → t.commitSeq = some seq → r.isWrite = true →
      (k.record id r).CommittedHas seq r) : (h.report id r).Kept (k.record id r) := by
  have hrecorded := h.manager.recorded_record id r
  have hgrows := k.grows_record id r
  have hmem : ∀ {i r'}, r' ∈ (h.report id r).recorded i →
      r' ∈ h.recorded i ∨ i = id ∧ r' = r ∧ (h.manager.isActive id || r.isWrite) = true := by
    intro i r' hr'
    rw [SsiHistory.report] at hr'
    dsimp only at hr'
    split_ifs at hr' with hnoted
    · by_cases hi : i = id
      · subst hi
        rw [Function.update_self, List.mem_cons] at hr'
        exact hr'.symm.imp_right fun heq => ⟨rfl, heq, hnoted⟩
      · rw [Function.update_of_ne hi] at hr'
        exact Or.inl hr'
    · exact Or.inl hr'
  refine ⟨hh.follows.record id r, (congrFun hrecorded.find _).trans hh.system, ?_, ?_, ?_, ?_⟩
  · intro i hi
    have hne : i ≠ id := by
      rintro rfl
      exact absurd (hh.follows.valid.find_id i t hfind).1 (not_lt.mpr (hrecorded.nextId ▸ hi))
    rw [List.eq_nil_iff_forall_not_mem]
    intro r' hr'
    rcases hmem hr' with hr' | ⟨rfl, -⟩
    · rw [hh.fresh i (hrecorded.nextId ▸ hi)] at hr'
      cases hr'
    · exact hne rfl
  · exact fun i u hu => hh.commitSeq i u ((congrFun hrecorded.find i).symm.trans hu)
  · intro i u hu hstate r' hr'
    replace hu := (congrFun hrecorded.find i).symm.trans hu
    rcases hmem hr' with hr' | ⟨rfl, rfl, -⟩
    · exact hgrows.activeHas (hh.active i u hu hstate r' hr')
    · obtain rfl := Option.mem_unique hfind hu
      exact hactive hstate
  · intro i u seq hu hstate hseq r' hr'
    replace hu := (congrFun hrecorded.find i).symm.trans hu
    rcases hmem hr' with hr' | ⟨rfl, rfl, hnoted⟩
    · exact hgrows.committedHas (hh.committed i u seq hu hstate hseq r' hr')
    · obtain rfl := Option.mem_unique hfind hu
      refine hcom seq hstate hseq ?_
      simpa [isActive, hfind, hstate] using hnoted

/-- The transaction has committed and has no conflict sets of its own any more. -/
structure Late (m : TransactionManager) (id seq : ℕ) : Prop where
  committed : ∃ t, m.find id = some t ∧ t.state = .committed ∧ t.commitSeq = some seq
  writes : id ∉ m.activeWrites
  inserts : id ∉ m.activeInserts

theorem Late.record {m : TransactionManager} {id seq : ℕ} (hm : Late m id seq) (r : SsiRecord) :
    Late (m.record id r) id seq := by
  have hw := getElem?_eq_none hm.writes
  have hi := getElem?_eq_none hm.inserts
  refine ⟨(m.recorded_record id r).find ▸ hm.committed, ?_, ?_⟩
  all_goals
    cases r <;> simp only [TransactionManager.record, TransactionManager.recordRead,
      TransactionManager.recordWrite, TransactionManager.recordPredicateRead,
      recordInsert, hw, hi] <;> split_ifs <;> (try split)
    all_goals first | exact hm.writes | exact hm.inserts

/-- The records of an autocommit statement. -/
theorem Kept.reports (hh : h.Kept k) {id seq : ℕ} (hid : id ≠ systemTransactionId)
    (hlate : Late k id seq) (records : List SsiRecord) :
    (records.foldl (SsiHistory.report id) h).Kept (records.foldl (·.record id) k) ∧
      h.manager.Precedes (records.foldl (SsiHistory.report id) h).manager := by
  induction records generalizing h k with
  | nil => exact ⟨hh, .refl _⟩
  | cons r records ih =>
    obtain ⟨t, hfind, hcom, hseq⟩ := hlate.committed
    have hkept : (h.report id r).Kept (k.record id r) := by
      refine hh.report r (hh.follows.find id ▸ hfind)
        (fun hactive => ?_) fun seq' _ hseq' hwrite => ?_
      · rw [hcom] at hactive
        cases hactive
      · obtain rfl := Option.mem_unique hseq hseq'
        exact committedHas_record hid hfind hcom hseq hlate.writes hlate.inserts hwrite
    obtain ⟨hrest, hprecedes⟩ := ih hkept (hlate.record r)
    exact ⟨hrest, (TransactionManager.Precedes.of_recorded
      (h.manager.recorded_record id r)).trans hprecedes⟩

theorem late_keepCommitted (m : TransactionManager) (t : Transaction) :
    Late (m.keepCommitted t) t.id (m.nextCommitSeq + 1) :=
  ⟨⟨_, ExtTreeMap.getElem?_insert_self, rfl, rfl⟩, by simp [keepCommitted, dropActive],
    by simp [keepCommitted, dropActive]⟩

theorem Kept.step (hh : h.Kept k) (event : SsiEvent) :
    (∃ k', (h.step event).Kept k') ∧ h.manager.Precedes (h.step event).manager := by
  have hvalid := hh.follows.valid
  cases event with
  | begin => exact ⟨⟨_, hh.begin⟩, .begin hvalid⟩
  | record id r =>
    rw [SsiHistory.step]
    split_ifs with hactive
    · have hfind : ∃ t, h.manager.find id = some t ∧ t.state = .active := by
        unfold isActive at hactive
        split at hactive
        · next t hfind => exact ⟨t, hfind, by simpa using hactive⟩
        · cases hactive
      obtain ⟨t, hfind, hstate⟩ := hfind
      have hid : id ≠ systemTransactionId := by
        rintro rfl
        rw [hh.system] at hfind
        cases hfind
      have htracks := hh.follows.tracks_right hfind hstate
      refine ⟨⟨_, hh.report r hfind (fun _ => activeHas_record hid htracks r)
        fun seq hcom => ?_⟩, .of_recorded (h.manager.recorded_record id r)⟩
      rw [hstate] at hcom
      cases hcom
    · exact ⟨⟨_, hh⟩, .refl _⟩
  | autocommit records =>
    have hkept : Kept { h with manager := h.manager.autocommitted } _ :=
      hh.begin.markCommitted h.manager.find_begin_nextId rfl
    rw [SsiHistory.step, beginCommitted_ok hvalid]
    obtain ⟨hrest, hprecedes⟩ :=
      hkept.reports hvalid.nextId_pos.ne' (late_keepCommitted _ _) records
    exact ⟨⟨_, hrest⟩, (step_autocommitted hvalid hh.system).toPrecedes.trans hprecedes⟩
  | commit id =>
    refine ⟨?_, (step_commit hvalid hh.system id).toPrecedes⟩
    rw [SsiHistory.step]
    obtain ⟨e, heq⟩ | ⟨t, hfind, hactive, ⟨e, heq⟩ | ⟨-, heq⟩⟩ := commit_cases h.manager id
    · rw [heq]
      exact ⟨_, hh⟩
    · rw [heq]
      exact ⟨_, hh.markRolledBack hfind hactive⟩
    · rw [heq]
      exact ⟨_, hh.markCommitted hfind hactive⟩
  | rollback id =>
    refine ⟨?_, (step_rollback hvalid hh.system id).toPrecedes⟩
    rw [SsiHistory.step]
    obtain heq | ⟨t, hfind, hactive, heq⟩ := rollback_cases h.manager id
    · rw [heq]
      exact ⟨_, hh⟩
    · rw [heq]
      exact ⟨_, hh.markRolledBack hfind hactive⟩

theorem Kept.run (hh : h.Kept k) (events : List SsiEvent) :
    (∃ k', (h.run events).Kept k') ∧ h.manager.Precedes (h.run events).manager := by
  induction events generalizing h k with
  | nil => exact ⟨⟨k, hh⟩, .refl _⟩
  | cons event events ih =>
    obtain ⟨⟨k', hstep⟩, hprecedes⟩ := hh.step event
    obtain ⟨hrun, hprecedes'⟩ := ih hstep
    exact ⟨hrun, hprecedes.trans hprecedes'⟩

theorem kept_new : Kept {} {} := by
  refine ⟨follows_new, ?_, ?_, ?_, ?_, ?_⟩ <;> simp [find]

end SsiHistory

/-- After any events, a transaction that began after `before` and commits after the further events
`during` has no conflict with a transaction that committed in between: none of them wrote a row it
recorded as read or written, stored an image that matches a predicate it recorded, or recorded a
predicate that an image it stored matches. -/
theorem commit_without_conflict (before during : List SsiEvent) (m : TransactionManager) :
    let h₀ := SsiHistory.run {} before
    let T := h₀.manager.nextId
    let h := (h₀.step .begin).run during
    commit T h.manager = .ok () m →
    ∀ other, ¬ h₀.manager.IsCommitted other → h.manager.IsCommitted other →
      ∀ r ∈ h.recorded other, ∀ own ∈ h.recorded T, ¬ r.ConflictsWith own := by
  intro h₀ T h hcommit other hnot hother r hr own hown
  obtain ⟨⟨k₀, hkept₀⟩, -⟩ := SsiHistory.kept_new.run before
  obtain ⟨⟨k₁, hbegun⟩, hprecedes₁⟩ := hkept₀.step .begin
  obtain ⟨⟨k, hkept⟩, hprecedes₂⟩ := hbegun.run during
  obtain ⟨t', hfind', hcom⟩ := hother
  obtain ⟨seq, hseq⟩ := hkept.commitSeq other t' hfind' hcom
  have hlater := ((hprecedes₁.trans hprecedes₂).later other t' seq hfind' hcom hseq).resolve_left
    fun hold => hnot ⟨t', hold, hcom⟩
  obtain ⟨t, hfind, hsnap⟩ := hprecedes₂.snapshot T
    { id := T, snapshotMaxCommitSeq := h₀.manager.nextCommitSeq }
    ((find_begin _ _).trans (if_pos rfl))
  obtain ⟨hactive, hserializable⟩ : t.state = .active ∧ h.manager.isSerializable T = true := by
    obtain ⟨e, herror⟩ | ⟨u, hu, hactive, ⟨e, herror⟩ | ⟨hserializable, -⟩⟩ :=
      commit_cases h.manager T
    · rw [herror] at hcommit
      cases hcommit
    · rw [herror] at hcommit
      cases hcommit
    · exact ⟨Option.mem_unique hu hfind ▸ hactive, hserializable⟩
  rw [← hkept.follows.isSerializable] at hserializable
  exact not_conflictsWith_of_isSerializable ((hkept.follows.find T).trans hfind) hserializable
    (show t.snapshotMaxCommitSeq < seq from hsnap ▸ hlater)
    (hkept.committed other t' seq hfind' hcom hseq r hr) (hkept.active T t hfind hactive own hown)

/-- A transaction reads and writes a row while another one commits a write of another row. -/
def disjointWrites : List SsiEvent :=
  [.record 2 (.read "t" 0), .record 2 (.write "t" 0), .autocommit [.write "t" 1]]

theorem commit_disjointWrites :
    let h₀ := SsiHistory.run {} [.autocommit [.write "t" 0]]
    let h := (h₀.step .begin).run disjointWrites
    ∃ m, commit 2 h.manager = .ok () m ∧ ¬ (SsiRecord.write "t" 1).ConflictsWith (.read "t" 0) := by
  intro h₀ h
  have hfind : h.manager.find 2 = some { id := 2, snapshotMaxCommitSeq := 1 } := by decide +kernel
  have hserializable : h.manager.isSerializable 2 = true := by decide +kernel
  obtain ⟨m, hcommit⟩ : ∃ m, commit 2 h.manager = .ok () m :=
    ⟨_, by simp only [commit, get_bind, hfind, hserializable]; rfl⟩
  have hother : h.manager.find 3 = some
      { id := 3, state := .committed, commitSeq := some 2, snapshotMaxCommitSeq := 1 } := by
    decide +kernel
  refine ⟨m, hcommit,
    commit_without_conflict [.autocommit [.write "t" 0]] disjointWrites m hcommit 3
    ?_ ⟨_, hother, rfl⟩ (.write "t" 1) ?_ (.read "t" 0) ?_⟩
  · rintro ⟨t, hfind, -⟩
    have hnone : h₀.manager.find 3 = none := by decide +kernel
    cases hnone.symm.trans hfind
  · show SsiRecord.write "t" 1 ∈ h.recorded 3
    decide +kernel
  · show SsiRecord.read "t" 0 ∈ h.recorded 2
    decide +kernel

end VertexDB
