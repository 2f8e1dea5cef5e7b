import VertexDB.Common.StringPattern
import VertexDB.Common.Value
import VertexDB.Lib.Exec

/-!
# The transaction manager

Commit sequence numbers, snapshot visibility and the conflict sets of serializable snapshot
isolation, as in `src/transaction/transaction_manager.cpp`.
-/

namespace VertexDB

open Std.ExtTreeMap

/-- `kSystemTransactionId`. -/
def systemTransactionId : ℕ := 0

/-- `TransactionState`. -/
inductive TransactionState where
  | active
  | committed
  | rolledBack
  deriving DecidableEq, Repr

/-- `Transaction`. -/
structure Transaction where
  id : ℕ
  state : TransactionState := .active
  commitSeq : Option ℕ := none
  snapshotMaxCommitSeq : ℕ := 0
  deriving DecidableEq, Repr

/-- `ReadSnapshot`. -/
structure ReadSnapshot where
  self : ℕ := systemTransactionId
  maxCommitSeq : ℕ := 0
  deriving DecidableEq, Repr

/-- `SsiPredicate`. -/
structure SsiPredicate where
  relation : String
  column : String
  op : Option ComparisonOperator := none
  value : Option Value := none
  likePattern : Option (List UInt8) := none
  deriving DecidableEq, Repr

/-- `SsiInsert`. -/
structure SsiInsert where
  relation : String
  columns : List (String × Value)
  deriving DecidableEq, Repr

/-- The matching of the first column of the predicate's name in `insertMatchesPredicate`. -/
def cellMatchesPredicate (value : Value) (predicate : SsiPredicate) : Bool :=
  match predicate.likePattern, predicate.op, predicate.value with
  | some pattern, _, _ =>
    match value with
    | .string text => matchLikePattern text pattern
    | _ => false
  | none, some op, some literal => compareValues value op literal
  | none, _, _ => true

/-- `insertMatchesPredicate`. -/
def insertMatchesPredicate (insert : SsiInsert) (predicate : SsiPredicate) : Bool :=
  if insert.relation ≠ predicate.relation then false
  else if predicate.column = "" then true
  else
    match insert.columns.find? fun column => column.1 = predicate.column with
    | none => false
    | some (_, value) => cellMatchesPredicate value predicate

/-- `TransactionManager`. -/
structure TransactionManager where
  nextId : ℕ := 1
  nextCommitSeq : ℕ := 0
  transactions : Std.ExtTreeMap ℕ Transaction := ∅
  activeReads : Std.ExtTreeMap ℕ (Std.ExtTreeSet String) := ∅
  activeWrites : Std.ExtTreeMap ℕ (Std.ExtTreeSet String) := ∅
  activePredicateReads : Std.ExtTreeMap ℕ (List SsiPredicate) := ∅
  activeInserts : Std.ExtTreeMap ℕ (List SsiInsert) := ∅
  committedWriteSets : Std.ExtTreeMap ℕ (Std.ExtTreeSet String) := ∅
  committedPredicateReads : Std.ExtTreeMap ℕ (List SsiPredicate) := ∅
  committedInserts : Std.ExtTreeMap ℕ (List SsiInsert) := ∅

namespace TransactionManager

/-- `TransactionManager::conflictKey`. -/
def conflictKey (relation : String) (rowId : ℕ) : String := relation ++ "\x00" ++ toString rowId

/-- `TransactionManager::find`. -/
def find (m : TransactionManager) (id : ℕ) : Option Transaction := m.transactions[id]?

/-- The state of a transaction is `Active`. -/
def isActive (m : TransactionManager) (id : ℕ) : Bool :=
  match m.find id with
  | some transaction => transaction.state = .active
  | none => false

/-- `TransactionManager::begin`. -/
def begin (m : TransactionManager) : Transaction × TransactionManager :=
  let transaction : Transaction := { id := m.nextId, snapshotMaxCommitSeq := m.nextCommitSeq }
  (transaction,
    { m with
      nextId := m.nextId + 1
      transactions := m.transactions.insert transaction.id transaction
      activeReads := m.activeReads.insert transaction.id ∅
      activeWrites := m.activeWrites.insert transaction.id ∅
      activePredicateReads := m.activePredicateReads.insert transaction.id []
      activeInserts := m.activeInserts.insert transaction.id [] })

/-- `intersects`. -/
def intersects (left right : Std.ExtTreeSet String) : Bool := left.toList.any right.contains

/-- `TransactionManager::predicateConflictsWithInserts`. -/
def predicateConflictsWithInserts (predicates : List SsiPredicate) (inserts : List SsiInsert) :
    Bool :=
  predicates.any fun predicate => inserts.any fun insert => insertMatchesPredicate insert predicate

/-- `TransactionManager::isSerializable`. -/
def isSerializable (m : TransactionManager) (id : ℕ) : Bool :=
  match m.find id with
  | none => false
  | some transaction =>
    if transaction.state ≠ .active then false
    else
      let reads := m.activeReads[id]?.getD ∅
      let writes := m.activeWrites[id]?.getD ∅
      let predicates := m.activePredicateReads[id]?.getD []
      let inserts := m.activeInserts[id]?.getD []
      let later {α : Type} (sets : List (ℕ × α)) : List α :=
        (sets.filter fun entry => transaction.snapshotMaxCommitSeq < entry.1).map Prod.snd
      (later m.committedWriteSets.toList).all (fun committedWrites =>
          !intersects reads committedWrites && !intersects writes committedWrites) &&
        (later m.committedInserts.toList).all (fun committedInserts =>
          !predicateConflictsWithInserts predicates committedInserts) &&
        (later m.committedPredicateReads.toList).all fun committedPredicates =>
          !predicateConflictsWithInserts committedPredicates inserts

/-- `TransactionManager::pruneCommittedConflictSets`. -/
def pruneCommittedConflictSets (m : TransactionManager) : TransactionManager :=
  if m.activeReads.isEmpty && m.activePredicateReads.isEmpty && m.activeInserts.isEmpty &&
      m.activeWrites.isEmpty then
    { m with committedWriteSets := ∅, committedPredicateReads := ∅, committedInserts := ∅ }
  else
    let ids := m.activeReads.keys ++ m.activePredicateReads.keys ++ m.activeInserts.keys ++
      m.activeWrites.keys
    let consider (minSnapshot id : ℕ) : ℕ :=
      match m.find id with
      | some transaction =>
        if transaction.state = .active then min minSnapshot transaction.snapshotMaxCommitSeq
        else minSnapshot
      | none => minSnapshot
    let minSnapshot := ids.foldl consider m.nextCommitSeq
    { m with
      committedWriteSets := m.committedWriteSets.filter fun seq _ => minSnapshot < seq
      committedPredicateReads := m.committedPredicateReads.filter fun seq _ => minSnapshot < seq
      committedInserts := m.committedInserts.filter fun seq _ => minSnapshot < seq }

/-- The conflict sets of a transaction that is no longer active are dropped. -/
def dropActive (m : TransactionManager) (id : ℕ) : TransactionManager :=
  { m with
    activeReads := m.activeReads.erase id
    activeWrites := m.activeWrites.erase id
    activePredicateReads := m.activePredicateReads.erase id
    activeInserts := m.activeInserts.erase id }

/-- The state change of `TransactionManager::rollback` on an active transaction. -/
def markRolledBack (m : TransactionManager) (transaction : Transaction) : TransactionManager :=
  let m := { m with
    transactions := m.transactions.insert transaction.id { transaction with state := .rolledBack } }
  (m.dropActive transaction.id).pruneCommittedConflictSets

/-- `emplace` of a non-empty conflict set under a commit sequence number. -/
def emplaceSet {α : Type} (sets : Std.ExtTreeMap ℕ α) (seq : ℕ) (set : Option α)
    (nonempty : α → Bool) : Std.ExtTreeMap ℕ α :=
  match set with
  | some set => if nonempty set then sets.insertIfNew seq set else sets
  | none => sets

/-- The state change of `TransactionManager::commit` on an active serializable transaction. -/
def markCommitted (m : TransactionManager) (transaction : Transaction) : TransactionManager :=
  let seq := m.nextCommitSeq + 1
  let id := transaction.id
  let m := { m with
    nextCommitSeq := seq
    transactions := m.transactions.insert id
      { transaction with state := .committed, commitSeq := some seq }
    committedWriteSets := emplaceSet m.committedWriteSets seq m.activeWrites[id]? (!·.isEmpty)
    committedPredicateReads :=
      emplaceSet m.committedPredicateReads seq m.activePredicateReads[id]? (!·.isEmpty)
    committedInserts := emplaceSet m.committedInserts seq m.activeInserts[id]? (!·.isEmpty) }
  (m.dropActive id).pruneCommittedConflictSets

/-- `markCommitted` without the pruning. -/
def keepCommitted (m : TransactionManager) (t : Transaction) : TransactionManager :=
  let seq := m.nextCommitSeq + 1
  { m with
    nextCommitSeq := seq
    transactions := m.transactions.insert t.id { t with state := .committed, commitSeq := some seq }
    committedWriteSets := emplaceSet m.committedWriteSets seq m.activeWrites[t.id]? (!·.isEmpty)
    committedPredicateReads :=
      emplaceSet m.committedPredicateReads seq m.activePredicateReads[t.id]? (!·.isEmpty)
    committedInserts :=
      emplaceSet m.committedInserts seq m.activeInserts[t.id]? (!·.isEmpty) }.dropActive t.id

/-- `TransactionManager::rollback`. -/
def rollback (id : ℕ) : EStateM Error TransactionManager Unit := do
  let m ← EStateM.get
  match m.find id with
  | some transaction =>
    if transaction.state ≠ .active then
      throw (.runtimeError "cannot roll back inactive transaction")
    EStateM.set (m.markRolledBack transaction)
  | none => throw (.runtimeError "cannot roll back inactive transaction")

/-- `TransactionManager::commit`. -/
def commit (id : ℕ) : EStateM Error TransactionManager Unit := do
  let m ← EStateM.get
  match m.find id with
  | some transaction =>
    if transaction.state ≠ .active then throw (.runtimeError "cannot commit inactive transaction")
    if !m.isSerializable id then
      rollback id
      throw (.runtimeError "serialization failure: concurrent read/write conflict")
    EStateM.set (m.markCommitted transaction)
  | none => throw (.runtimeError "cannot commit inactive transaction")

/-- `TransactionManager::beginCommitted`. -/
def beginCommitted : EStateM Error TransactionManager ℕ := do
  let m ← EStateM.get
  let (transaction, m) := m.begin
  EStateM.set m
  commit transaction.id
  return transaction.id

/-- `TransactionManager::currentSnapshot`. -/
def currentSnapshot (m : TransactionManager) (self : ℕ := systemTransactionId) : ReadSnapshot :=
  { self := self, maxCommitSeq := m.nextCommitSeq }

/-- `TransactionManager::isCreatorVisible`. -/
def isCreatorVisible (m : TransactionManager) (creator : ℕ) (snapshot : ReadSnapshot) : Bool :=
  if creator = systemTransactionId then true
  else if creator = snapshot.self then true
  else
    match m.find creator with
    | none => false
    | some transaction =>
      match transaction.state, transaction.commitSeq with
      | .committed, some seq => seq ≤ snapshot.maxCommitSeq
      | _, _ => false

/-- `TransactionManager::isVisible`. -/
def isVisible (m : TransactionManager) (createdBy : ℕ) (deletedBy : Option ℕ)
    (snapshot : ReadSnapshot) : Bool :=
  m.isCreatorVisible createdBy snapshot &&
    match deletedBy with
    | none => true
    | some deleter => !m.isCreatorVisible deleter snapshot

/-- `TransactionManager::recordRead`. -/
def recordRead (m : TransactionManager) (id : ℕ) (relation : String) (rowId : ℕ) :
    TransactionManager :=
  if id = systemTransactionId then m
  else
    match m.activeReads[id]? with
    | none => m
    | some reads =>
      { m with activeReads := m.activeReads.insert id (reads.insert (conflictKey relation rowId)) }

/-- `TransactionManager::recordWrite`. -/
def recordWrite (m : TransactionManager) (id : ℕ) (relation : String) (rowId : ℕ) :
    TransactionManager :=
  if id = systemTransactionId then m
  else
    let key := conflictKey relation rowId
    match m.activeWrites[id]? with
    | some writes => { m with activeWrites := m.activeWrites.insert id (writes.insert key) }
    | none =>
      -- an autocommit statement records its writes after its transaction has committed
      match m.find id with
      | some { state := .committed, commitSeq := some seq, .. } =>
        { m with
          committedWriteSets :=
            m.committedWriteSets.insert seq ((m.committedWriteSets[seq]?.getD ∅).insert key) }
      | _ => m

/-- `TransactionManager::recordPredicateRead`. -/
def recordPredicateRead (m : TransactionManager) (id : ℕ) (predicate : SsiPredicate) :
    TransactionManager :=
  if id = systemTransactionId then m
  else
    match m.activePredicateReads[id]? with
    | none => m
    | some reads =>
      { m with activePredicateReads := m.activePredicateReads.insert id (reads ++ [predicate]) }

/-- `TransactionManager::recordInsert`. -/
def recordInsert (m : TransactionManager) (id : ℕ) (insert : SsiInsert) : TransactionManager :=
  if id = systemTransactionId then m
  else
    match m.activeInserts[id]? with
    | some inserts =>
      { m with activeInserts := m.activeInserts.insert id (inserts ++ [insert]) }
    | none =>
      match m.find id with
      | some { state := .committed, commitSeq := some seq, .. } =>
        { m with
          committedInserts :=
            m.committedInserts.insert seq (m.committedInserts[seq]?.getD [] ++ [insert]) }
      | _ => m

section Validity

variable {m : TransactionManager}

/-- The keys of the committed conflict sets are at most `n`. -/
structure KeysLe (m : TransactionManager) (n : ℕ) : Prop where
  writes : ∀ seq ∈ m.committedWriteSets, seq ≤ n
  predicates : ∀ seq ∈ m.committedPredicateReads, seq ≤ n
  inserts : ∀ seq ∈ m.committedInserts, seq ≤ n

/-- Transaction ids are used once, and no sequence number is ahead of the last one given out. -/
structure Valid (m : TransactionManager) : Prop where
  nextId_pos : systemTransactionId < m.nextId
  find_id : ∀ id t, m.find id = some t → id < m.nextId ∧ t.id = id
  commitSeq_le : ∀ id t seq, m.find id = some t → t.commitSeq = some seq → seq ≤ m.nextCommitSeq
  keysLe : m.KeysLe m.nextCommitSeq

theorem valid_new : ({} : TransactionManager).Valid :=
  ⟨Nat.one_pos, by simp [find], by simp [find], by simp, by simp, by simp⟩

/-- The writes of the transaction are seen by every snapshot taken from now on. -/
def Settled (m : TransactionManager) (id : ℕ) : Prop :=
  id = systemTransactionId ∨
    ∃ t seq, m.find id = some t ∧ t.state = .committed ∧ t.commitSeq = some seq ∧
      seq ≤ m.nextCommitSeq

variable {id : ℕ}

theorem Settled.isCreatorVisible (h : m.Settled id) :
    m.isCreatorVisible id m.currentSnapshot = true := by
  obtain rfl | ⟨t, seq, hfind, hstate, hseq, hle⟩ := h
  · simp [TransactionManager.isCreatorVisible]
  · simp [TransactionManager.isCreatorVisible, hfind, hstate, hseq, currentSnapshot, hle]

theorem Valid.find_nextId (hm : m.Valid) : m.find m.nextId = none := by
  cases h : m.find m.nextId with
  | none => rfl
  | some t => exact absurd (hm.find_id _ t h).1 (lt_irrefl _)

@[simp] theorem find_begin (m : TransactionManager) (id : ℕ) :
    m.begin.2.find id =
      if m.nextId = id then some { id := m.nextId, snapshotMaxCommitSeq := m.nextCommitSeq }
      else m.find id := by
  by_cases h : m.nextId = id <;> simp [begin, TransactionManager.find, getElem?_insert, h]

@[simp] theorem find_prune (m : TransactionManager) (id : ℕ) :
    m.pruneCommittedConflictSets.find id = m.find id := by
  unfold pruneCommittedConflictSets
  split_ifs <;> rfl

@[simp] theorem nextCommitSeq_prune (m : TransactionManager) :
    m.pruneCommittedConflictSets.nextCommitSeq = m.nextCommitSeq := by
  unfold pruneCommittedConflictSets
  split_ifs <;> rfl

@[simp] theorem nextId_prune (m : TransactionManager) :
    m.pruneCommittedConflictSets.nextId = m.nextId := by
  unfold pruneCommittedConflictSets
  split_ifs <;> rfl

theorem KeysLe.prune {n : ℕ} (h : m.KeysLe n) : m.pruneCommittedConflictSets.KeysLe n := by
  unfold pruneCommittedConflictSets
  split_ifs
  · exact ⟨by simp, by simp, by simp⟩
  · refine ⟨fun seq hseq => h.writes seq ?_, fun seq hseq => h.predicates seq ?_,
      fun seq hseq => h.inserts seq ?_⟩ <;>
    · simp only [mem_filter] at hseq
      exact hseq.1

theorem mem_emplaceSet {α : Type} {sets : Std.ExtTreeMap ℕ α} {seq k : ℕ} {set : Option α}
    {nonempty : α → Bool} (h : k ∈ emplaceSet sets seq set nonempty) : k = seq ∨ k ∈ sets := by
  unfold emplaceSet at h
  split at h
  · split_ifs at h
    · rcases mem_insertIfNew.mp h with h | h
      · exact Or.inl (compare_eq_iff_eq.mp h).symm
      · exact Or.inr h
    · exact Or.inr h
  · exact Or.inr h

theorem KeysLe.mono {n k : ℕ} (h : m.KeysLe n) (hnk : n ≤ k) : m.KeysLe k :=
  ⟨fun seq hs => (h.writes seq hs).trans hnk, fun seq hs => (h.predicates seq hs).trans hnk,
    fun seq hs => (h.inserts seq hs).trans hnk⟩

variable {t : Transaction}

/-- A transaction with no committed conflict set above its snapshot is serializable. -/
theorem isSerializable_of_keysLe (hfind : m.find id = some t) (hactive : t.state = .active)
    (hkeys : m.KeysLe t.snapshotMaxCommitSeq) :
    m.isSerializable id = true := by
  have hfilter : ∀ {α : Type} (sets : Std.ExtTreeMap ℕ α),
      (∀ seq ∈ sets, seq ≤ t.snapshotMaxCommitSeq) →
      (sets.toList.filter fun entry => decide (t.snapshotMaxCommitSeq < entry.1)) = [] := by
    intro α sets hle
    rw [List.filter_eq_nil_iff]
    rintro ⟨seq, set⟩ hmem
    have : seq ∈ sets := mem_iff_isSome_getElem?.mpr (by
      simp [mem_toList_iff_getElem?_eq_some.mp hmem])
    simpa using hle seq this
  simp [isSerializable, hfind, hactive, hfilter _ hkeys.writes, hfilter _ hkeys.inserts,
    hfilter _ hkeys.predicates]

theorem Valid.begin (hm : m.Valid) : m.begin.2.Valid where
  nextId_pos := hm.nextId_pos.trans (Nat.lt_succ_self _)
  find_id id t h := by
    rw [find_begin] at h
    change id < m.nextId + 1 ∧ t.id = id
    split_ifs at h with hid
    · obtain rfl := Option.some.inj h
      exact ⟨hid ▸ Nat.lt_succ_self _, hid⟩
    · obtain ⟨hlt, heq⟩ := hm.find_id id t h
      exact ⟨hlt.trans (Nat.lt_succ_self _), heq⟩
  commitSeq_le id t seq h hseq := by
    rw [find_begin] at h
    split_ifs at h with hid
    · obtain rfl := Option.some.inj h
      cases hseq
    · exact hm.commitSeq_le id t seq h hseq
  keysLe := ⟨hm.keysLe.writes, hm.keysLe.predicates, hm.keysLe.inserts⟩

@[simp] theorem find_markRolledBack (m : TransactionManager) (t : Transaction) (id : ℕ) :
    (m.markRolledBack t).find id =
      if t.id = id then some { t with state := .rolledBack } else m.find id := by
  rw [markRolledBack, find_prune]
  by_cases h : t.id = id <;> simp [dropActive, TransactionManager.find, getElem?_insert, h]

@[simp] theorem find_markCommitted (m : TransactionManager) (t : Transaction) (id : ℕ) :
    (m.markCommitted t).find id =
      if t.id = id then
        some { t with state := .committed, commitSeq := some (m.nextCommitSeq + 1) }
      else m.find id := by
  rw [markCommitted, find_prune]
  by_cases h : t.id = id <;> simp [dropActive, TransactionManager.find, getElem?_insert, h]

@[simp] theorem nextCommitSeq_markCommitted (m : TransactionManager) (t : Transaction) :
    (m.markCommitted t).nextCommitSeq = m.nextCommitSeq + 1 := by
  rw [markCommitted, nextCommitSeq_prune]
  rfl

@[simp] theorem nextCommitSeq_markRolledBack (m : TransactionManager) (t : Transaction) :
    (m.markRolledBack t).nextCommitSeq = m.nextCommitSeq := by
  rw [markRolledBack, nextCommitSeq_prune]
  rfl

/-- The transaction `t` ends as `t'`. -/
structure Closes (m : TransactionManager) (t t' : Transaction)
    (m' : TransactionManager) : Prop where
  nextId : m'.nextId = m.nextId
  nextCommitSeq_le : m.nextCommitSeq ≤ m'.nextCommitSeq
  find : ∀ id, m'.find id = if t.id = id then some t' else m.find id
  id : t'.id = t.id
  snapshot : t'.snapshotMaxCommitSeq = t.snapshotMaxCommitSeq
  ended : t'.state ≠ .active
  committed : t'.state = .committed →
    t'.commitSeq = some m'.nextCommitSeq ∧ m.nextCommitSeq < m'.nextCommitSeq

theorem closes_markCommitted (m : TransactionManager) (t : Transaction) :
    m.Closes t { t with state := .committed, commitSeq := some (m.nextCommitSeq + 1) }
      (m.markCommitted t) := by
  refine ⟨?_, by simp, find_markCommitted m t, rfl, rfl, by simp, by simp⟩
  rw [markCommitted, nextId_prune]
  rfl

theorem closes_markRolledBack (m : TransactionManager) (t : Transaction) :
    m.Closes t { t with state := .rolledBack } (m.markRolledBack t) := by
  refine ⟨?_, by simp, find_markRolledBack m t, rfl, rfl, by simp, by simp⟩
  rw [markRolledBack, nextId_prune]
  rfl

theorem Closes.valid {m' : TransactionManager} {t' : Transaction} (h : m.Closes t t' m')
    (hm : m.Valid) (hfind : m.find t.id = some t)
    (hseq : ∀ seq, t'.commitSeq = some seq → seq ≤ m'.nextCommitSeq)
    (hkeys : m'.KeysLe m'.nextCommitSeq) : m'.Valid := by
  refine ⟨h.nextId ▸ hm.nextId_pos, fun id u hu => ?_, fun id u seq hu hcommit => ?_, hkeys⟩ <;>
    rw [h.find] at hu <;> split_ifs at hu with hid
  · obtain rfl := Option.some.inj hu
    exact ⟨hid ▸ h.nextId ▸ (hm.find_id _ t hfind).1, h.id.trans hid⟩
  · exact h.nextId ▸ hm.find_id id u hu
  · obtain rfl := Option.some.inj hu
    exact hseq seq hcommit
  · exact (hm.commitSeq_le id u seq hu hcommit).trans h.nextCommitSeq_le

theorem keysLe_keepCommitted (t : Transaction) (h : m.KeysLe m.nextCommitSeq) :
    (m.keepCommitted t).KeysLe (m.nextCommitSeq + 1) := by
  have hkeys := h.mono (Nat.le_succ m.nextCommitSeq)
  refine ⟨fun seq h => ?_, fun seq h => ?_, fun seq h => ?_⟩
  · exact (mem_emplaceSet h).elim (fun h => h.le) (hkeys.writes seq)
  · exact (mem_emplaceSet h).elim (fun h => h.le) (hkeys.predicates seq)
  · exact (mem_emplaceSet h).elim (fun h => h.le) (hkeys.inserts seq)

theorem Valid.markCommitted (hm : m.Valid) (hfind : m.find id = some t) :
    (m.markCommitted t).Valid := by
  obtain ⟨-, rfl⟩ := hm.find_id id t hfind
  refine (closes_markCommitted m t).valid hm hfind (by simp [eq_comm]) ?_
  rw [nextCommitSeq_markCommitted]
  exact KeysLe.prune (keysLe_keepCommitted t hm.keysLe)

theorem Valid.markRolledBack (hm : m.Valid) (hfind : m.find id = some t) :
    (m.markRolledBack t).Valid := by
  obtain ⟨-, rfl⟩ := hm.find_id id t hfind
  refine (closes_markRolledBack m t).valid hm hfind ?_ ?_ <;> rw [nextCommitSeq_markRolledBack]
  · exact fun seq hseq => hm.commitSeq_le _ t seq hfind hseq
  · exact KeysLe.prune ⟨hm.keysLe.writes, hm.keysLe.predicates, hm.keysLe.inserts⟩

theorem rollback_ok (hfind : m.find id = some t) (hactive : t.state = .active) :
    rollback id m = .ok () (m.markRolledBack t) := by
  simp [TransactionManager.rollback, hfind, hactive]

theorem commit_ok (hm : m.Valid) (hfind : m.find id = some t) (hactive : t.state = .active)
    (hsnap : t.snapshotMaxCommitSeq = m.nextCommitSeq) :
    commit id m = .ok () (m.markCommitted t) := by
  have hser := isSerializable_of_keysLe hfind hactive (hsnap ▸ hm.keysLe)
  simp [TransactionManager.commit, hfind, hactive, hser]

theorem Settled.begin (hm : m.Valid) (h : m.Settled id) : m.begin.2.Settled id := by
  refine h.imp_right ?_
  rintro ⟨t, seq, hfind, hrest⟩
  have hne : m.nextId ≠ id := fun h => by
    rw [← h, hm.find_nextId] at hfind
    cases hfind
  exact ⟨t, seq, by rw [find_begin, if_neg hne, hfind], hrest⟩

theorem Settled.markCommitted (h : m.Settled id) :
    (m.markCommitted t).Settled id := by
  refine h.imp_right ?_
  rintro ⟨u, seq, hfind, hstate, hseq, hle⟩
  by_cases hid : t.id = id
  · exact ⟨_, _, by rw [find_markCommitted, if_pos hid], rfl, rfl, by simp⟩
  · refine ⟨u, seq, by rw [find_markCommitted, if_neg hid, hfind], hstate, hseq, ?_⟩
    rw [nextCommitSeq_markCommitted]
    exact hle.trans (Nat.le_succ _)

theorem settled_markCommitted (m : TransactionManager) (t : Transaction) :
    (m.markCommitted t).Settled t.id :=
  Or.inr ⟨_, _, by rw [find_markCommitted, if_pos rfl], rfl, rfl, by simp⟩

theorem Settled.markRolledBack (hactive : t.state = .active) (hfind : m.find t.id = some t)
    (h : m.Settled id) : (m.markRolledBack t).Settled id := by
  refine h.imp_right ?_
  rintro ⟨u, seq, hu, hstate, hseq, hle⟩
  have hid : t.id ≠ id := by
    rintro rfl
    rw [hfind, Option.some.injEq] at hu
    rw [← hu, hactive] at hstate
    cases hstate
  exact ⟨u, seq, by rw [find_markRolledBack, if_neg hid, hu], hstate, hseq, by simpa using hle⟩

/-- `m'` is `m` with more conflict sets recorded. -/
structure Recorded (m m' : TransactionManager) : Prop where
  find : m'.find = m.find
  nextId : m'.nextId = m.nextId
  nextCommitSeq : m'.nextCommitSeq = m.nextCommitSeq
  valid : m.Valid → m'.Valid

namespace Recorded

variable {m' m'' : TransactionManager}

theorem refl (m : TransactionManager) : m.Recorded m := ⟨rfl, rfl, rfl, id⟩

theorem trans (h : m.Recorded m') (h' : m'.Recorded m'') : m.Recorded m'' :=
  ⟨h'.find.trans h.find, h'.nextId.trans h.nextId, h'.nextCommitSeq.trans h.nextCommitSeq,
    fun hm => h'.valid (h.valid hm)⟩

theorem settled (h : m.Recorded m') : m'.Settled id ↔ m.Settled id := by
  rw [Settled, Settled, h.find, h.nextCommitSeq]

theorem isCreatorVisible (h : m.Recorded m') (id : ℕ) (snapshot : ReadSnapshot) :
    m'.isCreatorVisible id snapshot = m.isCreatorVisible id snapshot := by
  rw [TransactionManager.isCreatorVisible, h.find, TransactionManager.isCreatorVisible]

theorem of_keysLe (hfind : m'.transactions = m.transactions) (hid : m'.nextId = m.nextId)
    (hseq : m'.nextCommitSeq = m.nextCommitSeq)
    (hkeys : m.Valid → m'.KeysLe m.nextCommitSeq) : m.Recorded m' := by
  have hf : m'.find = m.find := by
    funext id
    rw [TransactionManager.find, hfind, TransactionManager.find]
  refine ⟨hf, hid, hseq, fun hm => ⟨hid ▸ hm.nextId_pos, ?_, ?_, hseq ▸ hkeys hm⟩⟩
  · rw [hf, hid]
    exact hm.find_id
  · rw [hf, hseq]
    exact hm.commitSeq_le

end Recorded

/-- A set is inserted under the sequence number of a committed transaction. -/
private theorem mem_insert_le {α : Type} {n seq k : ℕ} {sets : Std.ExtTreeMap ℕ α} {set : α}
    (hseq : seq ≤ n) (hsets : ∀ k ∈ sets, k ≤ n) (h : k ∈ sets.insert seq set) : k ≤ n := by
  rcases mem_insert.mp h with h | h
  · exact (compare_eq_iff_eq.mp h) ▸ hseq
  · exact hsets k h

theorem recorded_recordRead (m : TransactionManager) (id : ℕ) (relation : String) (rowId : ℕ) :
    m.Recorded (m.recordRead id relation rowId) := by
  unfold recordRead
  split_ifs
  · exact .refl m
  · split
    · exact .refl m
    · exact .of_keysLe rfl rfl rfl fun hm => ⟨hm.keysLe.writes, hm.keysLe.predicates,
        hm.keysLe.inserts⟩

theorem recorded_recordPredicateRead (m : TransactionManager) (id : ℕ) (predicate : SsiPredicate) :
    m.Recorded (m.recordPredicateRead id predicate) := by
  unfold recordPredicateRead
  split_ifs
  · exact .refl m
  · split
    · exact .refl m
    · exact .of_keysLe rfl rfl rfl fun hm => ⟨hm.keysLe.writes, hm.keysLe.predicates,
        hm.keysLe.inserts⟩

theorem recorded_recordWrite (m : TransactionManager) (id : ℕ) (relation : String) (rowId : ℕ) :
    m.Recorded (m.recordWrite id relation rowId) := by
  unfold recordWrite
  split_ifs
  · exact .refl m
  · dsimp only
    split
    · exact .of_keysLe rfl rfl rfl fun hm => ⟨hm.keysLe.writes, hm.keysLe.predicates,
        hm.keysLe.inserts⟩
    · split
      · next seq _ hfind =>
        exact .of_keysLe rfl rfl rfl fun hm =>
          ⟨fun k => mem_insert_le (hm.commitSeq_le _ _ seq hfind rfl) hm.keysLe.writes,
            hm.keysLe.predicates, hm.keysLe.inserts⟩
      · exact .refl m

theorem recorded_recordInsert (m : TransactionManager) (id : ℕ) (insert : SsiInsert) :
    m.Recorded (m.recordInsert id insert) := by
  unfold recordInsert
  split_ifs
  · exact .refl m
  · split
    · exact .of_keysLe rfl rfl rfl fun hm => ⟨hm.keysLe.writes, hm.keysLe.predicates,
        hm.keysLe.inserts⟩
    · split
      · next seq _ hfind =>
        exact .of_keysLe rfl rfl rfl fun hm => ⟨hm.keysLe.writes, hm.keysLe.predicates,
          fun k => mem_insert_le (hm.commitSeq_le _ _ seq hfind rfl) hm.keysLe.inserts⟩
      · exact .refl m

end Validity

end TransactionManager

end VertexDB
