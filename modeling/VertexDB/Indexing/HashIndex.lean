import VertexDB.Common.Value
import Mathlib.Tactic.Tauto

/-!
# Hash indexes

A map from keys to row ids in insertion order, as in `src/indexing/hash_index.cpp`, with the record
of the keys changed since the last redo capture. The buckets of the source's hash table are a list
here: two keys share a bucket when they are equal in the sense of `operator==`.
-/

namespace VertexDB

open Value List Bool

/-- `HashIndexSnapshot`. -/
structure HashIndexSnapshot where
  replaceAll : Bool := false
  buckets : List (Value × List ℕ) := []
  deriving DecidableEq, Repr

/-- `HashIndex`. -/
structure HashIndex where
  entries : List (Value × List ℕ) := []
  dirtyKeys : List Value := []
  fullReplaceDirty : Bool := false
  deriving DecidableEq, Repr

/-- `std::hash` of the column types: equal numbers have equal hashes. -/
structure StdHash where
  int : Int64 → UInt64
  double : Double → UInt64
  string : List UInt8 → UInt64
  double_congr : ∀ a b : Double, a.beq b = true → double a = double b

namespace HashIndex

/-- The hash of NULL, which is also the seed for composites. -/
def hashSeed : UInt64 := 0x9e3779b97f4a7c15

mutual

/-- `HashIndex::ValueHash`. -/
def valueHash (std : StdHash) : Value → Except Error UInt64
  | .null => pure hashSeed
  | .composite parts => hashParts std hashSeed parts
  | .int value => pure (std.int value)
  | .double value => pure (std.double value)
  | .string value => pure (std.string value)
  | .parameter _ => throw (.runtimeError "parameter placeholder has no concrete column type")

/-- The loop of `ValueHash` over the parts. -/
def hashParts (std : StdHash) (seed : UInt64) : List Value → Except Error UInt64
  | [] => pure seed
  | part :: parts => do
    let hash ← valueHash std part
    hashParts std (seed ^^^ (hash + hashSeed + (seed <<< 6) + (seed >>> 2))) parts

end

mutual

theorem valueHash_congr (std : StdHash) : (a b : Value) → a.beq b = true →
    valueHash std a = valueHash std b
  | .composite as, b, h => by
    cases b with
    | composite bs => simpa only [valueHash] using hashParts_congr std hashSeed as bs h
    | _ => simp [Value.beq] at h
  | .double a, b, h => by
    cases b with
    | double b => simp only [valueHash, std.double_congr a b h]
    | _ => simp [Value.beq] at h
  | .null, b, h | .int _, b, h | .string _, b, h | .parameter _, b, h => by
    cases b <;> simp_all [Value.beq, valueHash]

theorem hashParts_congr (std : StdHash) (seed : UInt64) : (as bs : List Value) →
    Value.beqParts as bs = true → hashParts std seed as = hashParts std seed bs
  | [], [], _ => rfl
  | a :: as, b :: bs, h => by
    rw [Value.beqParts, and_eq_true] at h
    simp only [hashParts, valueHash_congr std a b h.1, hashParts_congr std _ as bs h.2]
  | [], _ :: _, h | _ :: _, [], h => by cases h

end

/-- `entries_[key] = f(entries_[key])`, where a missing key starts with no row id. -/
def alter (key : Value) (f : List ℕ → List ℕ) : List (Value × List ℕ) → List (Value × List ℕ)
  | [] => [(key, f [])]
  | (k, rowIds) :: entries =>
    if k.beq key then (k, f rowIds) :: entries else (k, rowIds) :: alter key f entries

/-- The row ids under a key. -/
def lookup (entries : List (Value × List ℕ)) (key : Value) : List ℕ :=
  match entries.find? fun entry => entry.1.beq key with
  | some entry => entry.2
  | none => []

/-- `HashIndex::markDirty`. -/
def markDirty (index : HashIndex) (key : Value) : HashIndex :=
  if index.dirtyKeys.any (·.beq key) then index
  else { index with dirtyKeys := index.dirtyKeys ++ [key] }

/-- `HashIndex::insert`. -/
def insert (index : HashIndex) (key : Value) (rowId : ℕ) : HashIndex :=
  { index with entries := alter key (· ++ [rowId]) index.entries }.markDirty key

/-- `HashIndex::remove`. -/
def remove (index : HashIndex) (key : Value) (rowId : ℕ) : HashIndex :=
  match index.entries.find? fun entry => entry.1.beq key with
  | none => index
  | some entry =>
    let rowIds := entry.2.filter (· ≠ rowId)
    let entries :=
      if rowIds.isEmpty then index.entries.eraseP (·.1.beq key)
      else alter key (fun _ => rowIds) index.entries
    { index with entries := entries }.markDirty key

/-- `HashIndex::clear`. -/
def clear (_index : HashIndex) : HashIndex :=
  { entries := [], dirtyKeys := [], fullReplaceDirty := true }

/-- `HashIndex::find`. -/
def find (index : HashIndex) (key : Value) : List ℕ := lookup index.entries key

/-- `HashIndex::size`. -/
def size (index : HashIndex) : ℕ := index.entries.length

/-- `HashIndex::clearDirtyPages`. -/
def clearDirtyPages (index : HashIndex) : HashIndex :=
  { index with dirtyKeys := [], fullReplaceDirty := false }

/-- `HashIndex::takeDirtyBuckets`. -/
def takeDirtyBuckets (index : HashIndex) : HashIndexSnapshot × HashIndex :=
  let snapshot : HashIndexSnapshot :=
    if index.fullReplaceDirty then { replaceAll := true, buckets := index.entries }
    else
      { buckets := index.dirtyKeys.map fun key =>
          match index.entries.find? fun entry => entry.1.beq key with
          | some entry => entry
          | none => (key, []) }
  (snapshot, index.clearDirtyPages)

/-- `HashIndex::replaceFromBuckets`. -/
def replaceFromBuckets (buckets : List (Value × List ℕ)) : HashIndex :=
  { entries := buckets.foldl (fun entries bucket =>
      if entries.any (·.1.beq bucket.1) then entries else entries ++ [bucket]) [] }

/-- One round of the loop of `applyDirtyBuckets`: a bucket without row ids is removed. -/
def applyBucket (entries : List (Value × List ℕ)) (bucket : Value × List ℕ) :
    List (Value × List ℕ) :=
  if bucket.2.isEmpty then entries.eraseP (·.1.beq bucket.1)
  else alter bucket.1 (fun _ => bucket.2) entries

/-- `HashIndex::applyDirtyBuckets`. -/
def applyDirtyBuckets (index : HashIndex) (dirty : HashIndexSnapshot) : HashIndex :=
  if dirty.replaceAll then replaceFromBuckets dirty.buckets
  else
    ({ index with entries := dirty.buckets.foldl applyBucket index.entries } :
      HashIndex).clearDirtyPages

theorem lookup_cons (k : Value) (rowIds : List ℕ) (entries : List (Value × List ℕ)) (key : Value) :
    lookup ((k, rowIds) :: entries) key = if k.beq key then rowIds else lookup entries key := by
  unfold lookup
  cases h : k.beq key <;> simp [h]

theorem lookup_eq_nil {entries : List (Value × List ℕ)} {key : Value}
    (h : ∀ entry ∈ entries, entry.1.beq key = false) : lookup entries key = [] := by
  induction entries with
  | nil => rfl
  | cons entry entries ih =>
    rw [lookup_cons, h entry (by simp), ih fun e he => h e (by simp [he])]
    rfl

/-- A change under a key is seen by the lookups of equal keys. -/
theorem lookup_alter (key : Value) (f : List ℕ → List ℕ) (entries : List (Value × List ℕ))
    (key' : Value) :
    lookup (alter key f entries) key' =
      if key.beq key' then f (lookup entries key') else lookup entries key' := by
  induction entries with
  | nil =>
    rw [alter, lookup_cons]
    rfl
  | cons entry entries ih =>
    obtain ⟨k, rowIds⟩ := entry
    rw [alter, lookup_cons]
    cases hk : k.beq key with
    | false =>
      rw [if_neg (by simp), lookup_cons, ih]
      cases hkey : key.beq key' with
      | false => simp
      | true =>
        have : k.beq key' = false := by
          rw [beq_comm, ← beq_congr_left hkey, beq_comm, hk]
        simp [this]
    | true =>
      rw [if_pos rfl, lookup_cons, beq_congr_left hk]
      cases key.beq key' <;> simp

@[simp] theorem entries_markDirty (index : HashIndex) (key : Value) :
    (index.markDirty key).entries = index.entries := by
  unfold markDirty
  split_ifs <;> rfl

@[simp] theorem find_clear (index : HashIndex) (key : Value) : index.clear.find key = [] := rfl

theorem find_insert (index : HashIndex) (key : Value) (rowId : ℕ) (key' : Value) :
    (index.insert key rowId).find key' =
      if key.beq key' then index.find key' ++ [rowId] else index.find key' := by
  rw [find, insert, entries_markDirty, lookup_alter]
  rfl

theorem mem_find_foldl_insert (keys : List Value) (rowId : ℕ) (index : HashIndex) (key : Value)
    (r : ℕ) :
    r ∈ (keys.foldl (fun index k => index.insert k rowId) index).find key ↔
      r ∈ index.find key ∨ r = rowId ∧ ∃ k ∈ keys, k.beq key = true := by
  induction keys generalizing index with
  | nil => simp
  | cons k keys ih =>
    rw [foldl_cons, ih, find_insert]
    cases hk : k.beq key
    · simp [hk]
    · simp [hk]
      tauto

section Buckets

/-- No two buckets of a hash table have equal keys. -/
def Distinct (entries : List (Value × List ℕ)) : Prop :=
  entries.Pairwise fun entry entry' => entry.1.beq entry'.1 = false

instance : DecidablePred Distinct := fun _ => inferInstanceAs (Decidable (List.Pairwise _ _))

variable {entries : List (Value × List ℕ)} {key key' : Value} {buckets : List (Value × List ℕ)}

theorem lookup_congr (entries : List (Value × List ℕ)) (h : key.beq key' = true) :
    lookup entries key = lookup entries key' := by
  have hpred : ∀ entry : Value × List ℕ, entry.1.beq key = entry.1.beq key' := fun entry => by
    rw [beq_comm, beq_congr_left h, beq_comm]
  simp only [lookup, hpred]

/-- Removing the bucket of a key empties the lookups of equal keys and leaves the others. -/
theorem lookup_eraseP (h : Distinct entries) (key key' : Value) :
    lookup (entries.eraseP (·.1.beq key)) key' =
      if key.beq key' then [] else lookup entries key' := by
  induction entries with
  | nil => simp [lookup]
  | cons entry entries ih =>
    obtain ⟨k, rowIds⟩ := entry
    obtain ⟨hhead, htail⟩ := pairwise_cons.mp h
    cases hk : k.beq key with
    | false =>
      rw [eraseP_cons_of_neg (by simp [hk]), lookup_cons, ih htail, lookup_cons]
      cases hkey : key.beq key' with
      | false => simp
      | true =>
        have : k.beq key' = false := by
          rw [beq_comm, ← beq_congr_left hkey, beq_comm, hk]
        simp [this]
    | true =>
      rw [eraseP_cons_of_pos (by simpa using hk), lookup_cons, beq_congr_left hk]
      cases hkey : key.beq key' with
      | false => simp
      | true =>
        -- the removed bucket was the only one with an equal key
        refine lookup_eq_nil fun entry hentry => ?_
        have hother := hhead entry hentry
        rwa [beq_congr_left hk, beq_congr_left hkey, beq_comm] at hother

theorem mem_keys_alter {f : List ℕ → List ℕ} {entry : Value × List ℕ}
    (h : entry ∈ alter key f entries) :
    entry.1 = key ∨ ∃ entry' ∈ entries, entry'.1 = entry.1 := by
  induction entries with
  | nil => exact Or.inl (by rw [mem_singleton.mp h])
  | cons first entries ih =>
    rw [alter] at h
    split_ifs at h
    · rcases mem_cons.mp h with rfl | hmem
      · exact Or.inr ⟨first, mem_cons_self, rfl⟩
      · exact Or.inr ⟨entry, mem_cons_of_mem first hmem, rfl⟩
    · rcases mem_cons.mp h with rfl | hmem
      · exact Or.inr ⟨first, mem_cons_self, rfl⟩
      · rcases ih hmem with hkey | ⟨entry', hentry', heq⟩
        · exact Or.inl hkey
        · exact Or.inr ⟨entry', mem_cons_of_mem first hentry', heq⟩

theorem Distinct.alter (h : Distinct entries) (key : Value) (f : List ℕ → List ℕ) :
    Distinct (alter key f entries) := by
  induction entries with
  | nil => exact pairwise_singleton _ _
  | cons entry entries ih =>
    obtain ⟨hhead, htail⟩ := pairwise_cons.mp h
    rw [HashIndex.alter]
    split_ifs with hk
    · exact pairwise_cons.mpr ⟨hhead, htail⟩
    · refine pairwise_cons.mpr ⟨fun entry' hentry' => ?_, ih htail⟩
      rcases mem_keys_alter hentry' with hkey | ⟨entry'', hmem, heq⟩
      · rw [hkey]
        exact eq_false_iff.mpr hk
      · rw [← heq]
        exact hhead entry'' hmem

theorem Distinct.applyBucket (h : Distinct entries) (bucket : Value × List ℕ) :
    Distinct (applyBucket entries bucket) := by
  unfold HashIndex.applyBucket
  split_ifs
  · exact h.sublist (eraseP_sublist)
  · exact h.alter _ _

/-- A bucket that is applied decides the lookups of equal keys. -/
theorem lookup_applyBucket (h : Distinct entries) (bucket : Value × List ℕ) (key : Value) :
    lookup (applyBucket entries bucket) key =
      if bucket.1.beq key then bucket.2 else lookup entries key := by
  unfold applyBucket
  split_ifs with hempty hkey hkey
  · rw [lookup_eraseP h, if_pos hkey, isEmpty_iff.mp hempty]
  · rw [lookup_eraseP h, if_neg hkey]
  · rw [lookup_alter, if_pos hkey]
  · rw [lookup_alter, if_neg hkey]

/-- Buckets that agree with `value` on `key` leave `value` there when one of them has that key. -/
theorem lookup_foldl_applyBucket (h : Distinct entries)
    {value : List ℕ} (hvalue : ∀ bucket ∈ buckets, bucket.1.beq key = true → bucket.2 = value) :
    lookup (buckets.foldl applyBucket entries) key =
      if buckets.any (·.1.beq key) then value else lookup entries key := by
  induction buckets generalizing entries with
  | nil => simp
  | cons bucket buckets ih =>
    have hrest := ih (h.applyBucket bucket) fun b hb => hvalue b (mem_cons_of_mem bucket hb)
    rw [foldl_cons, hrest, lookup_applyBucket h, any_cons]
    cases hkey : bucket.1.beq key with
    | false => rw [if_neg Bool.false_ne_true, Bool.false_or]
    | true => simp [hvalue bucket mem_cons_self hkey]

theorem distinct_foldl_applyBucket (h : Distinct entries) (buckets : List (Value × List ℕ)) :
    Distinct (buckets.foldl applyBucket entries) := by
  induction buckets generalizing entries with
  | nil => exact h
  | cons bucket buckets ih => exact ih (h.applyBucket bucket)

theorem foldl_emplace (h : Distinct (entries ++ buckets)) :
    buckets.foldl (fun entries bucket =>
        if entries.any (·.1.beq bucket.1) then entries else entries ++ [bucket]) entries =
      entries ++ buckets := by
  induction buckets generalizing entries with
  | nil => simp
  | cons bucket buckets ih =>
    have hnew : ¬ entries.any (·.1.beq bucket.1) = true := by
      rw [any_eq_true]
      rintro ⟨entry, hentry, hkey⟩
      have hdist := (pairwise_append.mp h).2.2 entry hentry bucket mem_cons_self
      rw [hdist] at hkey
      exact false_ne_true hkey
    rw [append_cons] at h ⊢
    rw [foldl_cons, if_neg hnew, ih h]

theorem entries_replaceFromBuckets (h : Distinct entries) :
    (replaceFromBuckets entries).entries = entries :=
  foldl_emplace h

end Buckets

section Replica

/-- The two tables hold no key twice, and unless the next delta replaces everything, they answer
alike on the keys that are not dirty. -/
structure Follows (source replica : HashIndex) : Prop where
  distinct_source : Distinct source.entries
  distinct_replica : Distinct replica.entries
  agree : source.fullReplaceDirty = false → ∀ key, (∀ d ∈ source.dirtyKeys, d.beq key = false) →
    replica.find key = source.find key

variable {source replica : HashIndex} {key : Value}

theorem mem_dirtyKeys_markDirty (index : HashIndex) (key : Value) {d : Value}
    (h : d ∈ index.dirtyKeys) : d ∈ (index.markDirty key).dirtyKeys := by
  unfold markDirty
  split_ifs
  · exact h
  · exact mem_append_left [key] h

/-- Some dirty key answers for every key that is equal to a marked one. -/
theorem exists_dirtyKeys_markDirty (index : HashIndex) {key' : Value}
    (h : key.beq key' = true) : ∃ d ∈ (index.markDirty key).dirtyKeys, d.beq key' = true := by
  unfold markDirty
  split_ifs with hdirty
  · obtain ⟨d, hd, hbeq⟩ := any_eq_true.mp hdirty
    exact ⟨d, hd, beq_trans hbeq h⟩
  · exact ⟨key, mem_append_right _ (mem_singleton_self key), h⟩

@[simp] theorem fullReplaceDirty_markDirty (index : HashIndex) (key : Value) :
    (index.markDirty key).fullReplaceDirty = index.fullReplaceDirty := by
  unfold markDirty
  split_ifs <;> rfl

/-- A change of the buckets that only the lookups of a marked key see. -/
theorem Follows.mark (h : Follows source replica) {entries : List (Value × List ℕ)}
    (hdist : Distinct entries)
    (hsame : ∀ key', key.beq key' = false → lookup entries key' = source.find key') :
    Follows ({ source with entries := entries }.markDirty key) replica where
  distinct_source := by rwa [entries_markDirty]
  distinct_replica := h.distinct_replica
  agree := by
    intro hfull key' hclean
    rw [fullReplaceDirty_markDirty] at hfull
    have hkey : key.beq key' = false := by
      refine eq_false_iff.mpr fun hbeq => ?_
      obtain ⟨d, hd, hd'⟩ := exists_dirtyKeys_markDirty { source with entries := entries } hbeq
      rw [hclean d hd] at hd'
      exact false_ne_true hd'
    have hold : ∀ d ∈ source.dirtyKeys, d.beq key' = false := fun d hd =>
      hclean d (mem_dirtyKeys_markDirty { source with entries := entries } key hd)
    rw [h.agree hfull key' hold, ← hsame key' hkey, find, entries_markDirty]

theorem Follows.insert (h : Follows source replica) (key : Value) (rowId : ℕ) :
    Follows (source.insert key rowId) replica :=
  h.mark (h.distinct_source.alter key _) fun key' hkey => by
    rw [lookup_alter, if_neg (eq_false_iff.mp hkey), find]

theorem remove_of_find? {entry : Value × List ℕ}
    (h : source.entries.find? (fun entry => entry.1.beq key) = some entry) (rowId : ℕ) :
    source.remove key rowId =
      { source with
        entries := applyBucket source.entries (key, entry.2.filter (· ≠ rowId)) }.markDirty
          key := by
  rw [remove, h]
  rfl

theorem remove_of_find?_eq_none
    (h : source.entries.find? (fun entry => entry.1.beq key) = none) (rowId : ℕ) :
    source.remove key rowId = source := by
  rw [remove, h]

theorem Follows.remove (h : Follows source replica) (key : Value) (rowId : ℕ) :
    Follows (source.remove key rowId) replica := by
  cases hfind : source.entries.find? fun entry => entry.1.beq key with
  | none => rwa [remove_of_find?_eq_none hfind]
  | some entry =>
    rw [remove_of_find? hfind]
    refine h.mark (h.distinct_source.applyBucket _) fun key' hkey => ?_
    rw [lookup_applyBucket h.distinct_source, if_neg (eq_false_iff.mp hkey), find]

theorem Follows.clear (h : Follows source replica) : Follows source.clear replica where
  distinct_source := List.Pairwise.nil
  distinct_replica := h.distinct_replica
  agree := by rintro ⟨⟩

/-- The bucket of a dirty key in a delta. -/
def dirtyBucket (source : HashIndex) (key : Value) : Value × List ℕ :=
  match source.entries.find? fun entry => entry.1.beq key with
  | some entry => entry
  | none => (key, [])

theorem beq_dirtyBucket (source : HashIndex) (d key : Value) :
    (source.dirtyBucket d).1.beq key = d.beq key := by
  unfold dirtyBucket
  cases hfind : source.entries.find? fun entry => entry.1.beq d with
  | none => rfl
  | some entry =>
    have hd := find?_some hfind
    exact beq_congr_left hd key

theorem dirtyBucket_snd {d : Value} (h : d.beq key = true) :
    (source.dirtyBucket d).2 = source.find key := by
  rw [find, ← lookup_congr _ h, lookup, dirtyBucket]
  cases source.entries.find? fun entry => entry.1.beq d <;> rfl

theorem Follows.take_full (h : Follows source replica) (hfull : source.fullReplaceDirty = true) :
    (replica.applyDirtyBuckets source.takeDirtyBuckets.1).entries = source.entries := by
  rw [takeDirtyBuckets, if_pos hfull]
  exact entries_replaceFromBuckets h.distinct_source

theorem take_delta (hfull : source.fullReplaceDirty = false) :
    (replica.applyDirtyBuckets source.takeDirtyBuckets.1).entries =
      (source.dirtyKeys.map source.dirtyBucket).foldl applyBucket replica.entries := by
  rw [takeDirtyBuckets, if_neg (eq_false_iff.mp hfull)]
  rfl

/-- A delta of dirty buckets brings the replica up to date. -/
theorem Follows.find_take_delta (h : Follows source replica)
    (hfull : source.fullReplaceDirty = false) (key : Value) :
    (replica.applyDirtyBuckets source.takeDirtyBuckets.1).find key = source.find key := by
  have hvalue : ∀ bucket ∈ source.dirtyKeys.map source.dirtyBucket, bucket.1.beq key = true →
      bucket.2 = source.find key := by
    intro bucket hbucket hkey
    obtain ⟨d, -, rfl⟩ := mem_map.mp hbucket
    rw [beq_dirtyBucket] at hkey
    exact dirtyBucket_snd hkey
  rw [find, take_delta hfull, lookup_foldl_applyBucket h.distinct_replica hvalue]
  split_ifs with hany
  · rfl
  · refine h.agree hfull key fun d hd => eq_false_iff.mpr fun hkey => hany ?_
    rw [← beq_dirtyBucket source] at hkey
    exact any_eq_true.mpr ⟨_, mem_map_of_mem hd, hkey⟩

theorem Follows.find_take (h : Follows source replica) (key : Value) :
    (replica.applyDirtyBuckets source.takeDirtyBuckets.1).find key =
      source.takeDirtyBuckets.2.find key := by
  cases hfull : source.fullReplaceDirty with
  | false => exact h.find_take_delta hfull key
  | true =>
    rw [find, h.take_full hfull]
    rfl

theorem Follows.take (h : Follows source replica) :
    Follows source.takeDirtyBuckets.2 (replica.applyDirtyBuckets source.takeDirtyBuckets.1) where
  distinct_source := h.distinct_source
  distinct_replica := by
    cases hfull : source.fullReplaceDirty with
    | false =>
      rw [take_delta hfull]
      exact distinct_foldl_applyBucket h.distinct_replica _
    | true =>
      rw [h.take_full hfull]
      exact h.distinct_source
  agree := fun _ key _ => h.find_take key

/-- A call on the source; a delta that is taken is applied to the replica. -/
inductive Call where
  | insert (key : Value) (rowId : ℕ)
  | remove (key : Value) (rowId : ℕ)
  | clear
  | takeDirtyBuckets
  deriving DecidableEq

/-- The source and the replica after a call. -/
def Call.run (tables : HashIndex × HashIndex) : Call → HashIndex × HashIndex
  | insert key rowId => (tables.1.insert key rowId, tables.2)
  | remove key rowId => (tables.1.remove key rowId, tables.2)
  | clear => (tables.1.clear, tables.2)
  | takeDirtyBuckets =>
    (tables.1.takeDirtyBuckets.2, tables.2.applyDirtyBuckets tables.1.takeDirtyBuckets.1)

theorem Follows.run (h : Follows source replica) (call : Call) :
    Follows (call.run (source, replica)).1 (call.run (source, replica)).2 := by
  cases call with
  | insert key rowId => exact h.insert key rowId
  | remove key rowId => exact h.remove key rowId
  | clear => exact h.clear
  | takeDirtyBuckets => exact h.take

theorem Follows.runs (h : Follows source replica) (calls : List Call) :
    Follows (calls.foldl Call.run (source, replica)).1
      (calls.foldl Call.run (source, replica)).2 := by
  induction calls generalizing source replica with
  | nil => exact h
  | cons call calls ih => exact ih (h.run call)

/-- A replica that answered like its source at the start, and is given every delta in order, answers
like it after each take. -/
theorem find_replica (source replica : HashIndex) (hsource : Distinct source.entries)
    (hreplica : Distinct replica.entries) (hstart : ∀ key, replica.find key = source.find key)
    (calls : List Call) (key : Value) :
    let tables := (calls ++ [Call.takeDirtyBuckets]).foldl Call.run (source, replica)
    tables.2.find key = tables.1.find key := by
  intro tables
  have hfollows : Follows source replica := ⟨hsource, hreplica, fun _ key _ => hstart key⟩
  simp only [tables, foldl_append, foldl_cons, foldl_nil]
  exact (hfollows.runs calls).find_take key

/-- A key is created, emptied and created again, then everything is cleared between two takes. -/
theorem find_replica_cleared :
    let calls := [Call.insert (.int 1) 5, .remove (.int 1) 5, .insert (.int 1) 6,
      .takeDirtyBuckets, .insert (.double Double.nan) 7, .clear, .insert (.int 2) 8]
    let tables := (calls ++ [Call.takeDirtyBuckets]).foldl Call.run (({} : HashIndex), {})
    tables.1.find (.int 2) = [8] ∧ tables.2.find (.int 2) = tables.1.find (.int 2) := by
  intro calls tables
  exact ⟨by decide, find_replica {} {} List.Pairwise.nil List.Pairwise.nil (fun _ => rfl) calls _⟩

end Replica

end HashIndex

end VertexDB
