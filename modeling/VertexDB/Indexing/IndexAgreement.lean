import VertexDB.Indexing.IndexManager
import VertexDB.Indexing.KeyOrder

/-!
# What the stores of the indexes were built from

`IndexManager.Agrees` says which row ids a lookup in a hash store returns. This file says how the
two stores of an index came about: for each index there is a log of the keys of the live rows, each
row once, and the stores are what insertion of the logged keys makes of empty ones. A row is added
at the end of the log, everything else rebuilds. The lookups of both stores follow: how often a row
id is in the result, and that the ordered store finds its keys when none of them has a NaN.
-/

namespace VertexDB

open Exec BTreeIndex Std.ExtTreeMap List PageRowStore IndexManager

variable {log : List (ℕ × Value)} {k : Value}

section Stores

/-- The keys under which the hash store of an index holds a row: the trigrams of its text, or its
one key. -/
def storedKeys (trigram : Bool) (key : Value) : List Value :=
  if trigram then
    match key with
    | .string text => (extractTrigrams text).map Value.string
    | _ => []
  else [key]

/-- The row ids that a lookup returns once the logged keys have been inserted. -/
def hits (trigram : Bool) (log : List (ℕ × Value)) (key : Value) : List ℕ :=
  log.flatMap fun entry => ((storedKeys trigram entry.2).filter (·.beq key)).map fun _ => entry.1

/-- The leaves once the logged keys have been inserted; a trigram index has none. -/
def leaves (trigram : Bool) (log : List (ℕ × Value)) : List (Value × List ℕ) :=
  if trigram then []
  else log.foldl (fun entries entry => BTreeIndex.insertEntry entry.2 entry.1 entries) []

theorem HashIndex.find_foldl_insert (keys : List Value) (rowId : ℕ) (index : HashIndex)
    (key : Value) :
    (keys.foldl (fun index k => index.insert k rowId) index).find key =
      index.find key ++ (keys.filter (·.beq key)).map fun _ => rowId := by
  induction keys generalizing index with
  | nil => simp
  | cons k keys ih =>
    rw [foldl_cons, ih, HashIndex.find_insert, filter_cons]
    cases k.beq key <;> simp

theorem mem_hits {trigram : Bool} {key : Value} {r : ℕ} :
    r ∈ hits trigram log key ↔
      ∃ k, (r, k) ∈ log ∧ ∃ k' ∈ storedKeys trigram k, k'.beq key = true := by
  simp only [hits, mem_flatMap, mem_map, mem_filter]
  constructor
  · rintro ⟨⟨i, k⟩, hentry, k', ⟨hk', hbeq⟩, rfl⟩
    exact ⟨k, hentry, k', hk', hbeq⟩
  · rintro ⟨k, hentry, k', hk', hbeq⟩
    exact ⟨(r, k), hentry, k', ⟨hk', hbeq⟩, rfl⟩

/-- How often a lookup returns the row id of a logged key. -/
theorem count_hits {trigram : Bool} (hlog : (log.map Prod.fst).Nodup) {r : ℕ}
    (hmem : (r, k) ∈ log) (key : Value) :
    (hits trigram log key).count r = (storedKeys trigram k).countP (·.beq key) := by
  induction log with
  | nil => cases hmem
  | cons entry log ih =>
    obtain ⟨hnot, hlog'⟩ := nodup_cons.mp hlog
    rw [hits, flatMap_cons, count_append, map_const', count_replicate, ← countP_eq_length_filter]
    change _ + (hits trigram log key).count r = _
    rcases mem_cons.mp hmem with rfl | hmem'
    · have habsent : r ∉ hits trigram log key := fun hr => by
        obtain ⟨k', hk', -⟩ := mem_hits.mp hr
        exact hnot (mem_map.mpr ⟨_, hk', rfl⟩)
      rw [if_pos (beq_self_eq_true r), count_eq_zero_of_not_mem habsent, add_zero]
    · have hne : entry.1 ≠ r := fun heq => hnot (heq ▸ mem_map_of_mem hmem')
      rw [if_neg (by simpa using hne), zero_add, ih hlog' hmem']

/-- The leaves hold the logged keys and no others. -/
theorem holds_leaves (log : List (ℕ × Value)) (r : ℕ) (q : Value) :
    BTreeIndex.Holds (leaves false log) r q ↔ ∃ k, (r, k) ∈ log ∧ k.beq q = true := by
  have hfold : ∀ entries, BTreeIndex.Holds (log.foldl
      (fun entries entry => insertEntry entry.2 entry.1 entries) entries) r q ↔
      BTreeIndex.Holds entries r q ∨ ∃ k, (r, k) ∈ log ∧ k.beq q = true := by
    induction log with
    | nil => simp
    | cons entry log ih =>
      intro entries
      rw [foldl_cons, ih, holds_insertEntry, or_assoc]
      refine or_congr_right ⟨?_, ?_⟩
      · rintro (⟨rfl, hk⟩ | ⟨k, hk, hbeq⟩)
        · exact ⟨entry.2, mem_cons_self, hk⟩
        · exact ⟨k, mem_cons_of_mem _ hk, hbeq⟩
      · rintro ⟨k, hk, hbeq⟩
        rcases mem_cons.mp hk with rfl | hk
        · exact Or.inl ⟨rfl, hbeq⟩
        · exact Or.inr ⟨k, hk, hbeq⟩
  rw [leaves, if_neg Bool.false_ne_true, hfold]
  simp [BTreeIndex.Holds]

/-- The keys of the leaves grow when no logged key has a NaN, and each of them was logged. -/
theorem sorted_leaves (hlog : ∀ entry ∈ log, entry.2.IsKey) :
    BTreeIndex.Sorted (leaves false log) ∧
      ∀ leaf ∈ leaves false log, ∃ entry ∈ log, leaf.1 = entry.2 := by
  have hfold : ∀ entries, BTreeIndex.Sorted entries → (∀ entry ∈ log, entry.2.IsKey) →
      BTreeIndex.Sorted (log.foldl
        (fun entries entry => insertEntry entry.2 entry.1 entries) entries) ∧
      ∀ leaf ∈ log.foldl (fun entries entry => insertEntry entry.2 entry.1 entries) entries,
        (∃ entry ∈ log, leaf.1 = entry.2) ∨ ∃ ids, (leaf.1, ids) ∈ entries := by
    induction log with
    | nil => exact fun entries hentries _ => ⟨hentries, fun leaf hleaf => Or.inr ⟨leaf.2, hleaf⟩⟩
    | cons entry log ih =>
      intro entries hentries hkeys
      obtain ⟨hkey, hkeys'⟩ := forall_mem_cons.mp hkeys
      obtain ⟨hsorted, hold⟩ := hentries.insertEntry hkey entry.1
      obtain ⟨hsorted', hold'⟩ := ih hkeys' _ hsorted hkeys'
      refine ⟨hsorted', fun leaf hleaf => ?_⟩
      rcases hold' leaf hleaf with ⟨e, he, heq⟩ | ⟨ids, hids⟩
      · exact Or.inl ⟨e, mem_cons_of_mem _ he, heq⟩
      · exact (hold _ hids).imp_left fun heq => ⟨entry, mem_cons_self, heq⟩
  obtain ⟨hsorted, hold⟩ := hfold [] sorted_nil hlog
  rw [leaves, if_neg Bool.false_ne_true]
  exact ⟨hsorted, fun leaf hleaf => (hold leaf hleaf).resolve_right (by simp)⟩

theorem perm_leaves (log : List (ℕ × Value)) :
    ((leaves false log).flatMap Prod.snd).Perm (log.map Prod.fst) := by
  have hfold : ∀ entries : List (Value × List ℕ), ((log.foldl
      (fun entries entry => insertEntry entry.2 entry.1 entries) entries).flatMap
        Prod.snd).Perm (log.map Prod.fst ++ entries.flatMap Prod.snd) := by
    induction log with
    | nil => simp
    | cons entry log ih =>
      intro entries
      rw [foldl_cons, map_cons, cons_append]
      exact (ih _).trans (((perm_insertEntry _ _ _).append_left _).trans perm_middle)
  rw [leaves, if_neg Bool.false_ne_true]
  simpa using hfold []

theorem textsGrow_leaves (log : List (ℕ × Value)) : BTreeIndex.TextsGrow (leaves false log) := by
  rw [leaves, if_neg Bool.false_ne_true]
  exact foldlRecOn log _ List.Pairwise.nil fun entries h entry _ =>
    BTreeIndex.TextsGrow.insertEntry h entry.2 entry.1

end Stores

namespace IndexManager

variable {m m' : IndexManager} {schema : List Column} {rowStore rowStore' : PageRowStore}
  {row : Row} {u : PUnit}

/-- The key of the row in the index equals `key`. -/
def KeyEquals (m : IndexManager) (name : String) (row : Row) (schema : List Column) (key : Value) :
    Prop :=
  ∃ k, m.indexKeyForRow name row schema = .ok k ∧ k.beq key = true

/-- The stores of the index were built from the log, which has the key of every live row once. -/
structure Log (m : IndexManager) (rowStore : PageRowStore) (schema : List Column) (name : String)
    (log : List (ℕ × Value)) : Prop where
  find : ∀ key, (m.hashIndex name).find key = hits (m.isTrigram name) log key
  entries : (m.orderedIndex name).entries = leaves (m.isTrigram name) log
  nodup : (log.map Prod.fst).Nodup
  mem_iff : ∀ r k, (r, k) ∈ log ↔
    ∃ row, rowStore.get r = some row ∧ m.indexKeyForRow name row schema = .ok k

/-- The stores of every index were built from a log, and every live row has a key in every index. -/
structure Built (m : IndexManager) (rowStore : PageRowStore) (schema : List Column) : Prop
    extends Registered m where
  indexable : ∀ i row, rowStore.get i = some row → m.Indexable row schema
  exists_log : ∀ name ∈ m.indexColumns, ∃ log, m.Log rowStore schema name log

section Returns

/-- The first loop of `addRowToIndexes` returns only when the row has a key in every index. -/
theorem isOk_of_forM_addRowToHashIndex {rowId : ℕ} {names : List String}
    (h : forM names (addRowToHashIndex rowId row schema) m = .ok u m') :
    ∀ name ∈ names, (m.indexKeyForRow name row schema).isOk = true := by
  induction names generalizing m with
  | nil => simp
  | cons name names ih =>
    rw [forM_cons_run, bind_eq_ok] at h
    obtain ⟨v, m₁, hstep, hrest⟩ := h
    simp only [addRowToHashIndex, get_bind, bind_eq_ok, ofExcept_eq_ok] at hstep
    obtain ⟨keys, m₂, ⟨hkeys, rfl⟩, hset⟩ := hstep
    rw [set_apply, EStateM.Result.ok.injEq] at hset
    rw [forall_mem_cons]
    constructor
    · rw [hashKeysForRow] at hkeys
      cases hkey : m₂.indexKeyForRow name row schema with
      | error e =>
        rw [hkey] at hkeys
        cases hkeys
      | ok key => rfl
    · have hkeyFn : m₁.indexKeyForRow = m₂.indexKeyForRow := hset.2 ▸ indexKeyForRow_congr rfl rfl
      rw [← hkeyFn]
      exact ih hrest

theorem indexable_of_addRowToIndexes (hm : m.Registered) {rowId : ℕ}
    (hget : rowStore.get rowId = some row)
    (h : addRowToIndexes rowId rowStore schema m = .ok u m') : m.Indexable row schema := by
  simp only [addRowToIndexes, hget, get_bind, bind_eq_ok] at h
  obtain ⟨v, m₁, hhash, -⟩ := h
  intro name hname
  refine isOk_of_forM_addRowToHashIndex hhash name ?_
  rw [Std.ExtTreeMap.mem_keys, hm.mem_indexes]
  exact mem_keys.mp hname

/-- The loop of `rebuildIndexes` returns only when every row has a key in every index. -/
theorem indexable_of_forM_addRowToIndexes {ids : List ℕ} (hm : m.Registered)
    (h : forM ids (fun i => addRowToIndexes i rowStore schema) m = .ok u m') :
    ∀ i ∈ ids, ∀ row, rowStore.get i = some row → m.Indexable row schema := by
  induction ids generalizing m with
  | nil => simp
  | cons i ids ih =>
    rw [forM_cons_run, bind_eq_ok] at h
    obtain ⟨v, m₁, hstep, hrest⟩ := h
    rw [forall_mem_cons]
    cases hget : rowStore.get i with
    | none =>
      have hsame : addRowToIndexes i rowStore schema m = .ok ⟨⟩ m := by
        simp [addRowToIndexes, hget]
      obtain rfl : m = m₁ := by
        rw [hsame, EStateM.Result.ok.injEq] at hstep
        exact hstep.2
      exact ⟨by simp, ih hm hrest⟩
    | some row =>
      have hrow := indexable_of_addRowToIndexes hm hget hstep
      obtain rfl : m.addRow i row schema = m₁ := by
        rw [addRowToIndexes_ok hm hget hrow, EStateM.Result.ok.injEq] at hstep
        exact hstep.2
      refine ⟨fun row' hrow' => Option.some.inj hrow' ▸ hrow, fun j hj row' hget' name hname => ?_⟩
      have hkeyFn : (m.addRow i row schema).indexKeyForRow = m.indexKeyForRow :=
        indexKeyForRow_congr rfl rfl
      rw [← hkeyFn]
      exact ih (hm.addRow i row) hrest j hj row' hget' name hname

theorem indexable_of_rebuildIndexes (hm : m.Registered) (hs : rowStore.Valid)
    (h : rebuildIndexes rowStore schema m = .ok u m') :
    ∀ i row, rowStore.get i = some row → m.Indexable row schema := by
  intro i row hget name hname
  have hi := ((hs.get_isSome_iff i).mp (by simp [hget])).1
  exact indexable_of_forM_addRowToIndexes hm.clearIndexes h i (mem_range.mpr hi) row hget name hname

end Returns

section AddRow

variable {name : String}

theorem isTrigram_congr (hexpr : m'.indexExpressions = m.indexExpressions) :
    m'.isTrigram = m.isTrigram := by
  funext name
  rw [isTrigram, hexpr, isTrigram]

theorem hashKeysForRow_ok (h : m.indexKeyForRow name row schema = .ok k) :
    m.hashKeysForRow name row schema = .ok (storedKeys (m.isTrigram name) k) := by
  rw [hashKeysForRow, h]
  unfold storedKeys
  cases m.isTrigram name with
  | false => rfl
  | true => cases k <;> rfl

theorem orderedIndex_addRow (m : IndexManager) (rowId : ℕ) (row : Row)
    (hname : name ∈ m.orderedIndexes) :
    (m.addRow rowId row schema).orderedIndex name =
      m.addOrderedKey rowId row schema name (m.orderedIndex name) := by
  obtain ⟨index, hidx⟩ := Option.isSome_iff_exists.mp (mem_iff_isSome_getElem?.mp hname)
  simp [orderedIndex, addRow, hidx]

/-- One row more in the stores is one key more at the end of the log. -/
theorem stores_addRow (hm : m.Registered) (hname : name ∈ m.indexColumns)
    (hfind : ∀ key, (m.hashIndex name).find key = hits (m.isTrigram name) log key)
    (hentries : (m.orderedIndex name).entries = leaves (m.isTrigram name) log)
    (hk : m.indexKeyForRow name row schema = .ok k) (rowId : ℕ) :
    (∀ key, ((m.addRow rowId row schema).hashIndex name).find key =
        hits (m.isTrigram name) (log ++ [(rowId, k)]) key) ∧
      ((m.addRow rowId row schema).orderedIndex name).entries =
        leaves (m.isTrigram name) (log ++ [(rowId, k)]) := by
  constructor
  · intro key
    rw [hashIndex_addRow m rowId row ((hm.mem_indexes name).mpr hname), addHashKeys,
      hashKeysForRow_ok hk]
    simp only [HashIndex.find_foldl_insert, hfind, hits, flatMap_append, flatMap_singleton]
  · rw [orderedIndex_addRow m rowId row ((hm.mem_orderedIndexes name).mpr hname), addOrderedKey, hk,
      leaves, foldl_append]
    rw [leaves] at hentries
    split_ifs at hentries ⊢
    · exact hentries
    · simp only [BTreeIndex.insert, hentries, foldl_cons, foldl_nil]

theorem stores_addRows {entries : List (ℕ × Row)} (hm : m.Registered)
    (hname : name ∈ m.indexColumns) {key : ℕ × Row → Value}
    (hkey : ∀ entry ∈ entries, m.indexKeyForRow name entry.2 schema = .ok (key entry))
    (hfind : ∀ key, (m.hashIndex name).find key = hits (m.isTrigram name) log key)
    (hentries : (m.orderedIndex name).entries = leaves (m.isTrigram name) log) :
    (∀ q, ((m.addRows entries schema).hashIndex name).find q =
        hits (m.isTrigram name) (log ++ entries.map fun entry => (entry.1, key entry)) q) ∧
      ((m.addRows entries schema).orderedIndex name).entries =
        leaves (m.isTrigram name) (log ++ entries.map fun entry => (entry.1, key entry)) := by
  induction entries generalizing m log with
  | nil => simpa [addRows] using ⟨hfind, hentries⟩
  | cons entry entries ih =>
    obtain ⟨hhead, htail⟩ := forall_mem_cons.mp hkey
    obtain ⟨hfind₁, hentries₁⟩ := stores_addRow hm hname hfind hentries hhead entry.1
    have hkeyFn : (m.addRow entry.1 entry.2 schema).indexKeyForRow = m.indexKeyForRow :=
      indexKeyForRow_congr rfl rfl
    have := ih (hm.addRow entry.1 entry.2) hname (by rwa [hkeyFn]) hfind₁ hentries₁
    rw [append_assoc] at this
    exact this

end AddRow

/-- Rebuilding that returns leaves a log for every index. -/
theorem built_of_rebuildIndexes (hm : m.Registered) (hs : rowStore.Valid)
    (h : rebuildIndexes rowStore schema m = .ok u m') :
    m'.Built rowStore schema ∧ m'.indexColumns = m.indexColumns ∧
      m'.indexExpressions = m.indexExpressions := by
  have hrows := indexable_of_rebuildIndexes hm hs h
  rw [rebuildIndexes_ok hm hrows, EStateM.Result.ok.injEq] at h
  obtain ⟨-, rfl⟩ := h
  obtain ⟨hcol, hexpr⟩ := indexColumns_addRows m.clearIndexes rowStore.liveEntries schema
  refine ⟨⟨hm.clearIndexes.addRows _, (agrees_rebuilt hm hs hrows).indexable, fun name hname => ?_⟩,
    hcol, hexpr⟩
  rw [hcol] at hname
  have hname' : name ∈ m.indexColumns := hname
  -- cleared stores were built from the empty log
  have hfind : ∀ key, (m.clearIndexes.hashIndex name).find key =
      hits (m.clearIndexes.isTrigram name) [] key := by
    intro key
    obtain ⟨index, hidx⟩ := Option.isSome_iff_exists.mp
      (mem_iff_isSome_getElem?.mp ((hm.mem_indexes name).mpr hname'))
    simp [hashIndex, clearIndexes, hidx, hits]
  have hentries : (m.clearIndexes.orderedIndex name).entries =
      leaves (m.clearIndexes.isTrigram name) [] := by
    obtain ⟨index, hidx⟩ := Option.isSome_iff_exists.mp
      (mem_iff_isSome_getElem?.mp ((hm.mem_orderedIndexes name).mpr hname'))
    rw [leaves, List.foldl_nil, ite_self]
    simp [orderedIndex, clearIndexes, hidx, clear]
  have hok : ∀ entry ∈ rowStore.liveEntries, ∃ k, m.indexKeyForRow name entry.2 schema = .ok k := by
    intro entry hentry
    have hget := (mem_liveEntries hs entry.1 entry.2).mp hentry
    have hisOk := hrows _ _ hget name (mem_keys.mpr hname')
    cases hk : m.indexKeyForRow name entry.2 schema with
    | error e =>
      rw [hk] at hisOk
      cases hisOk
    | ok k => exact ⟨k, rfl⟩
  have : Nonempty Value := ⟨.null⟩
  choose! key hkey using hok
  have hkey' : ∀ entry ∈ rowStore.liveEntries,
      m.clearIndexes.indexKeyForRow name entry.2 schema = .ok (key entry) := hkey
  obtain ⟨hfind', hentries'⟩ := stores_addRows hm.clearIndexes hname hkey' hfind hentries
  rw [← isTrigram_congr hexpr] at hfind' hentries'
  refine ⟨_, hfind', hentries', ?_, fun r k => ?_⟩
  · rw [List.nil_append, List.map_map]
    exact nodup_liveEntries rowStore
  · rw [List.nil_append, List.mem_map, indexKeyForRow_congr hcol hexpr]
    constructor
    · rintro ⟨entry, hentry, heq⟩
      obtain ⟨rfl, rfl⟩ := Prod.mk.inj heq
      exact ⟨entry.2, (mem_liveEntries hs _ _).mp hentry, hkey entry hentry⟩
    · rintro ⟨row, hget, hk⟩
      have hentry := (mem_liveEntries hs r row).mpr hget
      refine ⟨(r, row), hentry, ?_⟩
      rw [Except.ok.inj ((hkey _ hentry).symm.trans hk)]

/-- Adding the row of a new slot, when it returns, adds its keys to the logs. -/
theorem Built.of_addRowToIndexes (h : m.Built rowStore schema) {i : ℕ}
    (hfree : rowStore.get i = none)
    (hget : rowStore'.get = Function.update rowStore.get i (some row))
    (hadd : addRowToIndexes i rowStore' schema m = .ok u m') :
    m'.Built rowStore' schema ∧ m'.indexColumns = m.indexColumns ∧
      m'.indexExpressions = m.indexExpressions := by
  have hrow' : rowStore'.get i = some row := by rw [hget, Function.update_self]
  have hrow := indexable_of_addRowToIndexes h.toRegistered hrow' hadd
  rw [addRowToIndexes_ok h.toRegistered hrow' hrow, EStateM.Result.ok.injEq] at hadd
  obtain ⟨-, rfl⟩ := hadd
  have hkeyFn : (m.addRow i row schema).indexKeyForRow = m.indexKeyForRow :=
    indexKeyForRow_congr rfl rfl
  have hcases : ∀ r row', rowStore'.get r = some row' ↔
      r = i ∧ row = row' ∨ r ≠ i ∧ rowStore.get r = some row' := by
    intro r row'
    rw [hget, Function.update_apply]
    split_ifs with hr <;> simp [hr]
  refine ⟨⟨h.toRegistered.addRow i row, fun j row' hj => ?_, fun name hname => ?_⟩, rfl, rfl⟩
  · rw [Indexable, hkeyFn]
    rcases (hcases j row').mp hj with ⟨-, rfl⟩ | ⟨-, hj⟩
    · exact hrow
    · exact h.indexable j row' hj
  · obtain ⟨log, hlog⟩ := h.exists_log name hname
    cases hk : m.indexKeyForRow name row schema with
    | error e =>
      have := hrow name (mem_keys.mpr hname)
      rw [hk] at this
      cases this
    | ok k =>
      obtain ⟨hfind, hentries⟩ := stores_addRow h.toRegistered hname hlog.find hlog.entries hk i
      refine ⟨log ++ [(i, k)], hfind, hentries, ?_, fun r k' => ?_⟩
      · rw [map_append, nodup_append_comm]
        refine nodup_cons.mpr ⟨fun hmem => ?_, hlog.nodup⟩
        obtain ⟨⟨_, k'⟩, hentry, rfl⟩ := mem_map.mp hmem
        obtain ⟨row', hget', -⟩ := (hlog.mem_iff _ _).mp hentry
        rw [hget'] at hfree
        cases hfree
      · rw [mem_append, mem_singleton, hlog.mem_iff, hkeyFn]
        constructor
        · rintro (⟨row', hget', hk'⟩ | heq)
          · refine ⟨row', (hcases r row').mpr (Or.inr ⟨?_, hget'⟩), hk'⟩
            rintro rfl
            rw [hget'] at hfree
            cases hfree
          · obtain ⟨rfl, rfl⟩ := Prod.mk.inj heq
            exact ⟨row, hrow', hk⟩
        · rintro ⟨row', hget', hk'⟩
          rcases (hcases r row').mp hget' with ⟨rfl, rfl⟩ | ⟨-, hget'⟩
          · exact Or.inr (by rw [Except.ok.inj (hk'.symm.trans hk)])
          · exact Or.inl ⟨row', hget', hk'⟩

section Lookups

variable {name : String} {log : List (ℕ × Value)}

theorem hasKey_iff (hk : m.indexKeyForRow name row schema = .ok k)
    (key : Value) : m.HasKey name row schema key ↔
      ∃ k' ∈ storedKeys (m.isTrigram name) k, k'.beq key = true := by
  simp [HasKey, hashKeysForRow_ok hk]

theorem Built.mem_find (hm : m.Built rowStore schema) (hname : name ∈ m.indexColumns) (key : Value)
    (r : ℕ) :
    r ∈ (m.hashIndex name).find key ↔ ∃ row, rowStore.get r = some row ∧
      ∃ k, m.indexKeyForRow name row schema = .ok k ∧
        ∃ k' ∈ storedKeys (m.isTrigram name) k, k'.beq key = true := by
  obtain ⟨log, hlog⟩ := hm.exists_log name hname
  rw [hlog.find, mem_hits]
  constructor
  · rintro ⟨k, hmem, hk'⟩
    obtain ⟨row, hrow, hk⟩ := (hlog.mem_iff r k).mp hmem
    exact ⟨row, hrow, k, hk, hk'⟩
  · rintro ⟨row, hrow, k, hk, hk'⟩
    exact ⟨k, (hlog.mem_iff r k).mpr ⟨row, hrow, hk⟩, hk'⟩

theorem Built.agrees (h : m.Built rowStore schema) : m.Agrees rowStore schema := by
  refine ⟨h.toRegistered, h.indexable, fun name hname r key => ?_⟩
  have hcols := (h.mem_indexes name).mp hname
  rw [h.mem_find hcols]
  refine exists_congr fun row => and_congr_right fun hrow => ?_
  cases hk : m.indexKeyForRow name row schema with
  | error e =>
    have := h.indexable r row hrow name (mem_keys.mpr hcols)
    rw [hk] at this
    cases this
  | ok k => simp [hasKey_iff hk]

theorem Log.count_find (h : m.Log rowStore schema name log) {r : ℕ}
    (hrow : rowStore.get r = some row) (hk : m.indexKeyForRow name row schema = .ok k)
    (key : Value) :
    ((m.hashIndex name).find key).count r =
      (storedKeys (m.isTrigram name) k).countP (·.beq key) := by
  rw [h.find, count_hits h.nodup ((h.mem_iff r k).mpr ⟨row, hrow, hk⟩)]

/-- The ordered store finds its keys when none of them has a NaN. -/
theorem Log.mem_find_ordered (h : m.Log rowStore schema name log) (htri : m.isTrigram name = false)
    (hkeys : ∀ entry ∈ log, entry.2.IsKey) (r : ℕ) (key : Value) :
    r ∈ (m.orderedIndex name).find key ↔
      ∃ row, rowStore.get r = some row ∧ m.KeyEquals name row schema key := by
  have hentries := h.entries
  rw [htri] at hentries
  rw [BTreeIndex.Sorted.mem_find (hentries ▸ (sorted_leaves hkeys).1), hentries, holds_leaves]
  constructor
  · rintro ⟨k, hmem, hbeq⟩
    obtain ⟨row, hrow, hk⟩ := (h.mem_iff r k).mp hmem
    exact ⟨row, hrow, k, hk, hbeq⟩
  · rintro ⟨row, hrow, k, hk, hbeq⟩
    exact ⟨k, (h.mem_iff r k).mpr ⟨row, hrow, hk⟩, hbeq⟩

/-- The ordered store of an index on a single value returns the rows of the comparison when no key
is a NaN. -/
theorem Log.mem_orderedFind (h : m.Log rowStore schema name log) (htri : m.isTrigram name = false)
    (hkeys : ∀ entry ∈ log, entry.2.IsOrdered) (op : ComparisonOperator) (v : Value) (r : ℕ) :
    r ∈ (m.orderedIndex name).orderedFind op v ↔ ∃ row k, rowStore.get r = some row ∧
      m.indexKeyForRow name row schema = .ok k ∧ compareValues k op v = true := by
  have hentries := h.entries
  rw [htri] at hentries
  obtain ⟨hsorted, hlogged⟩ := sorted_leaves fun entry hentry => (hkeys entry hentry).isKey
  have hord : ∀ leaf ∈ (m.orderedIndex name).entries, leaf.1.IsOrdered := by
    rw [hentries]
    intro leaf hleaf
    obtain ⟨entry, hentry, heq⟩ := hlogged leaf hleaf
    exact heq ▸ hkeys entry hentry
  rw [BTreeIndex.Sorted.mem_orderedFind (hentries ▸ hsorted) hord]
  constructor
  · -- the leaf key stands for the equal keys under it
    rintro ⟨leaf, hleaf, hcompare, hr⟩
    have hself := (hord leaf hleaf).beq_self
    rw [hentries] at hleaf
    obtain ⟨k, hmem, hbeq⟩ := (holds_leaves log r leaf.1).mp ⟨leaf, hleaf, hself, hr⟩
    obtain ⟨row, hrow, hk⟩ := (h.mem_iff r k).mp hmem
    refine ⟨row, k, hrow, hk, ?_⟩
    rw [Value.compareValues_congr_of_beq (hkeys _ hmem) hbeq, hcompare]
  · rintro ⟨row, k, hrow, hk, hcompare⟩
    have hmem := (h.mem_iff r k).mpr ⟨row, hrow, hk⟩
    have hself := (hkeys _ hmem).beq_self
    obtain ⟨leaf, hleaf, hbeq, hr⟩ := (holds_leaves log r k).mpr ⟨k, hmem, hself⟩
    rw [← hentries] at hleaf
    refine ⟨leaf, hleaf, ?_, hr⟩
    rw [Value.compareValues_congr_of_beq (hord leaf hleaf) hbeq, hcompare]

/-- The keys of the indexes on one column or on an expression are not NaNs. -/
def OrderedKeys (m : IndexManager) (rowStore : PageRowStore) (schema : List Column) : Prop :=
  ∀ (name : String) i, m.indexColumns[name]? = some [i] → ∀ r row k, rowStore.get r = some row →
    m.indexKeyForRow name row schema = .ok k → k.IsOrdered

/-- Without expressions the keys are cells, so that live rows without NaNs are enough. -/
theorem orderedKeys_of_liveEntries (hs : rowStore.Valid) (hplain : m.indexExpressions = ∅)
    (hcells : ∀ entry ∈ rowStore.liveEntries, ∀ value ∈ entry.2, value.IsOrdered) :
    m.OrderedKeys rowStore schema := by
  intro name i hname r row k hrow hk
  rw [indexKeyForRow, hplain, getElem?_empty, hname] at hk
  obtain rfl : row.at i = k := Except.ok.inj hk
  rw [Row.at, List.getD]
  cases hvalue : row[i]? with
  | none => trivial
  | some value =>
    exact hcells (r, row) ((mem_liveEntries hs r row).mpr hrow) value
      (mem_of_getElem? hvalue)

/-- What the ordered store of an index on one column or on an expression finds; a trigram index
finds nothing. -/
theorem Built.mem_orderedFind (hm : m.Built rowStore schema) (hkeys : m.OrderedKeys rowStore schema)
    {i : ℕ} (hname : m.indexColumns[name]? = some [i]) (op : ComparisonOperator)
    (v : Value) (r : ℕ) :
    r ∈ (m.orderedIndex name).orderedFind op v ↔ m.isTrigram name = false ∧
      ∃ row, rowStore.get r = some row ∧ ∃ k, m.indexKeyForRow name row schema = .ok k ∧
        compareValues k op v = true := by
  obtain ⟨log, hlog⟩ := hm.exists_log name (mem_iff_isSome_getElem?.mpr (by rw [hname]; rfl))
  cases htri : m.isTrigram name with
  | true =>
    have hsub := BTreeIndex.orderedFind_sublist (m.orderedIndex name) op v
    rw [hlog.entries, htri] at hsub
    simp [List.sublist_nil.mp hsub]
  | false =>
    rw [hlog.mem_orderedFind htri fun entry hentry => ?_]
    · simp only [true_and, exists_and_left]
    · obtain ⟨row, hrow, hk⟩ := (hlog.mem_iff entry.1 entry.2).mp hentry
      exact hkeys name i hname entry.1 row entry.2 hrow hk

theorem Log.nodup_orderedFind (h : m.Log rowStore schema name log) (op : ComparisonOperator)
    (v : Value) : ((m.orderedIndex name).orderedFind op v).Nodup := by
  refine List.Nodup.sublist (orderedFind_sublist _ op v) ?_
  rw [h.entries]
  cases m.isTrigram name with
  | true => exact nodup_nil
  | false => exact (perm_leaves log).nodup_iff.mpr h.nodup

/-- A row with the text as its key is not among those with greater keys. -/
theorem Log.nodup_find_append_greater (h : m.Log rowStore schema name log)
    (htri : m.isTrigram name = false) (text : List UInt8) :
    ((m.hashIndex name).find (.string text) ++
      (m.orderedIndex name).orderedFind .greater (.string text)).Nodup := by
  have hentries := h.entries
  rw [htri] at hentries
  have hfind := h.find (.string text)
  rw [htri] at hfind
  rw [nodup_append']
  refine ⟨?_, h.nodup_orderedFind _ _, fun r hr => ?_⟩
  · rw [nodup_iff_count_le_one]
    intro r
    by_cases hr : r ∈ (m.hashIndex name).find (.string text)
    · rw [hfind] at hr ⊢
      obtain ⟨k, hmem, -⟩ := mem_hits.mp hr
      rw [count_hits h.nodup hmem]
      exact (countP_le_length).trans (by simp [storedKeys])
    · rw [count_eq_zero_of_not_mem hr]
      exact Nat.zero_le _
  · rw [hfind] at hr
    obtain ⟨k, hmem, k', hk', hbeq⟩ := mem_hits.mp hr
    obtain rfl : k' = k := by simpa [storedKeys] using hk'
    refine BTreeIndex.TextsGrow.not_mem_greaterThan ?_ ?_ ?_ <;> rw [hentries]
    · exact textsGrow_leaves log
    · exact (perm_leaves log).nodup_iff.mpr h.nodup
    · exact (holds_leaves log r _).mpr ⟨k', hmem, hbeq⟩

end Lookups

end IndexManager

end VertexDB
