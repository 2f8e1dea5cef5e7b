import VertexDB.Storage.TableSchema
import VertexDB.Storage.TableSpec

/-!
# What a call on a table has done when it returns

For every operation on a table, what its normal return says about the table before and after: which
checks have passed, which row now stands in which slot, and how the indexes were maintained. The
invariants of a table follow from these facts without another look at the operations.
-/

namespace VertexDB

open PageRowStore Std.ExtTreeMap Function

variable {u : Unit}

namespace IndexManager

open Exec

variable {m m' : IndexManager} {index : ℕ} {positions : List ℕ} {entries : List (String × List ℕ)}

theorem shiftPositions_of_not_mem (h : index ∉ positions) :
    shiftPositions index positions = (false, positions.map (shiftErased index)) := by
  induction positions with
  | nil => rfl
  | cons position positions ih =>
    rw [List.mem_cons, not_or] at h
    rw [shiftPositions, if_neg (Ne.symm h.1), ih h.2, List.map_cons]

theorem shiftPositions_of_mem (h : index ∈ positions) :
    (shiftPositions index positions).1 = true := by
  induction positions with
  | nil => cases h
  | cons position positions ih =>
    rw [shiftPositions]
    split_ifs with hhead
    · rfl
    · exact ih ((List.mem_cons.mp h).resolve_left (Ne.symm hhead))

/-- The index manager when the column at `index` is gone and no index was on it. -/
def withoutColumn (m : IndexManager) (index : ℕ) : IndexManager :=
  { m with
    indexColumns := m.indexColumns.map fun _ positions => positions.map (shiftErased index) }

/-- The loop over the indexes when one of them is on the column. -/
theorem forM_erasePosition_error {entry : String × List ℕ}
    (hentry : entry ∈ entries) (hused : index ∈ entry.2) :
    ∃ e m', forM entries (erasePosition index) m = .error e m' := by
  induction entries generalizing m with
  | nil => cases hentry
  | cons first entries ih =>
    rw [forM_cons_run]
    cases hstep : erasePosition index first m with
    | error e m' => exact ⟨e, m', bind_of_error hstep⟩
    | ok u m₁ =>
      rw [bind_of_ok hstep]
      refine ih ((List.mem_cons.mp hentry).resolve_left ?_)
      rintro rfl
      simp [erasePosition, shiftPositions_of_mem hused] at hstep

/-- The loop of `dropColumn` over the indexes when none is on the column. -/
theorem eraseColumn_ok (h : ∀ (name : String) positions, m.indexColumns[name]? = some positions →
    index ∉ positions) : eraseColumn index m = .ok ⟨⟩ (m.withoutColumn index) := by
  rw [eraseColumn, get_bind]
  refine forM_toList_map (fun columns => { m with indexColumns := columns }) _ m.indexColumns
    fun name positions hget columns _ => ?_
  simp [erasePosition, shiftPositions_of_not_mem (h name positions hget)]

/-- The loop of `dropColumn` over the indexes when one is on the column. -/
theorem eraseColumn_error {name : String}
    (hname : m.indexColumns[name]? = some positions) (hmem : index ∈ positions) :
    ∃ e m', eraseColumn index m = .error e m' := by
  rw [eraseColumn, get_bind]
  exact forM_erasePosition_error (mem_toList_iff_getElem?_eq_some.mpr hname) hmem

theorem eraseColumn_eq_ok (h : eraseColumn index m = .ok u m') :
    (∀ (name : String) positions, m.indexColumns[name]? = some positions → index ∉ positions) ∧
      m' = m.withoutColumn index := by
  by_cases hused : ∀ (name : String) positions, m.indexColumns[name]? = some positions →
      index ∉ positions
  · rw [eraseColumn_ok hused, EStateM.Result.ok.injEq] at h
    exact ⟨hused, h.2.symm⟩
  · push Not at hused
    obtain ⟨name, positions, hname, hmem⟩ := hused
    obtain ⟨e, m'', herror⟩ := eraseColumn_error hname hmem
    rw [herror] at h
    cases h

end IndexManager

namespace Table

open Exec

variable {t t' : Table} {rewrite : ℕ × Row → Except Error Row}

section Components

theorem onRowStore_eq_ok {α : Type} {x : EStateM Error PageRowStore α} {a : α} :
    onRowStore x t = .ok a t' ↔ ∃ s, x t.rowStore = .ok a s ∧ t' = { t with rowStore := s } :=
  zoom_eq_ok

theorem onIndexes_eq_ok {α : Type} {x : Table → EStateM Error IndexManager α} {a : α} :
    onIndexes x t = .ok a t' ↔
      ∃ m, x t t.indexManager = .ok a m ∧ t' = { t with indexManager := m } := by
  rw [onIndexes, get_bind]
  exact zoom_eq_ok

theorem onIndexes_eq_error {α : Type} {x : Table → EStateM Error IndexManager α} {e : Error} :
    onIndexes x t = .error e t' ↔
      ∃ m, x t t.indexManager = .error e m ∧ t' = { t with indexManager := m } := by
  rw [onIndexes, get_bind]
  exact zoom_eq_error

theorem writeVersion_bind {α : Type} (rowId writerId : ℕ) (g : Unit → EStateM Error Table α)
    (t : Table) : (writeVersion rowId writerId >>= g) t = g ⟨⟩ { t with
      versions := t.versions.write rowId ((t.rowStore.get rowId).getD []) writerId } := rfl

theorem pure_eq_ok {α : Type} {a b : α} :
    (pure a : EStateM Error Table α) t = .ok b t' ↔ a = b ∧ t = t' := by
  rw [pure_apply, EStateM.Result.ok.injEq]

theorem throw_eq_ok {α : Type} {e : Error} {b : α} :
    (throw e : EStateM Error Table α) t = .ok b t' ↔ False := by
  rw [throw_apply]
  exact iff_of_false (fun h => nomatch h) id

end Components

/-- The slot `i` now holds `row`, and the indexes were rebuilt, or extended by the row of a slot
that was free before. -/
structure SlotChange (t : Table) (i : ℕ) (row : Option Row) (versions : MvccRowStore) (t' : Table) :
    Prop where
  valid : t'.rowStore.Valid
  get : t'.rowStore.get = Function.update t.rowStore.get i row
  rest : t' = { t with
    rowStore := t'.rowStore
    indexManager := t'.indexManager
    versions := versions }
  indexes : IndexManager.rebuildIndexes t'.rowStore t.schema t.indexManager =
      .ok ⟨⟩ t'.indexManager ∨
    t.rowStore.get i = none ∧ row.isSome = true ∧
      IndexManager.addRowToIndexes i t'.rowStore t.schema t.indexManager = .ok ⟨⟩ t'.indexManager

section SlotChanges

variable {s : PageRowStore} {i : ℕ} {row : Option Row} {versions : MvccRowStore}

theorem SlotChange.of_reindex (hs : s.Valid) (hget : s.get = Function.update t.rowStore.get i row)
    {done : Bool} (h : t.reindex s versions = .ok done t') :
    done = true ∧ SlotChange t i row versions t' := by
  obtain ⟨_, _, hrebuild, h⟩ := bind_eq_ok.mp h
  obtain ⟨rfl, rfl⟩ := pure_eq_ok.mp h
  obtain ⟨m, hm, rfl⟩ := onIndexes_eq_ok.mp hrebuild
  exact ⟨rfl, hs, hget, rfl, Or.inl hm⟩

theorem SlotChange.of_add (hs : s.Valid) (hfree : t.rowStore.get i = none)
    (hrow : row.isSome = true) (hget : s.get = Function.update t.rowStore.get i row)
    (h : addRowToIndexes i { t with rowStore := s, versions := versions } = .ok u t') :
    SlotChange t i row versions t' := by
  obtain ⟨m, hm, rfl⟩ := onIndexes_eq_ok.mp h
  exact ⟨hs, hget, rfl, Or.inr ⟨hfree, hrow, hm⟩⟩

end SlotChanges

theorem refused {done : Bool} (h : (.ok false t : EStateM.Result Error Table Bool) = .ok done t') :
    done = false ∧ t' = t := by
  cases h
  exact ⟨rfl, rfl⟩

section Rows

variable (hs : t.rowStore.Valid) {row : Row}

include hs

theorem insert_eq_ok {writerId i : ℕ} (h : insert row writerId t = .ok i t') :
    t.validateRow row = .ok () ∧ t.enforceUniqueConstraintsUnlocked row none = .ok () ∧
      t.rowStore.get i = none ∧ SlotChange t i (some row) (t.versions.write i row writerId) t' := by
  simp only [insert, get_bind, ofExcept_bind_eq_ok] at h
  obtain ⟨_, hvalid, _, hunique, h⟩ := h
  have hget := hs.get_appended row
  have hstored : (t.rowStore.appended row).get t.rowStore.nextRowId = some row := by
    rw [hget, update_self]
  rw [bind_of_ok (onRowStore_ok (append_ok hs row)), writeVersion_bind, bind_eq_ok] at h
  simp only [hstored, Option.getD_some] at h
  obtain ⟨_, _, hadd, h⟩ := h
  obtain ⟨rfl, rfl⟩ := pure_eq_ok.mp h
  exact ⟨hvalid, hunique, hs.get_nextRowId,
    SlotChange.of_add (hs.appended row) hs.get_nextRowId rfl hget hadd⟩

variable {rowId : ℕ} {done : Bool}

theorem update_eq_ok {index writerId : ℕ} {value : Value}
    (h : update rowId index value writerId t = .ok done t') :
    done = false ∧ t' = t ∨ done = true ∧ ∃ row column updated, t.rowStore.get rowId = some row ∧
      t.schema[index]? = some column ∧
      t.updatedRow row rowId index column value = .ok updated ∧
      SlotChange t rowId (some updated) (t.versions.write rowId updated writerId) t' := by
  rcases hrow : t.rowStore.get rowId with _ | row
  · rw [update_eq_false (Or.inl hrow)] at h
    exact Or.inl (refused h)
  rcases hcol : t.schema[index]? with _ | column
  · rw [update_eq_false (Or.inr hcol)] at h
    exact Or.inl (refused h)
  cases hupd : t.updatedRow row rowId index column value with
  | error e =>
    rw [update_error hrow hcol hupd] at h
    cases h
  | ok updated =>
    rw [update_of_updated hs hrow hcol hupd] at h
    obtain ⟨rfl, hslot⟩ := SlotChange.of_reindex (hs.setRow updated hrow)
      (get_setRow hs updated hrow) h
    exact Or.inr ⟨rfl, row, column, updated, rfl, rfl, hupd, hslot⟩

theorem erase_eq_ok {writerId : ℕ} (h : erase rowId writerId t = .ok done t') :
    done = false ∧ t' = t ∨ done = true ∧ (∃ row, t.rowStore.get rowId = some row) ∧
      SlotChange t rowId none (t.versions.erase rowId writerId) t' := by
  rcases hrow : t.rowStore.get rowId with _ | row
  · rw [erase_eq_false hrow] at h
    exact Or.inl (refused h)
  rw [erase_of_live hs hrow] at h
  obtain ⟨rfl, hslot⟩ := SlotChange.of_reindex (hs.erase hrow _) (get_erasedStore hs hrow) h
  exact Or.inr ⟨rfl, ⟨row, rfl⟩, hslot⟩

theorem eraseDiscardingVersion_eq_ok (h : eraseDiscardingVersion rowId t = .ok done t') :
    done = false ∧ t' = t ∨ done = true ∧ (∃ row, t.rowStore.get rowId = some row) ∧
      SlotChange t rowId none (t.versions.popLatestVersion rowId).2 t' := by
  rcases hrow : t.rowStore.get rowId with _ | row
  · simp only [eraseDiscardingVersion, get_bind, hrow] at h
    exact Or.inl (refused h)
  rw [eraseDiscardingVersion_of_live hs hrow] at h
  obtain ⟨rfl, hslot⟩ := SlotChange.of_reindex (hs.erase hrow _) (get_erasedStore hs hrow) h
  exact Or.inr ⟨rfl, ⟨row, rfl⟩, hslot⟩

theorem replaceRow_eq_ok (h : replaceRow rowId row t = .ok done t') :
    done = false ∧ t' = t ∨ done = true ∧ t.validateRow row = .ok () ∧
      t.enforceUniqueConstraintsUnlocked row (some rowId) = .ok () ∧
      (∃ old, t.rowStore.get rowId = some old) ∧
      SlotChange t rowId (some row) (t.versions.popLatestVersion rowId).2 t' := by
  simp only [replaceRow, get_bind, ofExcept_bind_eq_ok] at h
  obtain ⟨_, hvalid, h⟩ := h
  rcases hrow : t.rowStore.get rowId with _ | old
  · rw [hrow] at h
    exact Or.inl (refused h)
  rw [hrow] at h
  simp only [Option.isNone_some, Bool.false_eq_true, if_false, ofExcept_bind_eq_ok] at h
  obtain ⟨_, hunique, h⟩ := h
  rw [bind_of_ok (onRowStore_ok (PageRowStore.update_ok hs row hrow))] at h
  obtain ⟨rfl, hslot⟩ := SlotChange.of_reindex (hs.setRow row hrow)
    (get_setRow hs row hrow) h
  exact Or.inr ⟨rfl, hvalid, hunique, ⟨old, rfl⟩, hslot⟩

theorem revive_store_eq_ok {s : PageRowStore}
    (h : PageRowStore.revive rowId row t.rowStore = .ok done s) :
    done = false ∧ s = t.rowStore ∨ done = true ∧ t.rowStore.get rowId = none ∧ s.Valid ∧
      s.get = Function.update t.rowStore.get rowId (some row) := by
  by_cases hfree : rowId < t.rowStore.slots.length ∧ t.rowStore.get rowId = none
  · obtain ⟨hi, hnone⟩ := hfree
    rw [PageRowStore.revive_ok hs row hi hnone, EStateM.Result.ok.injEq] at h
    obtain ⟨rfl, rfl⟩ := h
    refine Or.inr ⟨rfl, hnone, hs.revive row hi _, ?_⟩
    rw [get_touched hs.toLayout hi, if_pos rfl]
  · have hno : t.rowStore.slots.length ≤ rowId ∨ (t.rowStore.get rowId).isSome := by
      by_cases hi : t.rowStore.slots.length ≤ rowId
      · exact Or.inl hi
      · exact Or.inr (Option.isSome_iff_ne_none.mpr fun hnone => hfree ⟨not_le.mp hi, hnone⟩)
    rw [revive_eq_false hs row hno, EStateM.Result.ok.injEq] at h
    exact Or.inl ⟨h.1.symm, h.2.symm⟩

theorem revive_eq_ok (h : revive rowId row t = .ok done t') :
    done = false ∧ t' = t ∨ done = true ∧ t.validateRow row = .ok () ∧
      t.enforceUniqueConstraintsUnlocked row (some rowId) = .ok () ∧ t.rowStore.get rowId = none ∧
      SlotChange t rowId (some row) (t.versions.clearLatestDeletedBy rowId).2 t' := by
  simp only [revive, get_bind, ofExcept_bind_eq_ok] at h
  obtain ⟨_, hvalid, _, hunique, h⟩ := h
  rw [bind_eq_ok] at h
  obtain ⟨done', t₁, hcall, h⟩ := h
  obtain ⟨s, hstore, rfl⟩ := onRowStore_eq_ok.mp hcall
  rcases revive_store_eq_ok hs hstore with ⟨rfl, rfl⟩ | ⟨rfl, hnone, hvalid', hget⟩
  · exact Or.inl (refused h)
  · obtain ⟨rfl, hslot⟩ := SlotChange.of_reindex hvalid' hget h
    exact Or.inr ⟨rfl, hvalid, hunique, hnone, hslot⟩

theorem upsertAt_eq_ok {s : PageRowStore}
    (h : upsertAt rowId row t.rowStore = .ok done s) :
    done = false ∧ s = t.rowStore ∨ done = true ∧ s.Valid ∧
      s.get = Function.update t.rowStore.get rowId (some row) := by
  simp only [PageRowStore.upsertAt, get_bind, ite_run] at h
  split_ifs at h with hi hlive hend
  · obtain ⟨old, hold⟩ := Option.isSome_iff_exists.mp ((hs.get_isSome_iff rowId).mpr ⟨hi, hlive⟩)
    rw [PageRowStore.update_ok hs row hold, EStateM.Result.ok.injEq] at h
    obtain ⟨rfl, rfl⟩ := h
    exact Or.inr ⟨rfl, hs.setRow row hold, PageRowStore.get_setRow hs row hold⟩
  · rcases revive_store_eq_ok hs h with h | ⟨rfl, -, hvalid, hget⟩
    · exact Or.inl h
    · exact Or.inr ⟨rfl, hvalid, hget⟩
  · rw [pure_apply, EStateM.Result.ok.injEq] at h
    exact Or.inl ⟨h.1.symm, h.2.symm⟩
  · rw [set_bind, pure_apply, EStateM.Result.ok.injEq] at h
    obtain ⟨rfl, rfl⟩ := h
    obtain rfl : rowId = t.rowStore.slots.length := not_not.mp hend
    exact Or.inr ⟨rfl, hs.extended row, get_extended hs.toLayout row⟩

theorem applyPhysicalUpsert_eq_ok (h : applyPhysicalUpsert rowId row t = .ok done t') :
    done = false ∧ t' = t ∨ done = true ∧ t.validateRow row = .ok () ∧
      SlotChange t rowId (some row) (t.versions.write rowId row systemTransactionId) t' := by
  simp only [applyPhysicalUpsert, get_bind, ofExcept_bind_eq_ok] at h
  obtain ⟨_, hvalid, h⟩ := h
  rw [bind_eq_ok] at h
  obtain ⟨done', t₁, hcall, h⟩ := h
  obtain ⟨s, hstore, rfl⟩ := onRowStore_eq_ok.mp hcall
  rcases upsertAt_eq_ok hs hstore with ⟨rfl, rfl⟩ | ⟨rfl, hs', hget⟩
  · exact Or.inl (refused h)
  have hstored : s.get rowId = some row := by rw [hget, update_self]
  simp only [Bool.not_true, Bool.false_eq_true, if_false, writeVersion_bind, hstored,
    Option.getD_some] at h
  split_ifs at h with hexisted
  · obtain ⟨rfl, hslot⟩ := SlotChange.of_reindex hs' hget h
    exact Or.inr ⟨rfl, hvalid, hslot⟩
  · rw [bind_eq_ok] at h
    obtain ⟨_, _, hadd, h⟩ := h
    obtain ⟨rfl, rfl⟩ := pure_eq_ok.mp h
    exact Or.inr ⟨rfl, hvalid, SlotChange.of_add hs' (by simpa using hexisted) rfl hget hadd⟩

end Rows

theorem applyPhysicalErase_eq (rowId : ℕ) :
    applyPhysicalErase rowId = eraseDiscardingVersion rowId :=
  rfl

/-- The live rows have been replaced, each by what `rewrite` makes of it. -/
structure Rewritten (rewrite : ℕ × Row → Except Error Row) (s s' : PageRowStore) : Prop where
  valid : s'.Valid
  dead : ∀ i, s.get i = none → s'.get i = none
  live : ∀ i row, s.get i = some row → ∃ row', rewrite (i, row) = .ok row' ∧ s'.get i = some row'

/-- The loop over a part of the live rows: those in the part are rewritten, the others are as
before. -/
theorem forM_rewriteRow_eq_ok {failed : String}
    {entries : List (ℕ × Row)} (hs : t.rowStore.Valid) (hnodup : (entries.map Prod.fst).Nodup)
    (hlive : ∀ entry ∈ entries, t.rowStore.get entry.1 = some entry.2)
    (h : forM entries (rewriteRow rewrite failed) t = .ok u t') :
    ∃ s, t' = { t with rowStore := s } ∧ s.Valid ∧
      (∀ i ∉ entries.map Prod.fst, s.get i = t.rowStore.get i) ∧
      ∀ entry ∈ entries, ∃ row', rewrite entry = .ok row' ∧ s.get entry.1 = some row' := by
  induction entries generalizing t with
  | nil =>
    rw [forM_nil_run, EStateM.Result.ok.injEq] at h
    exact ⟨t.rowStore, h.2.symm, hs, fun _ _ => rfl, by simp⟩
  | cons entry entries ih =>
    rw [List.map_cons, List.nodup_cons] at hnodup
    obtain ⟨hhead, htail⟩ := List.forall_mem_cons.mp hlive
    rw [forM_cons_run, bind_eq_ok] at h
    obtain ⟨_, t₁, hround, hrest⟩ := h
    rw [rewriteRow, ofExcept_bind_eq_ok] at hround
    obtain ⟨row', hrow', hround⟩ := hround
    rw [bind_of_ok (onRowStore_ok (PageRowStore.update_ok hs row' hhead))] at hround
    simp only [Bool.not_true, Bool.false_eq_true, if_false, pure_eq_ok] at hround
    obtain ⟨-, rfl⟩ := hround
    have hget := get_setRow hs row' hhead
    obtain ⟨s, rfl, hvalid, hother, hrows⟩ := ih (hs.setRow row' hhead) hnodup.2 (by
      intro e he
      have hne : e.1 ≠ entry.1 := fun heq => hnodup.1 (heq ▸ List.mem_map_of_mem he)
      rw [hget, update_of_ne hne]
      exact htail e he) hrest
    refine ⟨s, rfl, hvalid, fun i hi => ?_, List.forall_mem_cons.mpr ⟨⟨row', hrow', ?_⟩, hrows⟩⟩
    · rw [List.map_cons, List.mem_cons, not_or] at hi
      rw [hother i hi.2, hget, update_of_ne hi.1]
    · rw [hother _ hnodup.1, hget, update_self]

theorem rewriteRows_eq_ok (hs : t.rowStore.Valid)
    {failed : String} (h : rewriteRows rewrite failed t = .ok u t') :
    ∃ s, t' = { t with rowStore := s } ∧ Rewritten rewrite t.rowStore s := by
  rw [rewriteRows, get_bind] at h
  obtain ⟨s, rfl, hvalid, hother, hrows⟩ := forM_rewriteRow_eq_ok hs (nodup_liveEntries _)
    (fun entry hentry => (mem_liveEntries hs _ _).mp hentry) h
  refine ⟨s, rfl, hvalid, fun i hdead => ?_, fun i row hlive => ?_⟩
  · rw [hother i, hdead]
    intro hmem
    obtain ⟨⟨j, row⟩, hentry, rfl⟩ := List.mem_map.mp hmem
    rw [(mem_liveEntries hs _ _).mp hentry] at hdead
    cases hdead
  · exact hrows (i, row) ((mem_liveEntries hs _ _).mpr hlive)

section Columns

/-- What `addColumn` has done: every live row and every version has one more value. -/
theorem addColumn_eq_ok (hs : t.rowStore.Valid) {column : Column} {fill : Option Value}
    (h : addColumn column fill t = .ok u t') :
    validateNewColumn column fill = .ok () ∧ t.columnIndex column.name = none ∧
      (fill = none → column.nullable = false → ∀ i, t.rowStore.get i = none) ∧
      ∃ s, Rewritten (fun entry => .ok (entry.2 ++ [fill.getD .null])) t.rowStore s ∧
        t' = { t with
          schema := t.schema ++ [column]
          rowStore := s
          versions := t.versions.transformRows fun row => row ++ [fill.getD .null] } := by
  rw [addColumn, ofExcept_bind_eq_ok] at h
  obtain ⟨_, hvalid, h⟩ := h
  simp only [ite_run] at h
  split_ifs at h with hrequired
  · -- a NOT NULL column without a value: there are no live rows
    obtain ⟨hfill, hnullable⟩ : fill = none ∧ column.nullable = false := by simpa using hrequired
    simp only [addRequiredColumn, get_bind, ite_run, throw_bind, ite_error_eq_ok] at h
    obtain ⟨hexists, hrows, h⟩ := h
    have hdead : ∀ i, t.rowStore.get i = none := by
      intro i
      by_contra hne
      obtain ⟨row, hrow⟩ := Option.ne_none_iff_exists'.mp hne
      have hmem := (mem_liveEntries hs i row).mpr hrow
      rw [not_not.mp hrows] at hmem
      cases hmem
    refine ⟨hvalid, by simpa using hexists, fun _ _ => hdead, t.rowStore, ⟨hs, fun i _ => hdead i,
      fun i row hrow => ?_⟩, ?_⟩
    · rw [hdead i] at hrow
      cases hrow
    · rw [hfill]
      exact (EStateM.Result.ok.inj h).2.symm
  · simp only [padColumn, get_bind, ite_run, throw_bind, set_bind, ite_error_eq_ok] at h
    obtain ⟨hexists, h⟩ := h
    rw [bind_eq_ok] at h
    obtain ⟨_, t₁, hrewrite, h⟩ := h
    obtain ⟨s, rfl, hs'⟩ :=
      rewriteRows_eq_ok (t := { t with schema := t.schema ++ [column] }) hs hrewrite
    refine ⟨hvalid, by simpa using hexists, fun hfill hnullable => ?_, s, hs', ?_⟩
    · exact absurd (by simp [hfill, hnullable]) hrequired
    · exact (EStateM.Result.ok.inj h).2.symm

/-- The index manager without the named indexes. -/
def dropIndexes (m : IndexManager) (names : List String) : IndexManager :=
  names.foldl (fun m name => (m.dropIndex name).2) m

theorem dropIndex_run (name : String) (t : Table) : dropIndex name t =
    .ok (t.indexManager.dropIndex name).1
      { t with indexManager := (t.indexManager.dropIndex name).2 } := rfl

theorem forM_dropIndex_eq_ok {α : Type} {f : α → EStateM Error Table Unit} (name : α → String)
    (hf : ∀ a t u t', f a t = .ok u t' →
      t' = { t with indexManager := (t.indexManager.dropIndex (name a)).2 }) {l : List α}
    (h : forM l f t = .ok u t') :
    t' = { t with indexManager := dropIndexes t.indexManager (l.map name) } := by
  induction l generalizing t with
  | nil =>
    rw [forM_nil_run, EStateM.Result.ok.injEq] at h
    exact h.2.symm
  | cons a l ih =>
    rw [forM_cons_run, bind_eq_ok] at h
    obtain ⟨v, t₁, hstep, hrest⟩ := h
    obtain rfl := hf a t v t₁ hstep
    exact ih hrest

/-- The table without the dependents of a column. -/
def withoutDependents (t : Table) (capture : DroppedColumnCapture) (columnName : String) : Table :=
  { t with
    indexManager := dropIndexes (dropIndexes t.indexManager
        (capture.droppedUserIndexes.map IndexDefinition.name))
      (capture.droppedUniques.map constraintIndexName)
    checkConstraints := t.checkConstraints.filter fun check =>
      !checkReferencesColumn check columnName
    foreignKeys := t.foreignKeys.filter fun fk => !foreignKeyReferencesColumn fk columnName
    uniqueConstraints := t.uniqueConstraints.filter fun constraint =>
      !uniqueReferencesColumn constraint columnName }

variable {capture : DroppedColumnCapture}

theorem dropDependents_eq_ok {columnName : String}
    (h : dropDependents capture columnName t = .ok u t') :
    t' = t.withoutDependents capture columnName := by
  rw [dropDependents, bind_eq_ok] at h
  obtain ⟨_, t₁, huser, h⟩ := h
  obtain rfl := forM_dropIndex_eq_ok IndexDefinition.name (by
    intro definition t u t' hstep
    rw [cascadeDropIndex, bind_of_ok (dropIndex_run _ t)] at hstep
    simp only [ite_run, throw_apply, ite_error_eq_ok] at hstep
    exact (pure_eq_ok.mp hstep.2).2.symm) huser
  rw [modify_bind, bind_eq_ok] at h
  obtain ⟨_, t₂, huniques, h⟩ := h
  obtain rfl := forM_dropIndex_eq_ok constraintIndexName (by
    intro constraint t u t' hstep
    exact (EStateM.Result.ok.inj hstep).2.symm) huniques
  exact (EStateM.Result.ok.inj h).2.symm

/-- What `dropColumn` has done: the dependents are gone or there were none, and the column has left
the rows, the versions, the schema and the index definitions. -/
theorem dropColumn_eq_ok (hs : t.rowStore.Valid) {columnName : String} {database : Option Database}
    {cascade : Bool} (h : dropColumn columnName database cascade t = .ok capture t') :
    ∃ index column dependents t₁, t.columnIndex columnName = some index ∧
      column = t.schema.getD index { name := columnName, type := .int } ∧
      t.captureDependents column index columnName cascade = .ok dependents ∧
      t₁ = (if cascade then t.withoutDependents dependents columnName else t) ∧
      ∃ s values versions m m', Rewritten (narrowRow index) t.rowStore s ∧
        t.versions.extractColumn index = .ok (values, versions) ∧
        IndexManager.eraseColumn index t₁.indexManager = .ok ⟨⟩ m ∧
        IndexManager.rebuildIndexes s (t.schema.eraseIdx index) m = .ok ⟨⟩ m' ∧
        capture = { dependents with
          heapValues := t.rowStore.liveEntries.map fun entry => (entry.1, entry.2.at index)
          versionValues := values } ∧
        t' = { t₁ with
          schema := t.schema.eraseIdx index
          rowStore := s
          versions := versions
          indexManager := m' } := by
  simp only [dropColumn, get_bind] at h
  rcases hidx : t.columnIndex columnName with _ | index
  · rw [hidx] at h
    cases h
  rw [hidx] at h
  simp only [ite_run, throw_bind, ite_error_eq_ok, ofExcept_bind_eq_ok] at h
  obtain ⟨hlast, hparent, dependents, hdeps, h⟩ := h
  -- with CASCADE the dependents go first, and what follows is the same
  obtain ⟨t₁, ht₁, h⟩ : ∃ t₁,
      t₁ = (if cascade then t.withoutDependents dependents columnName else t) ∧
      eraseColumn index dependents t₁ = .ok capture t' := by
    cases cascade with
    | true =>
      rw [if_pos rfl, bind_eq_ok] at h
      obtain ⟨_, t₁, hdrop, h⟩ := h
      exact ⟨t₁, dropDependents_eq_ok hdrop, h⟩
    | false => exact ⟨t, rfl, h⟩
  have hstore : t₁.rowStore = t.rowStore ∧ t₁.schema = t.schema ∧ t₁.versions = t.versions := by
    subst ht₁
    split_ifs <;> exact ⟨rfl, rfl, rfl⟩
  obtain ⟨hrowStore, hschema, hvers⟩ := hstore
  rw [eraseColumn, get_bind, bind_eq_ok] at h
  obtain ⟨_, t₂, hrewrite, h⟩ := h
  obtain ⟨s, rfl, hs'⟩ := rewriteRows_eq_ok (hrowStore ▸ hs) hrewrite
  rw [ofExcept_bind_eq_ok] at h
  obtain ⟨⟨values, versions⟩, hextract, h⟩ := h
  simp only [modify_bind] at h
  rw [bind_eq_ok] at h
  obtain ⟨_, t₂, hpos, h⟩ := h
  obtain ⟨m, hm, rfl⟩ := onIndexes_eq_ok.mp hpos
  rw [bind_eq_ok] at h
  obtain ⟨_, t₃, hrebuild, h⟩ := h
  obtain ⟨m', hm', rfl⟩ := onIndexes_eq_ok.mp hrebuild
  obtain ⟨rfl, rfl⟩ := pure_eq_ok.mp h
  rw [hrowStore] at hs'
  rw [hvers] at hextract
  refine ⟨index, _, dependents, t₁, rfl, rfl, hdeps, ht₁, s, values, versions, m, m', hs',
    hextract, hm, ?_, ?_, ?_⟩
  · rw [← hschema]
    exact hm'
  · rw [hrowStore]
  · rw [hschema]

/-- What `restoreDroppedColumn` has done: the column is back in the schema, the versions, the rows
and the index definitions, then the dependents, and the indexes were rebuilt. -/
theorem restoreDroppedColumn_eq_ok (hs : t.rowStore.Valid)
    (h : restoreDroppedColumn capture t = .ok u t') :
    capture.columnIndex ≤ t.schema.length ∧ t.columnIndex capture.column.name = none ∧
      ∃ s versions t₁ t₂ m, t.versions.insertColumn capture.columnIndex capture.versionValues =
          .ok versions ∧
        Rewritten (widenRow capture) t.rowStore s ∧
        t₁ = { t with
          schema := t.schema.insertIdx capture.columnIndex capture.column
          indexManager := t.indexManager.insertColumn capture.columnIndex
          versions := versions
          rowStore := s } ∧
        (if capture.cascaded then restoreDependents capture t₁ = .ok ⟨⟩ t₂ else t₂ = t₁) ∧
        IndexManager.rebuildIndexes t₂.rowStore t₂.schema t₂.indexManager = .ok ⟨⟩ m ∧
        t' = { t₂ with indexManager := m } := by
  simp only [restoreDroppedColumn, get_bind, ite_run, throw_bind, set_bind, ite_error_eq_ok,
    ofExcept_bind_eq_ok] at h
  obtain ⟨hrange, hexists, versions, hvers, h⟩ := h
  rw [modify_bind, bind_eq_ok] at h
  obtain ⟨_, t₁, hrewrite, h⟩ := h
  obtain ⟨s, rfl, hs'⟩ := rewriteRows_eq_ok (t := { t with
    schema := t.schema.insertIdx capture.columnIndex capture.column
    indexManager := t.indexManager.insertColumn capture.columnIndex
    versions := versions }) hs hrewrite
  refine ⟨not_lt.mp hrange, by simpa using hexists, s, versions, { t with
    schema := t.schema.insertIdx capture.columnIndex capture.column
    indexManager := t.indexManager.insertColumn capture.columnIndex
    versions := versions
    rowStore := s }, ?_⟩
  cases hcascaded : capture.cascaded with
  | true =>
    rw [hcascaded, if_pos rfl, bind_eq_ok] at h
    obtain ⟨_, t₂, hdeps, h⟩ := h
    obtain ⟨m, hm, rfl⟩ := onIndexes_eq_ok.mp h
    exact ⟨t₂, m, hvers, hs', rfl, hdeps, hm, rfl⟩
  | false =>
    rw [hcascaded] at h
    obtain ⟨m, hm, rfl⟩ := onIndexes_eq_ok.mp h
    exact ⟨_, m, hvers, hs', rfl, rfl, hm, rfl⟩

theorem restoreDependents_eq_ok (h : restoreDependents capture t = .ok u t') :
    ∃ t₁ t₂, t₁ = { t with
        checkConstraints := t.checkConstraints ++ capture.droppedChecks
        foreignKeys := t.foreignKeys ++ capture.droppedChildForeignKeys
        uniqueConstraints := t.uniqueConstraints ++ capture.droppedUniques.filter fun constraint =>
          constraint.columns ≠ [capture.column.name] } ∧
      forM capture.droppedUserIndexes restoreUserIndex t₁ = .ok ⟨⟩ t₂ ∧
      forM t₂.allUniqueConstraints
        (ensureConstraintIndex "failed to restore constraint index " false) t₂ = .ok ⟨⟩ t' := by
  rw [restoreDependents, modify_bind, bind_eq_ok] at h
  obtain ⟨_, t₂, huser, h⟩ := h
  exact ⟨_, t₂, rfl, huser, h⟩

theorem renameColumn_eq_ok {oldName newName : String}
    (h : renameColumn oldName newName t = .ok u t') :
    oldName = newName ∧ t' = t ∨ ∃ index, oldName ≠ newName ∧ t.columnIndex oldName = some index ∧
      t.columnIndex newName = none ∧
      forM (t.constraintRenames oldName newName) renameConstraintIndex
        (t.withRenamedColumn index oldName newName) = .ok ⟨⟩ t' := by
  simp only [renameColumn, ite_run, throw_bind, get_bind, ite_error_eq_ok] at h
  obtain ⟨-, h⟩ := h
  by_cases hsame : oldName = newName
  · rw [if_pos hsame] at h
    exact Or.inl ⟨hsame, (pure_eq_ok.mp h).2.symm⟩
  rw [if_neg hsame] at h
  rcases hidx : t.columnIndex oldName with _ | index
  · rw [hidx] at h
    cases h
  rw [hidx] at h
  simp only [ite_run, throw_bind, set_bind, ite_error_eq_ok] at h
  obtain ⟨hexists, h⟩ := h
  exact Or.inr ⟨index, hsame, rfl, by simpa using hexists, h⟩

end Columns

end Table

end VertexDB
