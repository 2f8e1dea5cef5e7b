import VertexDB.Storage.TableSpec
import Mathlib.Data.Set.Insert

/-!
# Undoing row changes

The row part of `RecoveryService::applyUndoRecord` and what it restores. An undo log is applied
backwards, so each record meets a table that has been restored up to the state right after the
change it undoes. Two relations say how close that table is to the state it stands for: one for the
heap, whose rows may still be other rows of a family that later records replace, and one for the
version chains.
-/

namespace VertexDB

open Exec Function PageRowStore

/-- The records of `UndoRecord` that undo a row change. -/
inductive RowUndo where
  | insert (rowId : ℕ)
  | update (rowId : ℕ) (beforeImage : Row)
  | delete (rowId : ℕ) (beforeImage : Row)
  deriving DecidableEq, Repr

namespace RowUndo

/-- `UndoRecord::rowId`. -/
def rowId : RowUndo → ℕ
  | insert rowId | update rowId _ | delete rowId _ => rowId

/-- `RecoveryService::applyUndoRecord` on the records of row changes. -/
def apply : RowUndo → EStateM Error Table Unit
  | insert rowId => do
    if !(← Table.eraseDiscardingVersion rowId) then
      throw (.runtimeError "failed to undo insert")
  | update rowId beforeImage => do
    if !(← Table.replaceRow rowId beforeImage) then
      throw (.runtimeError "failed to undo update")
  | delete rowId beforeImage => do
    if !(← Table.revive rowId beforeImage) then
      throw (.runtimeError "failed to undo delete")

/-- The table after a record has been applied to it with success. -/
def undone : RowUndo → Table → Table
  | insert rowId, t => t.changed (t.erasedStore rowId) (t.versions.popLatestVersion rowId).2
  | update rowId image, t =>
    t.changed (t.rowStore.setRow rowId image) (t.versions.popLatestVersion rowId).2
  | delete rowId image, t =>
    t.changed (t.revivedStore rowId image) (t.versions.clearLatestDeletedBy rowId).2

end RowUndo

namespace Table

variable {t o o' a : Table} {A A' : ℕ → Row → Prop} {r : ℕ} {row : Row}

theorem SameRules.indexable (h : o.SameRules a) : a.Indexable row ↔ o.Indexable row := by
  unfold Indexable IndexManager.Indexable
  rw [IndexManager.indexKeyForRow_congr h.indexColumns h.indexExpressions, h.indexColumns, h.schema]

/-- Rows that may stand in the places of the rows of `o` while a table is being restored. Rows in
different places never conflict, so any choice of them passes the uniqueness checks. -/
structure Family (o : Table) (A : ℕ → Row → Prop) : Prop where
  live : ∀ r row, o.rowStore.get r = some row → A r row
  valid : ∀ r row, A r row → o.validateRow row = .ok ()
  indexable : ∀ r row, A r row → o.Indexable row
  apart : ∀ r r' row row', r ≠ r' → A r row → A r' row' → o.rowsConflictOnUnique row row' = false

/-- Only the row itself stands in the place of a row. -/
def Stored (o : Table) (r : ℕ) (row : Row) : Prop := o.rowStore.get r = some row

theorem Sound.family (ho : o.Sound) : o.Family o.Stored where
  live _ _ h := h
  valid r row h := (ho.accepted r row h).valid
  indexable r row h := ho.indexes.indexable r row h
  apart r r' row row' hne h h' := (ho.accepted r row h).unique r' row' h' (by simpa using hne)

/-- The table `a` holds the rows of `o`, or rows that may stand in their places. -/
structure HeapRestores (A : ℕ → Row → Prop) (o a : Table) : Prop where
  sound : a.Sound
  rules : o.SameRules a
  capacity_le : o.rowStore.capacity ≤ a.rowStore.capacity
  heap : ∀ r, a.rowStore.get r = o.rowStore.get r ∨ ∃ row row',
    a.rowStore.get r = some row ∧ o.rowStore.get r = some row' ∧ A r row

theorem HeapRestores.refl (ho : o.Sound) : HeapRestores A o o :=
  ⟨ho, SameRules.refl o, le_rfl, fun _ => Or.inl rfl⟩

theorem HeapRestores.get_eq (h : HeapRestores o.Stored o a) : a.rowStore.get = o.rowStore.get :=
  funext fun r => (h.heap r).elim id fun ⟨_, _, hr, _, hrow⟩ => hr.trans hrow.symm

/-- What a record undoes; its image may stand in the place of the row. -/
inductive RowChange (T : ℕ) (A : ℕ → Row → Prop) (o o' : Table) : RowUndo → Prop
  | insert {r : ℕ} {row : Row} (hdead : o.rowStore.get r = none)
      (hget : o'.rowStore.get = Function.update o.rowStore.get r (some row))
      (hversions : o'.versions = o.versions.write r row T) : RowChange T A o o' (.insert r)
  | update {r : ℕ} {row updated image : Row} (hrow : o.rowStore.get r = some row)
      (hget : o'.rowStore.get = Function.update o.rowStore.get r (some updated))
      (hversions : o'.versions = o.versions.write r updated T) (himage : A r image) :
      RowChange T A o o' (.update r image)
  | delete {r : ℕ} {row image : Row} (hrow : o.rowStore.get r = some row)
      (hget : o'.rowStore.get = Function.update o.rowStore.get r none)
      (hversions : o'.versions = o.versions.erase r T) (himage : A r image) :
      RowChange T A o o' (.delete r image)

theorem RowChange.get_of_ne {T : ℕ} {u : RowUndo} (h : RowChange T A o o' u)
    (hr : r ≠ u.rowId) : o'.rowStore.get r = o.rowStore.get r := by
  cases h with
  | insert _ hget _ => exact hget ▸ update_of_ne hr _ _
  | update _ hget _ _ => exact hget ▸ update_of_ne hr _ _
  | delete _ hget _ _ => exact hget ▸ update_of_ne hr _ _

section Heap

/-- A row of the family is acceptable in a table that has been restored up to the change. -/
theorem HeapRestores.accepts (h : HeapRestores A' o' a) (ho : o.Sound) (hA : o.Family A)
    (hrules : o.SameRules o') {image : Row} (hget : o.rowStore.get r = some row)
    (himage : A r image) (hA' : ∀ r' row, r' ≠ r → A' r' row → A r' row)
    (hothers : ∀ r', r' ≠ r → o'.rowStore.get r' = o.rowStore.get r') :
    a.Accepts a.rowStore.get image (some r) := by
  refine (hrules.trans h.rules).accepts
    ⟨hA.valid r image himage, (ho.accepted r row hget).keys, fun r' other hr' hne => ?_⟩
  have hne' : r' ≠ r := fun heq => hne (by rw [heq])
  refine hA.apart r r' image other hne'.symm himage ?_
  rcases h.heap r' with heq | ⟨x, _, hx, -, hrow⟩
  · rw [heq, hothers r' hne'] at hr'
    exact hA.live r' other hr'
  · rw [hx, Option.some.injEq] at hr'
    exact hA' r' other hne' (hr' ▸ hrow)

theorem HeapRestores.exists_stored (h : HeapRestores A o' a)
    (hget : o'.rowStore.get r = some row) : ∃ stored, a.rowStore.get r = some stored := by
  rcases h.heap r with heq | ⟨x, _, hx, -, -⟩
  · exact ⟨row, heq.trans hget⟩
  · exact ⟨x, hx⟩

/-- Undoing a change of row `r` gives the heap before the change when it gives row `r`. -/
theorem HeapRestores.changed {after restored : Option Row} {rowStore : PageRowStore}
    {versions : MvccRowStore} (h : HeapRestores A' o' a) (hrules : o.SameRules o')
    (hcap : o.rowStore.capacity ≤ o'.rowStore.capacity)
    (hA' : ∀ r' row, r' ≠ r → A' r' row → A r' row)
    (hget : o'.rowStore.get = Function.update o.rowStore.get r after)
    (hstore : rowStore.Valid) (hcap' : a.rowStore.capacity ≤ rowStore.capacity)
    (hget' : rowStore.get = Function.update a.rowStore.get r restored)
    (haccepted : a.AllAccepted rowStore.get)
    (hidxable : ∀ i row, rowStore.get i = some row → a.Indexable row)
    (hr : restored = o.rowStore.get r ∨ ∃ row row',
      restored = some row ∧ o.rowStore.get r = some row' ∧ A r row) :
    HeapRestores A o (a.changed rowStore versions) := by
  refine ⟨h.sound.changed hstore haccepted hidxable,
    (hrules.trans h.rules).trans (a.sameRules_changed _ _),
    (hcap.trans h.capacity_le).trans hcap', fun r' => ?_⟩
  show rowStore.get r' = _ ∨ ∃ x y, rowStore.get r' = _ ∧ _
  rw [hget']
  by_cases hr' : r' = r
  · subst hr'
    rwa [update_self]
  · have hother := h.heap r'
    rw [hget, update_of_ne hr'] at hother
    rw [update_of_ne hr']
    exact hother.imp_right fun ⟨x, y, hx, hy, hrow⟩ => ⟨x, y, hx, hy, hA' r' x hr' hrow⟩

/-- A record succeeds on a table that has been restored up to the state after its change, and
restores it up to the state before the change. -/
theorem RowChange.undo {T : ℕ} {u : RowUndo} (h : RowChange T A o o' u) (ho : o.Sound)
    (hA : o.Family A) (hrules : o.SameRules o')
    (hcap : o.rowStore.capacity ≤ o'.rowStore.capacity)
    (hA' : ∀ r row, r ≠ u.rowId → A' r row → A r row) (ha : HeapRestores A' o' a) :
    u.apply a = .ok ⟨⟩ (u.undone a) ∧ HeapRestores A o (u.undone a) := by
  cases h with
  | @insert r row hdead hget _ =>
    obtain ⟨stored, hstored⟩ := ha.exists_stored (by rw [hget, update_self])
    have hget' := get_erasedStore ha.sound.store hstored
    constructor
    · simp only [RowUndo.apply]
      rw [bind_of_ok (eraseDiscardingVersion_ok ha.sound hstored)]
      rfl
    · exact ha.changed hrules hcap hA' hget (ha.sound.store.erase hstored _)
        (capacity_touched r _ _ _ _).ge hget' (hget' ▸ ha.sound.accepted.erase r)
        (hget' ▸ ha.sound.searchable.indexable_erase r) (Or.inl hdead.symm)
  | @update r row updated image hrow hget _ himage =>
    obtain ⟨stored, hstored⟩ := ha.exists_stored (by rw [hget, update_self])
    have haccepts := ha.accepts ho hA hrules hrow himage hA'
      fun r' hr' => by rw [hget, update_of_ne hr']
    have hidxable := (hrules.trans ha.rules).indexable.mpr (hA.indexable r image himage)
    have hget' := get_setRow ha.sound.store image hstored
    constructor
    · simp only [RowUndo.apply]
      rw [bind_of_ok (replaceRow_ok ha.sound hstored haccepts hidxable)]
      rfl
    · exact ha.changed hrules hcap hA' hget (ha.sound.store.setRow image hstored) le_rfl hget'
        (hget' ▸ ha.sound.accepted.store haccepts) (hget' ▸ ha.sound.indexable_update hidxable)
        (Or.inr ⟨image, row, rfl, hrow, himage⟩)
  | @delete r row image hrow hget _ himage =>
    have hdead : a.rowStore.get r = none := by
      rcases ha.heap r with heq | ⟨_, y, -, hy, -⟩
      · rw [heq, hget, update_self]
      · rw [hget, update_self] at hy
        cases hy
    have hi : r < a.rowStore.capacity :=
      lt_of_lt_of_le ((ho.store.get_isSome_iff r).mp (by simp [hrow])).1 (hcap.trans ha.capacity_le)
    have haccepts := ha.accepts ho hA hrules hrow himage hA'
      fun r' hr' => by rw [hget, update_of_ne hr']
    have hidxable := (hrules.trans ha.rules).indexable.mpr (hA.indexable r image himage)
    have hget' := get_revivedStore ha.sound image hi
    constructor
    · simp only [RowUndo.apply]
      rw [bind_of_ok (revive_ok ha.sound hi hdead haccepts hidxable)]
      rfl
    · exact ha.changed hrules hcap hA' hget (ha.sound.store.revive image hi _)
        (capacity_touched r _ _ _ _).ge hget'
        (hget' ▸ ha.sound.accepted.store haccepts) (hget' ▸ ha.sound.indexable_update hidxable)
        (Or.inr ⟨image, row, rfl, hrow, himage⟩)

end Heap

section Chains

open MvccRowStore

variable {T : ℕ}

/-- The chains of `a` are those of `o`; the latest version of a row that is dead in `o` may not yet
be deleted again when `T` deleted it. -/
def ChainRestores (T : ℕ) (o a : Table) : Prop :=
  ∀ r, a.versions.chain r = o.versions.chain r ∨
    o.rowStore.get r = none ∧ latestDeletedBy (o.versions.chain r) = some T ∧
      a.versions.chain r = openLatest (o.versions.chain r)

theorem ChainRestores.refl (T : ℕ) (o : Table) : ChainRestores T o o := fun _ => Or.inl rfl

theorem ChainRestores.eq_of_live (h : ChainRestores T o a)
    (hlive : o.rowStore.get r = some row) : a.versions.chain r = o.versions.chain r := by
  refine (h r).resolve_right fun ⟨hdead, _⟩ => ?_
  rw [hlive] at hdead
  cases hdead

/-- Undoing a change of row `r` restores the chains when it restores the chain of row `r`. -/
theorem ChainRestores.of_row {versions : MvccRowStore} (h : ChainRestores T o' a)
    (hget : ∀ r', r' ≠ r → o'.rowStore.get r' = o.rowStore.get r')
    (hchain : ∀ r', r' ≠ r → o'.versions.chain r' = o.versions.chain r')
    (hothers : ∀ r', r' ≠ r → versions.chain r' = a.versions.chain r')
    (hr : versions.chain r = o.versions.chain r ∨
      o.rowStore.get r = none ∧ latestDeletedBy (o.versions.chain r) = some T ∧
        versions.chain r = openLatest (o.versions.chain r)) (rowStore : PageRowStore) :
    ChainRestores T o (a.changed rowStore versions) := by
  intro r'
  show versions.chain r' = _ ∨ _ ∧ _ ∧ versions.chain r' = _
  by_cases hrr : r' = r
  · rwa [hrr]
  · have hother := h r'
    rw [hget r' hrr, hchain r' hrr] at hother
    rwa [hothers r' hrr]

/-- Undoing an insert restores the chains unless it was put on the chain of a row deleted by another
transaction. -/
theorem ChainRestores.undo_insert (h : ChainRestores T o' a) (hdead : o.rowStore.get r = none)
    (hget : o'.rowStore.get = Function.update o.rowStore.get r (some row))
    (hvers : o'.versions = o.versions.write r row T)
    (hreuse : o.versions.chain r = [] ∨ latestDeletedBy (o.versions.chain r) = some T)
    (rowStore : PageRowStore) :
    ChainRestores T o (a.changed rowStore (a.versions.popLatestVersion r).2) := by
  have hlive : o'.rowStore.get r = some row := by rw [hget, update_self]
  have hpop : (a.versions.popLatestVersion r).2.chain r =
      openLatest (closeLatest T (o.versions.chain r)) := by
    rw [chain_popLatestVersion, if_pos rfl, h.eq_of_live hlive, hvers, chain_write, if_pos rfl,
      List.tail_cons]
  refine h.of_row (fun r' hr' => by rw [hget, update_of_ne hr'])
    (fun r' hr' => by simp [hvers, hr'.symm]) (fun r' hr' => by simp [hr'.symm]) ?_ rowStore
  rw [hpop]
  rcases hreuse with hnil | hT
  · exact Or.inl (by rw [hnil]; rfl)
  · exact Or.inr ⟨hdead, hT, by rw [closeLatest_eq_self hT]⟩

theorem ChainRestores.undo_update {updated : Row} (h : ChainRestores T o' a)
    (hopen : latestDeletedBy (o.versions.chain r) = none)
    (hget : o'.rowStore.get = Function.update o.rowStore.get r (some updated))
    (hvers : o'.versions = o.versions.write r updated T) (rowStore : PageRowStore) :
    ChainRestores T o (a.changed rowStore (a.versions.popLatestVersion r).2) := by
  have hlive : o'.rowStore.get r = some updated := by rw [hget, update_self]
  refine h.of_row (fun r' hr' => by rw [hget, update_of_ne hr'])
    (fun r' hr' => by simp [hvers, hr'.symm]) (fun r' hr' => by simp [hr'.symm]) (Or.inl ?_)
    rowStore
  rw [chain_popLatestVersion, if_pos rfl, h.eq_of_live hlive, hvers, chain_write, if_pos rfl,
    List.tail_cons, openLatest_closeLatest hopen]

theorem ChainRestores.undo_delete (h : ChainRestores T o' a)
    (hopen : latestDeletedBy (o.versions.chain r) = none)
    (hget : o'.rowStore.get = Function.update o.rowStore.get r none)
    (hvers : o'.versions = o.versions.erase r T) (rowStore : PageRowStore) :
    ChainRestores T o (a.changed rowStore (a.versions.clearLatestDeletedBy r).2) := by
  refine h.of_row (fun r' hr' => by rw [hget, update_of_ne hr'])
    (fun r' hr' => by simp [hvers, hr'.symm]) (fun r' hr' => by simp [hr'.symm]) (Or.inl ?_)
    rowStore
  have hchain : openLatest (a.versions.chain r) = openLatest (o'.versions.chain r) := by
    rcases h r with heq | ⟨-, -, heq⟩
    · rw [heq]
    · rw [heq, openLatest_openLatest]
  rw [chain_clearLatestDeletedBy, if_pos rfl, hchain, hvers, chain_erase, if_pos rfl,
    openLatest_deleteLatest, openLatest_eq_self hopen]

/-- A record restores the chains unless it takes back an insert that was put on the chain of a row
deleted by another transaction. -/
theorem RowChange.chainRestores_undone {u : RowUndo} (h : RowChange T A o o' u)
    (hopen : ∀ r row, o.rowStore.get r = some row → latestDeletedBy (o.versions.chain r) = none)
    (hreuse : ∀ r, u = .insert r →
      o.versions.chain r = [] ∨ latestDeletedBy (o.versions.chain r) = some T)
    (ha : ChainRestores T o' a) : ChainRestores T o (u.undone a) := by
  cases h with
  | insert hdead hget hvers => exact ha.undo_insert hdead hget hvers (hreuse _ rfl) _
  | update hrow hget hvers _ => exact ha.undo_update (hopen _ _ hrow) hget hvers _
  | delete hrow hget hvers _ => exact ha.undo_delete (hopen _ _ hrow) hget hvers _

end Chains

end Table

end VertexDB
