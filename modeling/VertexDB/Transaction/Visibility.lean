import VertexDB.Transaction.RowUndo

/-!
# Version chains that follow the heap

A chain follows a row of the heap when its latest version is the live row, or is deleted when there
is none, and every older version is deleted. Read by a snapshot that sees all the transactions
involved, the chains then give exactly the live rows.
-/

namespace VertexDB

open MvccRowStore List Function

variable {P Q : ℕ → Prop}

/-- The version was deleted by a transaction in `P`. -/
def RowVersion.Deleted (P : ℕ → Prop) (v : RowVersion) : Prop := ∃ d, v.deletedBy = some d ∧ P d

/-- The chain holds the row as its latest version, and else only deleted versions; the transactions
that decide this are in `P`. -/
def ChainTracks (P : ℕ → Prop) (row : Option Row) (versions : List RowVersion) : Prop :=
  match row with
  | none => ∀ v ∈ versions, v.Deleted P
  | some row => ∃ c older,
      versions = { createdBy := c, row := row } :: older ∧ P c ∧ ∀ v ∈ older, v.Deleted P

namespace ChainTracks

variable {row : Option Row} {versions : List RowVersion}

theorem mono (hPQ : ∀ id, P id → Q id) (h : ChainTracks P row versions) :
    ChainTracks Q row versions := by
  have hdel : ∀ v : RowVersion, v.Deleted P → v.Deleted Q := fun v ⟨d, hd, hP⟩ => ⟨d, hd, hPQ d hP⟩
  cases row with
  | none => exact fun v hv => hdel v (h v hv)
  | some row =>
    obtain ⟨c, older, rfl, hc, holder⟩ := h
    exact ⟨c, older, rfl, hPQ c hc, fun v hv => hdel v (holder v hv)⟩

theorem latestDeletedBy_eq {row : Row} (h : ChainTracks P (some row) versions) :
    latestDeletedBy versions = none := by
  obtain ⟨c, older, rfl, -⟩ := h
  rfl

theorem closeLatest_deleted {T : ℕ} (hT : P T) (h : ChainTracks P row versions) :
    ∀ v ∈ closeLatest T versions, v.Deleted P := by
  cases row with
  | none =>
    rcases versions with _ | ⟨⟨c, _ | d, row⟩, older⟩
    · exact fun v hv => absurd hv (by simp [closeLatest])
    · obtain ⟨d, hd, -⟩ := h _ mem_cons_self
      cases hd
    · exact h
  | some row =>
    obtain ⟨c, older, rfl, -, holder⟩ := h
    rw [closeLatest, forall_mem_cons]
    exact ⟨⟨T, rfl, hT⟩, holder⟩

theorem write {T : ℕ} (hT : P T) (h : ChainTracks P row versions) (new : Row) :
    ChainTracks P (some new) ({ createdBy := T, row := new } :: closeLatest T versions) :=
  ⟨T, closeLatest T versions, rfl, hT, h.closeLatest_deleted hT⟩

theorem delete {T : ℕ} (hT : P T) {row : Row} (h : ChainTracks P (some row) versions) :
    ChainTracks P none (deleteLatest T versions) := by
  obtain ⟨c, older, rfl, -, holder⟩ := h
  show ∀ v ∈ deleteLatest T _, _
  rw [deleteLatest, forall_mem_cons]
  exact ⟨⟨T, rfl, hT⟩, holder⟩

/-- A snapshot that sees the transactions of a chain reads the row it holds. -/
theorem readChain_eq {snapshot : ReadSnapshot} {m : TransactionManager}
    (h : ChainTracks (fun id => m.isCreatorVisible id snapshot = true) row versions) :
    readChain versions snapshot m = row := by
  cases row with
  | none =>
    rw [readChain, Option.map_eq_none_iff, find?_eq_none]
    intro v hv
    obtain ⟨d, hd, hvis⟩ := h v hv
    simp [TransactionManager.isVisible, hd, hvis]
  | some row =>
    obtain ⟨c, older, rfl, hc, -⟩ := h
    simp [readChain, TransactionManager.isVisible, hc]

end ChainTracks

namespace Table

variable {t : Table} {T : ℕ}

/-- Every chain of the table follows its row. -/
def Tracked (P : ℕ → Prop) (t : Table) : Prop :=
  ∀ r, ChainTracks P (t.rowStore.get r) (t.versions.chain r)

theorem Tracked.mono (hPQ : ∀ id, P id → Q id) (h : t.Tracked P) : t.Tracked Q :=
  fun r => (h r).mono hPQ

theorem Tracked.latestDeletedBy_eq (h : t.Tracked P) {r : ℕ} {row : Row}
    (hget : t.rowStore.get r = some row) : latestDeletedBy (t.versions.chain r) = none := by
  have hr := h r
  rw [hget] at hr
  exact hr.latestDeletedBy_eq

theorem Tracked.write (h : t.Tracked P) (hT : P T) {t' : Table} {r : ℕ} {row : Row}
    (hget : t'.rowStore.get = Function.update t.rowStore.get r (some row))
    (hvers : t'.versions = t.versions.write r row T) : t'.Tracked P := by
  intro r'
  rw [hget, hvers, chain_write]
  by_cases hr : r' = r
  · subst hr
    rw [update_self, if_pos rfl]
    exact (h r').write hT row
  · rw [update_of_ne hr, if_neg (Ne.symm hr)]
    exact h r'

theorem Tracked.erase (h : t.Tracked P) (hT : P T) {t' : Table} {r : ℕ} {row : Row}
    (hrow : t.rowStore.get r = some row)
    (hget : t'.rowStore.get = Function.update t.rowStore.get r none)
    (hvers : t'.versions = t.versions.erase r T) : t'.Tracked P := by
  intro r'
  rw [hget, hvers, chain_erase]
  by_cases hr : r' = r
  · subst hr
    rw [update_self, if_pos rfl]
    have hr := h r'
    rw [hrow] at hr
    exact hr.delete hT
  · rw [update_of_ne hr, if_neg (Ne.symm hr)]
    exact h r'

/-- A restored table has its chains back when the undone transaction deleted no row before. -/
theorem ChainRestores.chain_eq {o a : Table} (h : ChainRestores T o a) (ho : o.Tracked P)
    (hT : ¬ P T) (r : ℕ) : a.versions.chain r = o.versions.chain r := by
  refine (h r).resolve_right fun ⟨hdead, hlatest, _⟩ => hT ?_
  have hr := ho r
  rw [hdead] at hr
  obtain ⟨v, hv, hd⟩ := Option.bind_eq_some_iff.mp hlatest
  obtain ⟨d, hd', hP⟩ := hr v (mem_of_mem_head? hv)
  rw [hd, Option.some.injEq] at hd'
  exact hd' ▸ hP

theorem liveEntries_sorted (s : PageRowStore) :
    s.liveEntries.Pairwise fun a b => a.1 < b.1 := by
  refine List.Pairwise.filterMap _ ?_ (R := fun a b : ℕ => a < b) pairwise_lt_range
  rintro i j hij ⟨a, ra⟩ ha ⟨b, rb⟩ hb
  simp only [Option.map_eq_some_iff, Prod.mk.injEq] at ha hb
  obtain ⟨_, -, rfl, -⟩ := ha
  obtain ⟨_, -, rfl, -⟩ := hb
  exact hij

/-- Two lists of entries sorted by row id are equal when they have the same entries. -/
theorem entries_eq_of_mem_iff {l l' : List (ℕ × Row)} (hl : l.Pairwise fun a b => a.1 < b.1)
    (hl' : l'.Pairwise fun a b => a.1 < b.1) (hmem : ∀ i row, (i, row) ∈ l ↔ (i, row) ∈ l') :
    l = l' := by
  have hnodup : ∀ {l : List (ℕ × Row)}, (l.Pairwise fun a b => a.1 < b.1) → l.Nodup :=
    fun h => h.imp fun hab heq => absurd hab (by simp [heq])
  have hperm : l.Perm l' := (perm_ext_iff_of_nodup (hnodup hl) (hnodup hl')).mpr
    fun ⟨i, row⟩ => hmem i row
  refine hperm.eq_of_pairwise (fun a b _ _ hab hba => ?_) hl hl'
  exact absurd (hab.trans hba) (lt_irrefl _)

/-- When a snapshot sees the transactions of the chains, the visible entries are the live ones. -/
theorem Tracked.visibleEntries_eq {snapshot : ReadSnapshot} {m : TransactionManager}
    (h : t.Tracked fun id => m.isCreatorVisible id snapshot = true) (hs : t.rowStore.Valid) :
    t.versions.visibleEntries snapshot m = t.rowStore.liveEntries := by
  refine entries_eq_of_mem_iff (visibleEntries_sorted _ _ _) (liveEntries_sorted _) fun i row => ?_
  rw [mem_visibleEntries, PageRowStore.mem_liveEntries hs, MvccRowStore.read, (h i).readChain_eq]

end Table

end VertexDB
