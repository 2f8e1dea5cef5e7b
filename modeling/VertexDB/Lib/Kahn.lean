import Mathlib.Data.List.Perm.Subperm
import Mathlib.Logic.Function.Iterate

/-!
# Sorting by counting dependencies

Kahn's algorithm. A queue holds the items all of whose dependencies have been put out; putting out
an item counts down the dependencies that its consumers wait for, and a consumer that waits for none
is queued. The order in which the consumers of an item are met does not matter.
-/

namespace Kahn

open List

variable {N : Type} [DecidableEq N]

/-- The dependencies each item waits for, the items that are ready and those put out. -/
structure State (N : Type) where
  remaining : N → ℕ
  queue : List N
  topo : List N := []

/-- A consumer waits for one dependency fewer. -/
def release (s : State N) (consumer : N) : State N :=
  let s := { s with
    remaining := Function.update s.remaining consumer (s.remaining consumer - 1) }
  if s.remaining consumer = 0 then { s with queue := s.queue ++ [consumer] } else s

/-- The first item of the queue is put out. -/
def process (consumers : N → List N) (s : State N) : State N :=
  match s.queue with
  | [] => s
  | id :: queue => (consumers id).foldl release { s with queue := queue, topo := s.topo ++ [id] }

theorem foldl_release (s : State N) {cs : List N} (hcs : cs.Nodup) :
    cs.foldl release s =
      { remaining := fun u => if u ∈ cs then s.remaining u - 1 else s.remaining u
        queue := s.queue ++ cs.filter fun u => s.remaining u - 1 = 0
        topo := s.topo } := by
  induction cs generalizing s with
  | nil => simp
  | cons c cs ih =>
    obtain ⟨hc, hcs⟩ := nodup_cons.mp hcs
    have hne : ∀ u ∈ cs, u ≠ c := fun u hu huc => hc (huc ▸ hu)
    have hremaining : (release s c).remaining =
        Function.update s.remaining c (s.remaining c - 1) := by
      rw [release]
      split_ifs <;> rfl
    have hqueue : (release s c).queue =
        s.queue ++ [c].filter fun u => s.remaining u - 1 = 0 := by
      rw [release]
      split_ifs with hzero <;> simp_all
    have htopo : (release s c).topo = s.topo := by
      rw [release]
      split_ifs <;> rfl
    rw [foldl_cons, ih _ hcs, hremaining, hqueue, htopo, append_assoc]
    congr 1
    · funext u
      by_cases huc : u = c
      · simp [huc, hc]
      · simp [huc]
    · rw [← singleton_append (l := cs), filter_append]
      congr 2
      exact filter_congr fun u hu => by rw [Function.update_of_ne (hne u hu)]

theorem process_cons {consumers : N → List N} {id : N} (h : (consumers id).Nodup)
    {remaining : N → ℕ} {queue topo : List N} :
    process consumers ⟨remaining, id :: queue, topo⟩ =
      ⟨fun u => if u ∈ consumers id then remaining u - 1 else remaining u,
        queue ++ (consumers id).filter (fun u => remaining u - 1 = 0), topo ++ [id]⟩ :=
  foldl_release _ h

section Sorting

variable {items : List N} {deps consumers : N → List N}

/-- The items met so far are put out or ready, each after its dependencies, and what the others wait
for is counted. -/
structure Sorted (items : List N) (deps : N → List N) (s : State N) : Prop where
  nodup : (s.topo ++ s.queue).Nodup
  subset : ∀ v ∈ s.topo ++ s.queue, v ∈ items
  remaining : ∀ u ∈ items, s.remaining u = ((deps u).filter (· ∉ s.topo)).length
  ready : ∀ u ∈ items, u ∈ s.topo ++ s.queue ↔ s.remaining u = 0
  ordered : ∀ before u after, s.topo ++ s.queue = before ++ u :: after → ∀ d ∈ deps u, d ∈ before

/-- At the start the items without dependencies are queued. -/
theorem sorted_start (hitems : items.Nodup) :
    Sorted items deps { remaining := fun u => (deps u).length
                        queue := items.filter fun u => (deps u).length = 0 } where
  nodup := hitems.filter _
  subset _ hv := (mem_filter.mp hv).1
  remaining u _ := by simp
  ready u hu := by simp [hu]
  ordered before u after hsplit d hd := by
    have hu : u ∈ items.filter fun u => (deps u).length = 0 := by
      rw [show items.filter _ = before ++ u :: after from hsplit]
      simp
    have hnone : deps u = [] := by simpa using (mem_filter.mp hu).2
    rw [hnone] at hd
    cases hd

theorem Sorted.process (hdeps : ∀ u ∈ items, (deps u).Nodup)
    (hconsumers : ∀ v, (consumers v).Nodup)
    (hmem : ∀ u v, u ∈ consumers v ↔ u ∈ items ∧ v ∈ deps u) {s : State N}
    (h : Sorted items deps s) : Sorted items deps (process consumers s) := by
  obtain ⟨remaining, queue, topo⟩ := s
  cases queue with
  | nil => exact h
  | cons id queue =>
    have hjoin : topo ++ id :: queue = (topo ++ [id]) ++ queue := by simp
    have hid : id ∉ topo := fun hid =>
      (nodup_append.mp h.nodup).2.2 id hid id mem_cons_self rfl
    have hcount : ∀ u ∈ items, (if u ∈ consumers id then remaining u - 1 else remaining u) =
        ((deps u).filter (· ∉ topo ++ [id])).length := by
      intro u hu
      have hsplit : (deps u).filter (· ∉ topo ++ [id]) =
          ((deps u).filter (· ∉ topo)).filter (· != id) := by
        rw [filter_filter]
        exact filter_congr fun d _ => by rw [Bool.eq_iff_iff]; simp [and_comm]
      have hrem := h.remaining u hu
      simp only at hrem
      rw [hsplit, hrem, ← List.Nodup.erase_eq_filter ((hdeps u hu).filter _), length_erase]
      simp [hmem, hu, hid]
    have hpushed : ∀ u ∈ (consumers id).filter (fun u => remaining u - 1 = 0),
        u ∈ items ∧ u ∉ topo ++ id :: queue ∧ ∀ d ∈ deps u, d ∈ topo ++ [id] := by
      intro u hu
      obtain ⟨hconsumer, hzero⟩ := mem_filter.mp hu
      obtain ⟨hitem, hdep⟩ := (hmem u id).mp hconsumer
      refine ⟨hitem, fun hready => ?_, fun d hd => ?_⟩
      · have hnone := (h.ready u hitem).mp hready
        rw [h.remaining u hitem, length_eq_zero_iff, filter_eq_nil_iff] at hnone
        exact hnone id hdep (by simpa using hid)
      · have hnone := hcount u hitem
        rw [if_pos hconsumer, of_decide_eq_true hzero, eq_comm, length_eq_zero_iff,
          filter_eq_nil_iff] at hnone
        simpa [or_iff_not_imp_left] using hnone d hd
    rw [process_cons (hconsumers id)]
    refine ⟨?_, ?_, hcount, fun u hu => ?_, fun before u after hsplit d hd => ?_⟩
    · rw [← append_assoc, ← hjoin, nodup_append]
      exact ⟨h.nodup, (hconsumers id).filter _, fun a ha b hb hab =>
        (hpushed b hb).2.1 (hab ▸ ha)⟩
    · rw [← append_assoc, ← hjoin]
      exact fun v hv => (mem_append.mp hv).elim (h.subset v) fun hv => (hpushed v hv).1
    · have hready := h.ready u hu
      simp only at hready ⊢
      rw [← append_assoc, ← hjoin, mem_append, hready, mem_filter]
      split_ifs with hconsumer
      · simp only [hconsumer, true_and, decide_eq_true_eq]
        omega
      · simp [hconsumer]
    · simp only [← append_assoc] at hsplit
      rw [← hjoin] at hsplit
      rcases append_eq_append_iff.mp hsplit with ⟨rest, hbefore, hafter⟩ | ⟨rest, hold, hafter⟩
      · have hu : u ∈ (consumers id).filter (fun u => remaining u - 1 = 0) := by
          rw [hafter]
          simp
        rw [hbefore, hjoin]
        exact mem_append_left _ (mem_append_left _ ((hpushed u hu).2.2 d hd))
      · cases rest with
        | nil =>
          have hu : u ∈ (consumers id).filter (fun u => remaining u - 1 = 0) := by
            rw [← nil_append (List.filter _ _), ← hafter]
            exact mem_cons_self
          rw [append_nil] at hold
          rw [← hold, hjoin]
          exact mem_append_left _ ((hpushed u hu).2.2 d hd)
        | cons w rest =>
          obtain ⟨rfl, rfl⟩ := List.cons.inj hafter
          exact h.ordered before u rest hold d hd

/-- With as many steps as there are items, every item is put out, after its dependencies, if the
dependencies have no cycle. -/
theorem iterate_process_sorts (hitems : items.Nodup) (hdeps : ∀ u ∈ items, (deps u).Nodup)
    (hclosed : ∀ u ∈ items, ∀ d ∈ deps u, d ∈ items) (hconsumers : ∀ v, (consumers v).Nodup)
    (hmem : ∀ u v, u ∈ consumers v ↔ u ∈ items ∧ v ∈ deps u) {rank : N → ℕ}
    (hrank : ∀ u ∈ items, ∀ d ∈ deps u, rank d < rank u) {s : State N}
    (hs : Sorted items deps s) (htopo : s.topo = []) :
    ((process consumers)^[items.length] s).topo.Perm items ∧
      ∀ before u after, ((process consumers)^[items.length] s).topo = before ++ u :: after →
        ∀ d ∈ deps u, d ∈ before := by
  have hrun : ∀ n, Sorted items deps ((process consumers)^[n] s) ∧
      (((process consumers)^[n] s).queue = [] ∨ ((process consumers)^[n] s).topo.length = n) := by
    intro n
    induction n with
    | zero => exact ⟨hs, Or.inr (by simp [htopo])⟩
    | succ n ih =>
      rw [Function.iterate_succ_apply']
      generalize (process consumers)^[n] s = state at ih
      obtain ⟨hsorted, hprogress⟩ := ih
      refine ⟨hsorted.process hdeps hconsumers hmem, ?_⟩
      obtain ⟨remaining, queue, topo⟩ := state
      cases queue with
      | nil => exact Or.inl rfl
      | cons id queue =>
        refine Or.inr ?_
        rw [process_cons (hconsumers id)]
        simpa using hprogress
  obtain ⟨hsorted, hdone⟩ := hrun items.length
  generalize (process consumers)^[items.length] s = final at hsorted hdone
  have hsubperm : (final.topo ++ final.queue).Subperm items :=
    subperm_of_subset hsorted.nodup hsorted.subset
  have hqueue : final.queue = [] := by
    rcases hdone with hempty | hlen
    · exact hempty
    · have hle := hsubperm.length_le
      rw [length_append, hlen] at hle
      exact eq_nil_of_length_eq_zero (by omega)
  have hjoin : final.topo ++ final.queue = final.topo := by rw [hqueue, append_nil]
  have hall : ∀ n, ∀ u ∈ items, rank u = n → u ∈ final.topo := by
    intro n
    induction n using Nat.strongRecOn with
    | ind n ih =>
      rintro u hu rfl
      rw [← hjoin, hsorted.ready u hu, hsorted.remaining u hu, length_eq_zero_iff,
        filter_eq_nil_iff]
      intro d hd
      simpa using ih (rank d) (hrank u hu d hd) d (hclosed u hu d hd) rfl
  refine ⟨?_, fun before u after hsplit => hsorted.ordered before u after (hjoin.trans hsplit)⟩
  rw [hjoin] at hsubperm
  exact hsubperm.perm_of_length_le
    (subperm_of_subset hitems fun u hu => hall _ u hu rfl).length_le

end Sorting

end Kahn
