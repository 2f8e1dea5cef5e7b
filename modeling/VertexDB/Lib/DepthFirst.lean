import Mathlib.Data.Finset.Card
import VertexDB.Lib.PostOrder

/-!
# Depth-first search and strong components

A depth-first search that marks the nodes it has seen and folds over them when they are entered and
when they are left. The recursion is bounded by its depth; a bound that is not less than the number
of nodes not yet seen is never reached. Two such searches give the strong components of a graph: the
first lists the nodes in finishing order, the second goes backwards along the edges, from the nodes
that were finished last, and labels what it newly sees.
-/

namespace DepthFirst

open PostOrder Relation List

variable {N σ : Type}

/-- The nodes seen, and what is folded over them. -/
structure Search (N σ : Type) where
  seen : Finset N
  data : σ

section Visit

variable [DecidableEq N] (succ : N → List N) (enter leave : N → σ → σ)

/-- The search from a node that was not seen before. -/
def visit : ℕ → N → Search N σ → Search N σ
  | 0, _, s => s
  | depth + 1, u, s =>
    let s := (succ u).foldl (fun s v => if v ∈ s.seen then s else visit depth v s)
      { seen := insert u s.seen, data := enter u s.data }
    { s with data := leave u s.data }

/-- The search from the nodes of a list, those not seen before. -/
def visitAll (depth : ℕ) (roots : List N) (s : Search N σ) : Search N σ :=
  roots.foldl (fun s v => if v ∈ s.seen then s else visit succ enter leave depth v s) s

variable {succ enter leave} {depth : ℕ} {s : Search N σ} {v : N} {roots : List N}

theorem visitAll_cons_of_mem (hv : v ∈ s.seen) :
    visitAll succ enter leave depth (v :: roots) s = visitAll succ enter leave depth roots s := by
  simp only [visitAll, foldl_cons, if_pos hv]

theorem visitAll_cons_of_notMem (hv : v ∉ s.seen) :
    visitAll succ enter leave depth (v :: roots) s =
      visitAll succ enter leave depth roots (visit succ enter leave depth v s) := by
  simp only [visitAll, foldl_cons, if_neg hv]

theorem visitAll_singleton (hv : v ∉ s.seen) :
    visitAll succ enter leave depth [v] s = visit succ enter leave depth v s :=
  visitAll_cons_of_notMem hv

theorem visit_succ :
    visit succ enter leave (depth + 1) v s =
      { visitAll succ enter leave depth (succ v)
          { seen := insert v s.seen, data := enter v s.data } with
        data := leave v (visitAll succ enter leave depth (succ v)
          { seen := insert v s.seen, data := enter v s.data }).data } :=
  rfl

end Visit

/-- The state of a search follows the marks of a removal in post-order: a node is seen if it is
removed or being visited, and the data satisfies a relation to the marks. -/
structure Follows (D : Marks N → σ → Prop) (s : Search N σ) (m : Marks N) : Prop where
  seen : ∀ v, v ∈ s.seen ↔ v ∈ m.removed ∨ v ∈ m.visiting
  data : D m s.data

section Removal

variable [DecidableEq N] {succ : N → List N} {enter leave : N → σ → σ} {nodes : Finset N}
  {D : Marks N → σ → Prop}

private theorem card_sdiff_insert_le {seen : Finset N} {v : N} {depth : ℕ} (hv : v ∈ nodes)
    (hseen : v ∉ seen) (hdepth : (nodes \ seen).card ≤ depth + 1) :
    (nodes \ insert v seen).card ≤ depth := by
  have hmem : v ∈ nodes \ seen := Finset.mem_sdiff.mpr ⟨hv, hseen⟩
  rw [Finset.sdiff_insert, Finset.card_erase_of_mem hmem]
  omega

/-- A search with enough depth is a removal in post-order, along which its data keep their relation
to the marks if entering and leaving a node keep it. -/
theorem visitAll_removes (hnodes : ∀ u ∈ nodes, ∀ v ∈ succ u, v ∈ nodes)
    (henter : ∀ m d u, u ∉ m.removed → u ∉ m.visiting → D m d → D (m.enter u) (enter u d))
    (hleave : ∀ m d u, u ∈ m.visiting → D m d → D (m.leave u) (leave u d)) (depth : ℕ)
    (roots : List N) (s : Search N σ) (m : Marks N) (hs : Follows D s m)
    (hm : m.Proper fun u v => v ∈ succ u) (hroots : ∀ v ∈ roots, v ∈ nodes)
    (hdepth : (nodes \ s.seen).card ≤ depth) :
    ∃ m', Removes (fun u v => v ∈ succ u) roots m m' ∧
      Follows D (visitAll succ enter leave depth roots s) m' := by
  induction depth generalizing roots s m with
  | zero =>
    have hall : nodes ⊆ s.seen := Finset.sdiff_eq_empty_iff_subset.mp
      (Finset.card_eq_zero.mp (Nat.le_zero.mp hdepth))
    induction roots with
    | nil => exact ⟨m, .nil m, hs⟩
    | cons v roots ih =>
      obtain ⟨hv, hroots⟩ := forall_mem_cons.mp hroots
      obtain ⟨m', hremoves, hfollows⟩ := ih hroots
      refine ⟨m', .seen ((hs.seen v).mp (hall hv)) hremoves, ?_⟩
      rwa [visitAll_cons_of_mem (hall hv)]
  | succ depth ihdepth =>
    induction roots generalizing s m with
    | nil => exact ⟨m, .nil m, hs⟩
    | cons v roots ih =>
      obtain ⟨hv, hroots⟩ := forall_mem_cons.mp hroots
      by_cases hseen : v ∈ s.seen
      · obtain ⟨m', hremoves, hfollows⟩ := ih s m hs hm hroots hdepth
        refine ⟨m', .seen ((hs.seen v).mp hseen) hremoves, ?_⟩
        rwa [visitAll_cons_of_mem hseen]
      · have hnew : v ∉ m.removed ∧ v ∉ m.visiting := not_or.mp (mt (hs.seen v).mpr hseen)
        have hentered : Follows D { seen := insert v s.seen, data := enter v s.data }
            (m.enter v) := by
          refine ⟨fun w => ?_, henter m s.data v hnew.1 hnew.2 hs.data⟩
          rw [Finset.mem_insert, hs.seen w, Marks.enter, mem_cons]
          exact or_left_comm
        obtain ⟨m₁, hsuccessors, hfollows₁⟩ := ihdepth (succ v) _ (m.enter v) hentered
          (hm.enter hnew.1) (hnodes v hv) (card_sdiff_insert_le hv hseen hdepth)
        obtain ⟨-, hvisiting₁, -, hmono₁, -⟩ := hsuccessors.proper (hm.enter hnew.1)
        have hstack : v ∈ m₁.visiting := hvisiting₁ ▸ mem_cons_self
        have hleft : Follows D (visit succ enter leave (depth + 1) v s) (m₁.leave v) := by
          rw [visit_succ]
          refine ⟨fun w => ?_, hleave m₁ _ v hstack hfollows₁.data⟩
          rw [Marks.mem_leave_iff hstack]
          exact hfollows₁.seen w
        have hsubset : s.seen ⊆ (visit succ enter leave (depth + 1) v s).seen := by
          intro w hw
          rw [hleft.seen w, Marks.mem_leave_iff hstack, hvisiting₁]
          exact ((hs.seen w).mp hw).imp (hmono₁ w) (mem_cons_of_mem v)
        have hremove := Removes.remove hnew.1 hnew.2 (succ v) (fun c hc => hc)
          (fun c hc => Or.inr hc) hsuccessors (.nil _)
        obtain ⟨m', hrest, hfollows⟩ := ih _ (m₁.leave v) hleft (hremove.proper hm).1 hroots
          ((Finset.card_le_card (Finset.sdiff_subset_sdiff subset_rfl hsubset)).trans hdepth)
        refine ⟨m', hremove.append hrest, ?_⟩
        rwa [visitAll_cons_of_notMem hseen]

end Removal

section Components

variable {R : N → N → Prop}

/-- The labels of the nodes seen so far: the nodes are closed under predecessors, the labels are
below the next one, they do not decrease along an edge, and they are the same on a strong component
only. -/
structure Labeled (R : N → N → Prop) (seen : List N) (label : N → ℕ) (next : ℕ) : Prop where
  closed : ∀ v ∈ seen, ∀ u, R u v → u ∈ seen
  lt : ∀ v ∈ seen, label v < next
  le : ∀ v ∈ seen, ∀ u, R u v → label u ≤ label v
  eq_iff : ∀ u ∈ seen, ∀ v ∈ seen, label u = label v ↔ Mutual R u v

theorem Labeled.mem_of_reaches {seen : List N} {label : N → ℕ} {next : ℕ}
    (h : Labeled R seen label next) {u v : N} (hv : v ∈ seen) (hpath : ReflTransGen R u v) :
    u ∈ seen := by
  induction hpath using ReflTransGen.head_induction_on with
  | refl => exact hv
  | head hstep _ ih => exact h.closed _ ih _ hstep

/-- An unlabeled node that reaches the last unlabeled one is reached from it. -/
theorem Labeled.mutual_of_reaches {seen later earlier : List N} {label : N → ℕ} {next : ℕ} {r : N}
    (h : Labeled R seen label next) (hnodup : (later ++ r :: earlier).Nodup)
    (hfinished : Marks.Finished R { removed := later ++ r :: earlier })
    (hlater : ∀ x ∈ later, x ∈ seen) (n : ℕ) :
    ∀ before y after, before.length = n → later ++ r :: earlier = before ++ y :: after → y ∉ seen →
      ReflTransGen R y r → ReflTransGen R r y := by
  -- by induction on the place of the node in the finishing order
  induction n using Nat.strong_induction_on with
  | _ n ih =>
    intro before y after hlen hsplit hy hpath
    rcases hfinished before y after hsplit r hpath with hr | ⟨x, hx, hmutual⟩
    · rcases mem_cons.mp hr with rfl | hr
      · exact .refl
      · -- the node was finished later than the root, so it is labeled
        obtain ⟨between, rest, rfl⟩ := append_of_mem hr
        have hr' : r ∉ later ∧ r ∉ earlier := by
          rw [nodup_append, nodup_cons] at hnodup
          exact ⟨fun hmem => hnodup.2.2 r hmem r mem_cons_self rfl, hnodup.2.1.1⟩
        have hsame : later ++ r :: earlier = (before ++ y :: between) ++ r :: rest := by
          rw [hsplit, append_assoc, cons_append]
        obtain ⟨rfl, -, -⟩ := (append_cons_inj_of_notMem hr'.1 hr'.2).mp hsame
        exact absurd (hlater y (by simp)) hy
    · have hx : x ∈ before := hx.resolve_right (by simp)
      obtain ⟨front, back, rfl⟩ := append_of_mem hx
      have hxseen : x ∉ seen := fun hmem => hy (h.mem_of_reaches hmem hmutual.2)
      have hshorter : front.length < n := by
        rw [← hlen, length_append, length_cons]
        omega
      have hsplit' : later ++ r :: earlier = front ++ x :: (back ++ y :: after) := by
        rw [hsplit, append_assoc, cons_append]
      exact (ih front.length hshorter front x _ rfl hsplit' hxseen (hmutual.1.trans hpath)).trans
        hmutual.1

/-- The search backwards from the last unlabeled node labels its strong component. -/
theorem Labeled.step [BEq N] [LawfulBEq N] {seen later earlier : List N} {label label' : N → ℕ}
    {next : ℕ} {r : N}
    {m' : Marks N} (h : Labeled R seen label next) (hnodup : (later ++ r :: earlier).Nodup)
    (hfinished : Marks.Finished R { removed := later ++ r :: earlier })
    (hlater : ∀ x ∈ later, x ∈ seen)
    (hproper : Marks.Proper (fun u v => R v u) { removed := seen })
    (hremoves : Removes (fun u v => R v u) [r] { removed := seen } m')
    (hlisted : ∀ y ∈ m'.removed, y ∈ later ++ r :: earlier)
    (hold : ∀ v ∈ seen, label' v = label v)
    (hnew : ∀ v ∈ m'.removed, v ∉ seen → label' v = next) :
    Labeled R m'.removed label' (next + 1) := by
  obtain ⟨hproper', hvisiting, -, hmono, hreach⟩ := hremoves.proper hproper
  have hclosed : ∀ v ∈ m'.removed, ∀ u, R u v → u ∈ m'.removed := by
    intro v hv u huv
    refine (hproper'.closed v hv u huv).resolve_right ?_
    rw [hvisiting]
    exact not_mem_nil
  -- the newly seen nodes are on cycles with the root
  have hmutual : ∀ y ∈ m'.removed, y ∉ seen → Mutual R y r := by
    intro y hy hyseen
    obtain ⟨v, hv, hpath⟩ := (hreach y hy).resolve_left hyseen
    rw [mem_singleton.mp hv] at hpath
    have hyr : ReflTransGen R y r := reflTransGen_swap.mp hpath
    obtain ⟨before, after, hsplit⟩ := append_of_mem (hlisted y hy)
    exact ⟨hyr, h.mutual_of_reaches hnodup hfinished hlater _ before y after rfl hsplit hyseen hyr⟩
  have hlabel : ∀ v ∈ m'.removed, label' v < next + 1 := by
    intro v hv
    by_cases hvseen : v ∈ seen
    · rw [hold v hvseen]
      exact Nat.lt_succ_of_lt (h.lt v hvseen)
    · rw [hnew v hv hvseen]
      exact Nat.lt_succ_self next
  have happart : ∀ u ∈ seen, ∀ v ∈ m'.removed, v ∉ seen →
      label' u ≠ label' v ∧ ¬ Mutual R u v := by
    intro u hu v hv hvseen
    refine ⟨?_, fun huv => hvseen (h.mem_of_reaches hu huv.2)⟩
    rw [hold u hu, hnew v hv hvseen]
    exact (h.lt u hu).ne
  refine ⟨hclosed, hlabel, fun v hv u huv => ?_, fun u hu v hv => ?_⟩
  · by_cases hvseen : v ∈ seen
    · rw [hold v hvseen, hold u (h.closed v hvseen u huv)]
      exact h.le v hvseen u huv
    · rw [hnew v hv hvseen]
      exact Nat.le_of_lt_succ (hlabel u (hclosed v hv u huv))
  · by_cases huseen : u ∈ seen <;> by_cases hvseen : v ∈ seen
    · rw [hold u huseen, hold v hvseen]
      exact h.eq_iff u huseen v hvseen
    · exact iff_of_false (happart u huseen v hv hvseen).1 (happart u huseen v hv hvseen).2
    · exact iff_of_false (happart v hvseen u hu huseen).1.symm
        fun huv => (happart v hvseen u hu huseen).2 huv.symm
    · refine iff_of_true ((hnew u hu huseen).trans (hnew v hv hvseen).symm) ?_
      exact (hmutual u hu huseen).trans (hmutual v hv hvseen).symm

end Components

end DepthFirst
