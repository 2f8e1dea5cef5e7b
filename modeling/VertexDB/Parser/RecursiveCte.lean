import VertexDB.Execution.PredicateEval
import VertexDB.Lib.DepthFirst
import VertexDB.Lib.Kahn
import VertexDB.Storage.SparseLayout

/-!
# Components of recursive common table expressions

The reference graph of the recursive entries of a WITH list, its strong components by two
depth-first searches, the order of materialization by counting the components an entry waits for,
and the check of a WITH list, after `src/parser/recursive_cte.cpp`. Entries are named by their place
among the recursive ones. The order in which the unordered sets are walked is a parameter.
-/

namespace VertexDB

open DepthFirst PostOrder Relation List

/-- The tables of a `Select`, its joins and the arms of its set operations. -/
inductive Select
  | mk (table : String) (joins : List String) (setOps : List (Option Select))

/-- `CteEntry`. A name is an identifier. -/
structure CteEntry where
  name : String
  name_ne : name ≠ ""
  body : Option Select
  recursive : Bool
  recursiveBindAccumulator : Bool := false
  recursiveArm : Option Select

mutual

/-- `countTableRefsInSelect`. -/
def countTableRefsInSelect (tableName : String) : Select → ℕ
  | .mk table joins setOps =>
    (if equalsIgnoreCase table tableName then 1 else 0) +
      joins.countP (equalsIgnoreCase · tableName) + countTableRefsInArms tableName setOps

/-- The loop of `countTableRefsInSelect` over the set operations. -/
def countTableRefsInArms (tableName : String) : List (Option Select) → ℕ
  | [] => 0
  | none :: arms => countTableRefsInArms tableName arms
  | some arm :: arms => countTableRefsInSelect tableName arm + countTableRefsInArms tableName arms

end

/-- `canonicalRecursiveName`. -/
def canonicalRecursiveName (ctes : List CteEntry) (name : String) : String :=
  match ctes.find? fun cte => cte.recursive && equalsIgnoreCase cte.name name with
  | some cte => cte.name
  | none => ""

/-- The entries at `recursiveCteIndexes`. -/
def recursiveCtes (ctes : List CteEntry) : List CteEntry := ctes.filter (·.recursive)

/-- `referencedRecursiveCteNames`. -/
def referencedRecursiveCteNames (select : Select) (ctes : List CteEntry) : List String :=
  ((ctes.filter fun cte => cte.recursive && countTableRefsInSelect cte.name select ≠ 0).map
    (·.name)).eraseDups

/-- `buildRecursiveRefGraph` of the recursive entries. -/
def buildRecursiveRefGraph (recursives : List CteEntry) : List (List ℕ) :=
  recursives.map fun cte =>
    match cte.recursiveArm with
    | none => []
    | some arm =>
      (recursives.zipIdx.filter fun other => countTableRefsInSelect other.1.name arm > 0).map (·.2)

/-- The entries of an adjacency list. -/
def successors (adj : List (List ℕ)) (u : ℕ) : List ℕ := adj.getD u []

/-- The lists `radj` of `stronglyConnectedComponents`. -/
def reversed (adj : List (List ℕ)) : List (List ℕ) :=
  (List.range adj.length).map fun v => (List.range adj.length).flatMap fun u =>
    ((successors adj u).filter (· = v)).map fun _ => u

/-- The first loop of `stronglyConnectedComponents`, with `dfs1`: the nodes as they are finished. -/
def finishingOrder (adj : List (List ℕ)) : List ℕ :=
  (visitAll (successors adj) (fun _ order => order) (fun u order => order ++ [u]) adj.length
    (List.range adj.length) { seen := ∅, data := [] }).data

/-- A step of the second loop of `stronglyConnectedComponents`, with `dfs2`. -/
def labelFrom (adj : List (List ℕ)) (state : Search ℕ (List ℕ) × ℕ) (u : ℕ) :
    Search ℕ (List ℕ) × ℕ :=
  if u ∈ state.1.seen then state
  else (visit (successors (reversed adj)) (fun v scc => scc.set v state.2) (fun _ scc => scc)
    adj.length u state.1, state.2 + 1)

/-- `stronglyConnectedComponents`. -/
def stronglyConnectedComponents (adj : List (List ℕ)) : List ℕ × ℕ :=
  let state := (finishingOrder adj).reverse.foldl (labelFrom adj)
    ({ seen := ∅, data := List.replicate adj.length 0 }, 0)
  (state.1.data, state.2)

/-- The components of the reference graph. -/
abbrev components (recursives : List CteEntry) : List ℕ × ℕ :=
  stronglyConnectedComponents (buildRecursiveRefGraph recursives)

/-- The list `members` of a component. -/
def members (recursives : List CteEntry) (scc : List ℕ) (id : ℕ) : List ℕ :=
  (List.range recursives.length).filter fun d => scc.getD d 0 = id

/-- `recursiveSccContaining`. -/
def recursiveSccContaining (ctes : List CteEntry) (name : String) : List CteEntry :=
  let recursives := recursiveCtes ctes
  if recursives.isEmpty then []
  else
    let canon := canonicalRecursiveName ctes name
    if canon.isEmpty then []
    else
      let scc := (components recursives).1
      match recursives.findIdx? fun cte => equalsIgnoreCase cte.name canon with
      | none => []
      | some target => (members recursives scc (scc.getD target 0)).filterMap (recursives[·]?)

/-- The sets `cond`: the other components that a component refers to. -/
def condensation (adj : List (List ℕ)) (scc : List ℕ) (id : ℕ) : List ℕ :=
  ((((List.range adj.length).filter fun u => scc.getD u 0 = id).flatMap fun u =>
    (successors adj u).map fun v => scc.getD v 0).filter (· ≠ id)).dedup

/-- The list `topo` of `recursiveMaterializationOrder` after the loop over the queue. -/
def materializationTopo (order : HashOrder) (adj : List (List ℕ)) (scc : List ℕ) (sccCount : ℕ) :
    List ℕ :=
  let cond := condensation adj scc
  let producers := fun v => order.walk ((List.range sccCount).filter fun u => v ∈ cond u)
  ((Kahn.process producers)^[sccCount]
    { remaining := fun u => (cond u).length
      queue := (List.range sccCount).filter fun u => (cond u).length = 0 }).topo

/-- `recursiveMaterializationOrder`. -/
def recursiveMaterializationOrder (order : HashOrder) (ctes : List CteEntry) : List CteEntry :=
  let recursives := recursiveCtes ctes
  let adj := buildRecursiveRefGraph recursives
  let (scc, sccCount) := components recursives
  let topo := materializationTopo order adj scc sccCount
  let topo := if topo.length ≠ sccCount then List.range sccCount else topo
  (topo.flatMap (members recursives scc)).filterMap (recursives[·]?)

/-- The arrays of the cycle check. -/
structure CycleMarks where
  visiting : Finset ℕ := ∅
  visited : Finset ℕ := ∅

/-- The function `cycle` of `validateRecursiveCtes`; no marks are returned when it finds a cycle. -/
def cycle (edges : ℕ → List ℕ) : ℕ → ℕ → CycleMarks → Option CycleMarks
  | 0, _, _ => none
  | depth + 1, u, marks =>
    if u ∈ marks.visiting then none
    else if u ∈ marks.visited then some marks
    else do
      let marks ← (edges u).foldlM (fun marks v => cycle edges depth v marks)
        { marks with visiting := insert u marks.visiting }
      some { visiting := marks.visiting.erase u, visited := insert u marks.visited }

/-- The checks of one entry in `validateRecursiveCtes`. -/
def checkRecursiveCte (ctes : List CteEntry) (cte : CteEntry) : Except Error Unit :=
  match cte.body, cte.recursiveArm with
  | some body, some arm =>
    if cte.recursiveBindAccumulator && !cte.recursive then
      throw (.runtimeError "AS ACCUMULATOR requires a recursive CTE")
    else if (recursiveCtes ctes).any fun other => countTableRefsInSelect other.name body ≠ 0 then
      throw (.runtimeError "recursive CTE anchor must not reference a recursive CTE")
    else match referencedRecursiveCteNames arm ctes with
      | [name] =>
        if countTableRefsInSelect name arm ≠ 1 then
          throw (.runtimeError
            "recursive CTE arm must reference the recursive CTE name exactly once")
        else pure ()
      | _ => throw (.runtimeError "recursive CTE arm must reference exactly one recursive CTE name")
  | _, _ => throw (.runtimeError "recursive CTE is missing anchor or recursive arm")

/-- `validateRecursiveCtes`. -/
def validateRecursiveCtes (order : HashOrder) (ctes : List CteEntry) : Except Error Unit := do
  let recursives := recursiveCtes ctes
  recursives.forM (checkRecursiveCte ctes)
  let adj := buildRecursiveRefGraph recursives
  let (scc, sccCount) := components recursives
  let edges := fun u => order.walk (condensation adj scc u)
  match (List.range sccCount).foldlM (fun marks id => cycle edges (sccCount + 1) id marks) {} with
  | none => throw (.runtimeError "recursive CTE dependency cycle is not supported")
  | some _ => pure ()

/-- The recursive arm of an entry refers to another entry. -/
def References (recursives : List CteEntry) (u v : ℕ) : Prop :=
  ∃ cte arm other, recursives[u]? = some cte ∧ cte.recursiveArm = some arm ∧
    recursives[v]? = some other ∧ countTableRefsInSelect other.name arm > 0

/-- An edge of an adjacency list. -/
def Edge (adj : List (List ℕ)) (u v : ℕ) : Prop := v ∈ successors adj u

theorem edge_buildRecursiveRefGraph (recursives : List CteEntry) :
    Edge (buildRecursiveRefGraph recursives) = References recursives := by
  funext u v
  rw [Edge, successors, buildRecursiveRefGraph, getD_eq_getElem?_getD, getElem?_map, References]
  cases recursives[u]? with
  | none => simp
  | some cte =>
    cases harm : cte.recursiveArm <;> simp [harm, mem_zipIdx_iff_getElem?]

theorem Edge.lt {adj : List (List ℕ)} {u v : ℕ} (h : Edge adj u v) : u < adj.length := by
  by_contra hu
  simp [Edge, successors, getElem?_eq_none (not_lt.mp hu)] at h

section Components

variable {adj : List (List ℕ)}

variable (hadj : ∀ u v, Edge adj u v → v < adj.length)
include hadj

theorem edge_reversed : Edge (reversed adj) = fun u v => Edge adj v u := by
  funext u v
  refine propext ⟨fun h => ?_, fun h => ?_⟩
  · have hu := h.lt
    simp only [reversed, length_map, length_range] at hu
    simp [Edge, successors, reversed, hu] at h
    simpa [Edge, successors] using h.2
  · have hu := hadj v u h
    have hv := h.lt
    simp [Edge, successors, reversed, hu] at h ⊢
    exact ⟨hv, h⟩

/-- The first search lists every node once, in finishing order. -/
theorem finishingOrder_spec :
    (finishingOrder adj).reverse.Nodup ∧ (∀ v, v ∈ (finishingOrder adj).reverse ↔ v < adj.length) ∧
      Marks.Finished (Edge adj) { removed := (finishingOrder adj).reverse } := by
  have hnodes : ∀ u ∈ Finset.range adj.length, ∀ v ∈ successors adj u,
      v ∈ Finset.range adj.length :=
    fun u _ v hv => Finset.mem_range.mpr (hadj u v hv)
  have hempty : Marks.Proper (Edge adj) {} := ⟨nodup_nil, by simp, by simp⟩
  have hrun : ∃ m, Removes (Edge adj) (range adj.length) {} m ∧
      Follows (fun m order => order = m.removed.reverse) (visitAll (successors adj)
        (fun _ order => order) (fun u order => order ++ [u]) adj.length (range adj.length)
        { seen := ∅, data := [] }) m :=
    visitAll_removes hnodes (fun _ _ _ _ _ hd => hd) (fun _ _ _ _ hd => by simp [hd, Marks.leave])
      _ _ _ {} ⟨by simp, rfl⟩ hempty (by simp) (by simp)
  obtain ⟨⟨visiting, removed⟩, hremoves, hfollows⟩ := hrun
  obtain ⟨hproper, hvisiting, hlist, -, hreach⟩ := hremoves.proper hempty
  obtain rfl : visiting = [] := hvisiting
  have horder : (finishingOrder adj).reverse = removed := by
    rw [show finishingOrder adj = removed.reverse from hfollows.data, reverse_reverse]
  rw [horder]
  refine ⟨hproper.nodup, fun v => ⟨fun hv => ?_, fun hv => ?_⟩,
    hremoves.finished hempty (fun later v earlier h => by simp at h) (by simp)⟩
  · obtain ⟨u, hu, hpath⟩ := (hreach v hv).resolve_left (by simp)
    cases hpath with
    | refl => exact mem_range.mp hu
    | tail _ hstep => exact hadj _ _ hstep
  · exact (hlist v (mem_range.mpr hv)).resolve_right (by simp)

omit hadj in
/-- What holds when the second search has been started from the nodes finished later. -/
def Labels (adj : List (List ℕ)) (later : List ℕ) (state : Search ℕ (List ℕ) × ℕ) : Prop :=
  ∃ seen : List ℕ, (∀ v, v ∈ state.1.seen ↔ v ∈ seen) ∧
    Marks.Proper (fun u v => Edge adj v u) { removed := seen } ∧
    Labeled (Edge adj) seen (state.1.data.getD · 0) state.2 ∧ (∀ v ∈ later, v ∈ seen) ∧
    (∀ v ∈ seen, v < adj.length) ∧ state.1.data.length = adj.length

theorem Labels.labelFrom {later earlier : List ℕ} {r : ℕ} {state : Search ℕ (List ℕ) × ℕ}
    (hsplit : (finishingOrder adj).reverse = later ++ r :: earlier) (h : Labels adj later state) :
    Labels adj (later ++ [r]) (labelFrom adj state r) := by
  obtain ⟨seen, hseen, hproper, hlabeled, hlater, hlt, hlen⟩ := h
  obtain ⟨hnodup, hmem, hfinished⟩ := finishingOrder_spec hadj
  rw [hsplit] at hnodup hmem hfinished
  have hrlt : r < adj.length := (hmem r).mp (by simp)
  rw [VertexDB.labelFrom]
  split_ifs with hr
  · refine ⟨seen, hseen, hproper, hlabeled, fun v hv => ?_, hlt, hlen⟩
    rcases mem_append.mp hv with hv | hv
    · exact hlater v hv
    · rw [mem_singleton.mp hv]
      exact (hseen r).mp hr
  have hedge := edge_reversed hadj
  have hnodes : ∀ u ∈ Finset.range adj.length, ∀ v ∈ successors (reversed adj) u,
      v ∈ Finset.range adj.length := fun u _ v hv =>
    Finset.mem_range.mpr ((congrFun₂ hedge u v).mp hv).lt
  have hrun : ∃ m, Removes (Edge (reversed adj)) [r] { removed := seen } m ∧
      Follows (fun m scc => scc.length = adj.length ∧ (∀ v ∈ seen, v ∈ m.removed) ∧
          (∀ v ∈ seen, scc.getD v 0 = state.1.data.getD v 0) ∧ ∀ v < adj.length, v ∉ seen →
            v ∈ m.removed ∨ v ∈ m.visiting → scc.getD v 0 = state.2)
        (visitAll (successors (reversed adj)) (fun v scc => scc.set v state.2) (fun _ scc => scc)
          adj.length [r] state.1) m := by
    refine visitAll_removes hnodes ?_ ?_ _ _ _ _ ⟨by simpa using hseen, hlen, fun _ => id,
      fun _ _ => rfl, fun v _ hv hmem => absurd (hmem.resolve_right (by simp)) hv⟩
        ?_ (by simpa using hrlt)
      ((Finset.card_le_card Finset.sdiff_subset).trans_eq (Finset.card_range _))
    · rintro m scc u hremoved - ⟨hscc, hkept, hold, hnew⟩
      have hset : ∀ v, v ≠ u → (scc.set u state.2).getD v 0 = scc.getD v 0 := fun v hv => by
        rw [getD_eq_getElem?_getD, getElem?_set_ne hv.symm, ← getD_eq_getElem?_getD]
      refine ⟨by rw [length_set, hscc], hkept, fun v hv => ?_, fun v hv hvnew hmarked => ?_⟩
      · rw [hset v fun huv => hremoved (huv ▸ hkept v hv), hold v hv]
      · by_cases huv : v = u
        · subst huv
          simp [getD_eq_getElem?_getD, hscc, hv]
        · rw [hset v huv]
          exact hnew v hv hvnew (by simpa [Marks.enter, huv] using hmarked)
    · rintro m scc u hu ⟨hscc, hkept, hold, hnew⟩
      exact ⟨hscc, fun v hv => mem_cons_of_mem u (hkept v hv), hold, fun v hv hvnew hmarked =>
        hnew v hv hvnew ((Marks.mem_leave_iff hu).mp hmarked)⟩
    · change Marks.Proper (Edge (reversed adj)) _
      rwa [hedge]
  rw [visitAll_singleton hr] at hrun
  obtain ⟨⟨visiting, removed⟩, hremoves, ⟨hseen', hlen', hkept, hold, hnew⟩⟩ := hrun
  rw [hedge] at hremoves
  obtain ⟨hproper', hvisiting, hlist, -, hreach⟩ := hremoves.proper hproper
  obtain rfl : visiting = [] := hvisiting
  have hlt' : ∀ v ∈ removed, v < adj.length := by
    intro v hv
    rcases hreach v hv with hv | ⟨u, hu, hpath⟩
    · exact hlt v hv
    · cases hpath with
      | refl => rwa [mem_singleton.mp hu]
      | tail _ hstep => exact hstep.lt
  refine ⟨removed, fun v => by simpa using hseen' v, hproper', ?_, fun v hv => ?_, hlt', hlen'⟩
  · refine hlabeled.step hnodup hfinished hlater hproper hremoves
      (fun y hy => (hmem y).mpr (hlt' y hy))
      hold fun v hv hvnew => ?_
    exact hnew v (hlt' v hv) hvnew (Or.inl hv)
  · rcases mem_append.mp hv with hv | hv
    · exact hkept v (hlater v hv)
    · exact (hlist v hv).resolve_right (by simp)

/-- The labels are below their number, do not decrease along a reference, and are the same on each
component only. -/
theorem components_stronglyConnectedComponents :
    (∀ v < adj.length, (stronglyConnectedComponents adj).1.getD v 0 <
        (stronglyConnectedComponents adj).2) ∧
      (∀ u v, Edge adj u v → (stronglyConnectedComponents adj).1.getD u 0 ≤
        (stronglyConnectedComponents adj).1.getD v 0) ∧
      ∀ u < adj.length, ∀ v < adj.length, (stronglyConnectedComponents adj).1.getD u 0 =
        (stronglyConnectedComponents adj).1.getD v 0 ↔ Mutual (Edge adj) u v := by
  obtain ⟨-, hmem, -⟩ := finishingOrder_spec hadj
  have hrun : ∀ rest later state, (finishingOrder adj).reverse = later ++ rest →
      Labels adj later state → Labels adj (later ++ rest) (rest.foldl (labelFrom adj) state) := by
    intro rest
    induction rest with
    | nil => exact fun later state _ h => by rwa [append_nil]
    | cons r rest ih =>
      intro later state hsplit h
      rw [← singleton_append, ← append_assoc] at hsplit ⊢
      exact ih _ _ hsplit (h.labelFrom hadj (by rw [hsplit, append_assoc]; rfl))
  obtain ⟨seen, -, -, hlabeled, hall, -, -⟩ := hrun (finishingOrder adj).reverse []
    ({ seen := ∅, data := replicate adj.length 0 }, 0) rfl
    ⟨[], by simp, ⟨nodup_nil, by simp, by simp⟩, ⟨by simp, by simp, by simp, by simp⟩, by simp,
      by simp, length_replicate⟩
  have hseen : ∀ v < adj.length, v ∈ seen := fun v hv => hall v ((hmem v).mpr hv)
  exact ⟨fun v hv => hlabeled.lt v (hseen v hv),
    fun u v huv => hlabeled.le v (hseen v (hadj u v huv)) u huv,
    fun u hu v hv => hlabeled.eq_iff u (hseen u hu) v (hseen v hv)⟩

omit hadj in
theorem mem_condensation {scc : List ℕ} {id d : ℕ} : d ∈ condensation adj scc id ↔
    ∃ u v, Edge adj u v ∧ scc.getD u 0 = id ∧ scc.getD v 0 = d ∧ d ≠ id := by
  simp only [condensation, mem_dedup, mem_filter, mem_flatMap, mem_map,
    mem_range, decide_eq_true_eq]
  constructor
  · rintro ⟨⟨u, ⟨-, hu⟩, v, hv, rfl⟩, hne⟩
    exact ⟨u, v, hv, hu, rfl, hne⟩
  · rintro ⟨u, v, huv, hu, rfl, hne⟩
    exact ⟨⟨u, ⟨huv.lt, hu⟩, v, huv, rfl⟩, hne⟩

theorem lt_of_mem_condensation {id d : ℕ}
    (h : d ∈ condensation adj (stronglyConnectedComponents adj).1 id) :
    id < d ∧ d < (stronglyConnectedComponents adj).2 := by
  obtain ⟨hlt, hle, -⟩ := components_stronglyConnectedComponents hadj
  obtain ⟨u, v, huv, rfl, rfl, hne⟩ := mem_condensation.mp h
  exact ⟨lt_of_le_of_ne (hle u v huv) hne.symm, hlt v (hadj u v huv)⟩

theorem materializationTopo_sorts (order : HashOrder) :
    (materializationTopo order adj (stronglyConnectedComponents adj).1
        (stronglyConnectedComponents adj).2).Perm (List.range (stronglyConnectedComponents adj).2) ∧
      ∀ before u after, materializationTopo order adj (stronglyConnectedComponents adj).1
          (stronglyConnectedComponents adj).2 = before ++ u :: after →
        ∀ d ∈ condensation adj (stronglyConnectedComponents adj).1 u, d ∈ before := by
  set count := (stronglyConnectedComponents adj).2
  set cond := condensation adj (stronglyConnectedComponents adj).1
  have hcond : ∀ u, ∀ d ∈ cond u, u < d ∧ d < count := fun _ _ => lt_of_mem_condensation hadj
  have hmem : ∀ u v, u ∈ order.walk ((range count).filter fun u => v ∈ cond u) ↔
      u ∈ range count ∧ v ∈ cond u := fun u v => by
    rw [(order.perm _).mem_iff, mem_filter, decide_eq_true_eq]
  have hrank : ∀ u ∈ range count, ∀ d ∈ cond u, (fun id => count - id) d <
      (fun id => count - id) u := fun u _ d hd => by
    have hlt := hcond u d hd
    simp only
    omega
  have hsorts := Kahn.iterate_process_sorts nodup_range
    (fun u _ => nodup_dedup _) (fun u _ d hd => mem_range.mpr (hcond u d hd).2)
    (fun v => (order.perm _).nodup_iff.mpr (nodup_range.filter _)) hmem hrank
    (Kahn.sorted_start nodup_range) rfl
  rwa [length_range] at hsorts

end Components

/-- A loop whose steps find no cycle and keep the nodes being visited. -/
theorem foldlM_of_forall {f : CycleMarks → ℕ → Option CycleMarks} {visiting : Finset ℕ}
    {vs : List ℕ} (h : ∀ v ∈ vs, ∀ marks, marks.visiting = visiting →
      ∃ marks', f marks v = some marks' ∧ marks'.visiting = visiting) (marks : CycleMarks)
    (hmarks : marks.visiting = visiting) :
    ∃ marks', vs.foldlM f marks = some marks' ∧ marks'.visiting = visiting := by
  induction vs generalizing marks with
  | nil => exact ⟨marks, rfl, hmarks⟩
  | cons v vs ih =>
    obtain ⟨hv, hvs⟩ := forall_mem_cons.mp h
    obtain ⟨marks₁, hrun, hmarks₁⟩ := hv marks hmarks
    rw [foldlM_cons, hrun]
    exact ih hvs marks₁ hmarks₁

/-- The cycle check finds no cycle among edges to greater nodes. -/
theorem cycle_of_lt {edges : ℕ → List ℕ} {k : ℕ} (hedges : ∀ u, ∀ v ∈ edges u, u < v ∧ v < k)
    (depth u : ℕ) (marks : CycleMarks) (hu : u < k) (hdepth : k < u + depth)
    (hmarks : ∀ x ∈ marks.visiting, x < u) :
    ∃ marks', cycle edges depth u marks = some marks' ∧ marks'.visiting = marks.visiting := by
  induction depth generalizing u marks with
  | zero => omega
  | succ depth ih =>
    have hnew : u ∉ marks.visiting := fun hmem => (hmarks u hmem).false
    rw [cycle, if_neg hnew]
    split_ifs with hvisited
    · exact ⟨marks, rfl, rfl⟩
    have hloop : ∃ marks', (edges u).foldlM (fun marks v => cycle edges depth v marks)
        { marks with visiting := insert u marks.visiting } = some marks' ∧
          marks'.visiting = insert u marks.visiting := by
      refine foldlM_of_forall (fun v hv inner hinner => ?_) _ rfl
      obtain ⟨huv, hvk⟩ := hedges u v hv
      rw [← hinner]
      refine ih v inner hvk (by omega) fun x hx => ?_
      rw [hinner] at hx
      rcases Finset.mem_insert.mp hx with rfl | hx
      · exact huv
      · exact (hmarks x hx).trans huv
    obtain ⟨marks', hrun, hsame⟩ := hloop
    refine ⟨_, by rw [hrun]; rfl, ?_⟩
    rw [hsame, Finset.erase_insert hnew]

section Results

variable (ctes : List CteEntry)

theorem length_buildRecursiveRefGraph (recursives : List CteEntry) :
    (buildRecursiveRefGraph recursives).length = recursives.length :=
  length_map _

theorem lt_of_edge (recursives : List CteEntry) (u v : ℕ)
    (h : Edge (buildRecursiveRefGraph recursives) u v) :
    v < (buildRecursiveRefGraph recursives).length := by
  rw [edge_buildRecursiveRefGraph] at h
  obtain ⟨_, _, _, -, -, hv, -⟩ := h
  rw [length_buildRecursiveRefGraph]
  exact (List.getElem?_eq_some_iff.mp hv).1

/-- A group is found under the name of its first recursive entry. -/
theorem recursiveSccContaining_eq (name : String) : recursiveSccContaining ctes name =
    (((recursiveCtes ctes).findIdx? fun cte => equalsIgnoreCase cte.name name).map fun target =>
      (members (recursiveCtes ctes) (components (recursiveCtes ctes)).1
        ((components (recursiveCtes ctes)).1.getD target 0)).filterMap
          ((recursiveCtes ctes)[·]?)).getD [] := by
  have hfind : ctes.find? (fun cte => cte.recursive && equalsIgnoreCase cte.name name) =
      ((recursiveCtes ctes).findIdx? fun cte => equalsIgnoreCase cte.name name).bind
        ((recursiveCtes ctes)[·]?) := by
    rw [← find?_eq_bind_findIdx?_getElem?, recursiveCtes, find?_filter]
    simp
  rw [recursiveSccContaining, canonicalRecursiveName, hfind]
  cases hidx : (recursiveCtes ctes).findIdx? fun cte => equalsIgnoreCase cte.name name with
  | none => simp
  | some target =>
    obtain ⟨htarget, hname, -⟩ := findIdx?_eq_some_iff_getElem.mp hidx
    have hcanon :
      (fun cte : CteEntry => equalsIgnoreCase cte.name (recursiveCtes ctes)[target].name) =
        fun cte => equalsIgnoreCase cte.name name := by
      funext cte
      simp only [equalsIgnoreCase] at hname ⊢
      rw [of_decide_eq_true hname]
    have hnonempty : recursiveCtes ctes ≠ [] := ne_nil_of_length_pos (by omega)
    have hne := (recursiveCtes ctes)[target].name_ne
    simp [getElem?_eq_getElem htarget, hnonempty, hne, hcanon, hidx]

/-- The places of the entries in the order of the components. -/
theorem flatMap_members_sorted (order : HashOrder) (recursives : List CteEntry) {topo : List ℕ}
    (htopo : topo = materializationTopo order (buildRecursiveRefGraph recursives)
      (components recursives).1 (components recursives).2) :
    (topo.flatMap (members recursives (components recursives).1)).Perm
        (List.range recursives.length) ∧
      ∀ u v, References recursives u v → ¬ Mutual (References recursives) u v →
        ∀ before after, topo.flatMap (members recursives (components recursives).1) =
          before ++ u :: after → v ∈ before := by
  have hadj := lt_of_edge recursives
  obtain ⟨hlt, -, hiff⟩ := components_stronglyConnectedComponents hadj
  obtain ⟨hperm, hord⟩ := materializationTopo_sorts hadj order
  rw [← htopo] at hperm hord
  have hcond := @mem_condensation (buildRecursiveRefGraph recursives) (components recursives).1
  simp only [edge_buildRecursiveRefGraph, length_buildRecursiveRefGraph] at hadj hlt hiff hcond
  set scc := (components recursives).1
  have hmembers : ∀ {id d}, d ∈ members recursives scc id ↔
      d < recursives.length ∧ scc.getD d 0 = id := by simp [members]
  have hnodup : topo.Nodup := hperm.nodup_iff.mpr nodup_range
  refine ⟨(perm_ext_iff_of_nodup ?_ nodup_range).mpr fun d => ?_,
    fun u v huv hmutual before after hsplit => ?_⟩
  · refine nodup_flatMap.mpr ⟨fun id _ => nodup_range.filter _, hnodup.imp fun hne d hd hd' => ?_⟩
    exact hne ((hmembers.mp hd).2.symm.trans (hmembers.mp hd').2)
  · simp only [mem_flatMap, hmembers, mem_range]
    refine ⟨?_, fun hd => ⟨_, hperm.mem_iff.mpr (mem_range.mpr (hlt d hd)), hd, rfl⟩⟩
    rintro ⟨_, _, hd, _⟩
    exact hd
  · have hv := hadj u v huv
    have hu : u < recursives.length := by
      obtain ⟨_, _, _, hu, -⟩ := huv
      exact (List.getElem?_eq_some_iff.mp hu).1
    obtain ⟨front, back, rfl⟩ := List.append_of_mem (hperm.mem_iff.mpr (mem_range.mpr (hlt u hu)))
    have hne : scc.getD v 0 ≠ scc.getD u 0 := fun h => hmutual ((hiff u hu v hv).mp h.symm)
    -- the component of the other entry is put out before
    have hfront : v ∈ front.flatMap (members recursives scc) := mem_flatMap.mpr
      ⟨_, hord front _ back rfl _ (hcond.mpr ⟨u, v, huv, rfl, rfl, hne⟩), hmembers.mpr ⟨hv, rfl⟩⟩
    have hunot : u ∉ front.flatMap (members recursives scc) := by
      intro hmem
      obtain ⟨id, hid, hmem⟩ := mem_flatMap.mp hmem
      rw [← (hmembers.mp hmem).2] at hid
      exact (nodup_append.mp hnodup).2.2 _ hid _ mem_cons_self rfl
    rw [flatMap_append] at hsplit
    rcases append_eq_append_iff.mp hsplit with ⟨rest, rfl, -⟩ | ⟨rest, hbefore, hafter⟩
    · exact mem_append_left _ hfront
    · cases rest with
      | nil => rwa [hbefore, append_nil] at hfront
      | cons w rest =>
        obtain ⟨rfl, -⟩ := List.cons.inj hafter
        exact absurd (by simp [hbefore]) hunot

theorem checkRecursiveCte_ne (cte : CteEntry) : checkRecursiveCte ctes cte ≠
    .error (.runtimeError "recursive CTE dependency cycle is not supported") := by
  unfold checkRecursiveCte
  split
  · split_ifs
    · simp
    · simp
    · split
      · split_ifs <;> simp [pure, Except.pure]
      · simp
  · simp

/-- The cycle check rejects no list. -/
theorem validateRecursiveCtes_ne (order : HashOrder) : validateRecursiveCtes order ctes ≠
    .error (.runtimeError "recursive CTE dependency cycle is not supported") := by
  have hforM : ∀ recursives : List CteEntry, recursives.forM (checkRecursiveCte ctes) ≠
      .error (.runtimeError "recursive CTE dependency cycle is not supported") := by
    intro recursives
    induction recursives with
    | nil => simp [pure, Except.pure]
    | cons cte recursives ih =>
      change (checkRecursiveCte ctes cte >>= fun _ => recursives.forM (checkRecursiveCte ctes)) ≠ _
      cases hcheck : checkRecursiveCte ctes cte with
      | error e => exact fun h => checkRecursiveCte_ne ctes cte (hcheck.trans h)
      | ok _ => exact ih
  have hadj := lt_of_edge (recursiveCtes ctes)
  have hcycle : ∀ id ∈ range (components (recursiveCtes ctes)).2, ∀ marks,
      marks.visiting = ∅ → ∃ marks', cycle _ ((components (recursiveCtes ctes)).2 + 1) id marks =
        some marks' ∧ marks'.visiting = ∅ := fun id hid marks hmarks =>
    hmarks ▸ cycle_of_lt
      (fun u v hv => lt_of_mem_condensation hadj ((order.perm _).mem_iff.mp hv))
      _ id marks (mem_range.mp hid) (Nat.lt_add_left id (Nat.lt_succ_self _)) (by simp [hmarks])
  obtain ⟨marks, hrun, -⟩ := foldlM_of_forall hcycle {} rfl
  rw [validateRecursiveCtes]
  cases hcheck : (recursiveCtes ctes).forM (checkRecursiveCte ctes) with
  | error e => exact fun h => hforM _ (hcheck.trans h)
  | ok _ =>
    simp only [bind, Except.bind]
    rw [hrun]
    simp [pure, Except.pure]

open Classical in
/-- Two entries are in one component if each reaches the other, a group is such a component, and
every entry is materialized once, after the entries of other components that it refers to. Neither
the order for cyclic components nor the rejection of a cycle is ever reached. -/
theorem recursiveCtes_sorted (order : HashOrder) :
    (∀ u < (recursiveCtes ctes).length, ∀ v < (recursiveCtes ctes).length,
      (components (recursiveCtes ctes)).1.getD u 0 = (components (recursiveCtes ctes)).1.getD v 0 ↔
        Mutual (References (recursiveCtes ctes)) u v) ∧
      (∀ name, recursiveSccContaining ctes name =
        (((recursiveCtes ctes).findIdx? fun cte => equalsIgnoreCase cte.name name).map fun target =>
          ((List.range (recursiveCtes ctes).length).filter fun d =>
            Mutual (References (recursiveCtes ctes)) d target).filterMap
              ((recursiveCtes ctes)[·]?)).getD []) ∧
      (∃ places : List ℕ, places.Perm (List.range (recursiveCtes ctes).length) ∧
        recursiveMaterializationOrder order ctes = places.filterMap ((recursiveCtes ctes)[·]?) ∧
        ∀ u v, References (recursiveCtes ctes) u v →
          ¬ Mutual (References (recursiveCtes ctes)) u v →
          ∀ before after, places = before ++ u :: after → v ∈ before) ∧
      (materializationTopo order (buildRecursiveRefGraph (recursiveCtes ctes))
        (components (recursiveCtes ctes)).1 (components (recursiveCtes ctes)).2).length =
          (components (recursiveCtes ctes)).2 ∧
      validateRecursiveCtes order ctes ≠
        .error (.runtimeError "recursive CTE dependency cycle is not supported") := by
  have hadj := lt_of_edge (recursiveCtes ctes)
  obtain ⟨-, -, hiff⟩ := components_stronglyConnectedComponents hadj
  rw [edge_buildRecursiveRefGraph, length_buildRecursiveRefGraph] at hiff
  have htopo := (materializationTopo_sorts hadj order).1.length_eq
  rw [length_range] at htopo
  refine ⟨hiff, fun name => ?_, ⟨_, (flatMap_members_sorted order _ rfl).1, ?_,
    (flatMap_members_sorted order _ rfl).2⟩, htopo, validateRecursiveCtes_ne ctes order⟩
  · rw [recursiveSccContaining_eq]
    cases hidx : (recursiveCtes ctes).findIdx? fun cte => equalsIgnoreCase cte.name name with
    | none => rfl
    | some target =>
      obtain ⟨htarget, -⟩ := findIdx?_eq_some_iff_getElem.mp hidx
      simp only [Option.map_some, Option.getD_some, members]
      congr 1
      refine filter_congr fun d hd => decide_eq_decide.mpr ?_
      exact hiff d (mem_range.mp hd) target htarget
  · rw [recursiveMaterializationOrder]
    simp only [htopo, ne_eq, not_true_eq_false, if_false]

end Results

end VertexDB
