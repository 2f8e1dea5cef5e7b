import Mathlib.Data.List.Nodup
import Mathlib.Logic.Relation

/-!
# Removal in post-order

A traversal that removes nodes of a graph, each after its successors. A node whose removal has begun
is being visited; one that is met again while it is visited, or after it was removed, is passed
over, so that cycles do no harm. The successors of a node are listed in some order when the node is
entered, and those that were removed before may be missing from the list. What is left removed in
the end is everything that can be reached from the start.
-/

namespace PostOrder

variable {N : Type}

/-- The nodes being visited, and the removed ones. -/
structure Marks (N : Type) where
  visiting : List N := []
  removed : List N := []

/-- Each of two nodes can be reached from the other. -/
def Mutual (R : N → N → Prop) (v w : N) : Prop :=
  Relation.ReflTransGen R v w ∧ Relation.ReflTransGen R w v

theorem Mutual.symm {R : N → N → Prop} {v w : N} (h : Mutual R v w) : Mutual R w v := ⟨h.2, h.1⟩

theorem Mutual.trans {R : N → N → Prop} {v w x : N} (h : Mutual R v w) (h' : Mutual R w x) :
    Mutual R v x := ⟨h.1.trans h'.1, h'.2.trans h.2⟩

namespace Marks

/-- A node is entered. -/
def enter (v : N) (m : Marks N) : Marks N := { m with visiting := v :: m.visiting }

/-- A node is removed and left. -/
def leave [BEq N] (v : N) (m : Marks N) : Marks N :=
  { visiting := m.visiting.erase v, removed := v :: m.removed }

/-- No node is removed twice or while it is visited, and the successors of a removed node are
removed, or are being visited. -/
structure Proper (R : N → N → Prop) (m : Marks N) : Prop where
  nodup : m.removed.Nodup
  disjoint : ∀ v ∈ m.visiting, v ∉ m.removed
  closed : ∀ v ∈ m.removed, ∀ c, R v c → c ∈ m.removed ∨ c ∈ m.visiting

theorem Proper.enter {R : N → N → Prop} {m : Marks N} (hm : m.Proper R) {v : N}
    (hv : v ∉ m.removed) : (m.enter v).Proper R :=
  ⟨hm.nodup, List.forall_mem_cons.mpr ⟨hv, hm.disjoint⟩, fun n hn c hc =>
    (hm.closed n hn c hc).imp_right (List.mem_cons_of_mem v)⟩

/-- Leaving a node that is being visited leaves the marked nodes as they are. -/
theorem mem_leave_iff [BEq N] [LawfulBEq N] {m : Marks N} {v w : N} (hv : v ∈ m.visiting) :
    w ∈ (m.leave v).removed ∨ w ∈ (m.leave v).visiting ↔ w ∈ m.removed ∨ w ∈ m.visiting := by
  by_cases hwv : w = v
  · subst hwv
    simp [leave, hv]
  · simp [leave, hwv, List.mem_erase_of_ne hwv]

/-- What can be reached from a removed node was removed before it, unless the node lies on a cycle
with one that was removed later or is still being visited. -/
def Finished (R : N → N → Prop) (m : Marks N) : Prop :=
  ∀ later v earlier, m.removed = later ++ v :: earlier → ∀ w, Relation.ReflTransGen R v w →
    w ∈ v :: earlier ∨ ∃ x, (x ∈ later ∨ x ∈ m.visiting) ∧ Mutual R x v

/-- A path from a removed node ends at a removed node, or passes one that is being visited. -/
theorem Proper.reaches {R : N → N → Prop} {m : Marks N} (hm : m.Proper R) {v w : N}
    (hv : v ∈ m.removed) (hpath : Relation.ReflTransGen R v w) :
    w ∈ m.removed ∨ ∃ x ∈ m.visiting, Relation.ReflTransGen R v x := by
  induction hpath with
  | refl => exact Or.inl hv
  | tail hpath hstep ih =>
    rcases ih with hmem | hvisited
    · exact (hm.closed _ hmem _ hstep).imp_right fun hc => ⟨_, hc, hpath.tail hstep⟩
    · exact Or.inr hvisited

end Marks

open Marks List

/-- The nodes of a list are removed one after another, each after the successors listed for it. -/
inductive Removes [BEq N] (R : N → N → Prop) : List N → Marks N → Marks N → Prop
  | nil (m : Marks N) : Removes R [] m m
  | seen {v : N} {vs : List N} {m m' : Marks N} (hseen : v ∈ m.removed ∨ v ∈ m.visiting)
      (hrest : Removes R vs m m') : Removes R (v :: vs) m m'
  | remove {v : N} {vs : List N} {m m₁ m' : Marks N} (hremoved : v ∉ m.removed)
      (hvisiting : v ∉ m.visiting) (successors : List N) (hsound : ∀ c ∈ successors, R v c)
      (hcomplete : ∀ c, R v c → c ∈ m.removed ∨ c ∈ successors)
      (hsuccessors : Removes R successors (m.enter v) m₁) (hrest : Removes R vs (m₁.leave v) m') :
      Removes R (v :: vs) m m'

variable [BEq N] {R : N → N → Prop} {vs ws : List N} {m m' m'' : Marks N}

theorem Removes.append (h : Removes R vs m m') (h' : Removes R ws m' m'') :
    Removes R (vs ++ ws) m m'' := by
  induction h with
  | nil => exact h'
  | seen hseen _ ih => exact .seen hseen (ih h')
  | remove hremoved hvisiting successors hsound hcomplete hsuccessors _ _ ih =>
    exact .remove hremoved hvisiting successors hsound hcomplete hsuccessors (ih h')

/-- The marks stay proper. The same nodes are being visited afterwards; every node of the list is
removed or being visited, and every node that was removed can be reached from the list. -/
theorem Removes.proper [LawfulBEq N] (h : Removes R vs m m') (hm : m.Proper R) :
    m'.Proper R ∧ m'.visiting = m.visiting ∧ (∀ v ∈ vs, v ∈ m'.removed ∨ v ∈ m'.visiting) ∧
      (∀ n ∈ m.removed, n ∈ m'.removed) ∧
      ∀ n ∈ m'.removed, n ∈ m.removed ∨ ∃ v ∈ vs, Relation.ReflTransGen R v n := by
  induction h with
  | nil m => exact ⟨hm, rfl, by simp, fun _ h => h, fun _ => Or.inl⟩
  | @seen v vs m m' hseen _ ih =>
    obtain ⟨hproper, hsame, hlist, hmono, hreach⟩ := ih hm
    refine ⟨hproper, hsame, forall_mem_cons.mpr ⟨?_, hlist⟩, hmono, fun n hn => ?_⟩
    · exact hseen.imp (hmono v) fun h => hsame ▸ h
    · exact (hreach n hn).imp_right fun ⟨w, hw, hpath⟩ => ⟨w, mem_cons_of_mem _ hw, hpath⟩
  | @remove v vs m m₁ m' hremoved hvisiting successors hsound hcomplete _ _ ih ih' =>
    obtain ⟨hproper₁, hsame₁, hlist₁, hmono₁, hreach₁⟩ := ih (hm.enter hremoved)
    have hvisiting₁ : m₁.visiting = v :: m.visiting := hsame₁
    have hleft : (m₁.leave v).visiting = m.visiting := by
      rw [leave, hvisiting₁, erase_cons_head]
    have hnew : v ∉ m₁.removed := hproper₁.disjoint v (hvisiting₁ ▸ mem_cons_self)
    -- a node that is removed or visited before the node is left is so afterwards
    have hkept : ∀ c, c ∈ m₁.removed ∨ c ∈ m₁.visiting →
        c ∈ (m₁.leave v).removed ∨ c ∈ (m₁.leave v).visiting := by
      rintro c (hc | hc)
      · exact Or.inl (mem_cons_of_mem v hc)
      · rw [hvisiting₁, mem_cons] at hc
        rcases hc with rfl | hc
        · exact Or.inl mem_cons_self
        · exact Or.inr (hleft ▸ hc)
    have hproper : (m₁.leave v).Proper R := by
      refine ⟨nodup_cons.mpr ⟨hnew, hproper₁.nodup⟩, fun w hw hmem => ?_,
        forall_mem_cons.mpr ⟨fun c hc => ?_, fun n hn c hc => hkept c (hproper₁.closed n hn c hc)⟩⟩
      · rw [hleft] at hw
        rcases mem_cons.mp hmem with rfl | hmem
        · exact hvisiting hw
        · exact hproper₁.disjoint w (hvisiting₁ ▸ mem_cons_of_mem v hw) hmem
      · refine hkept c ?_
        rcases hcomplete c hc with hold | hlisted
        · exact Or.inl (hmono₁ c hold)
        · exact hlist₁ c hlisted
    obtain ⟨hproper', hsame', hlist', hmono', hreach'⟩ := ih' hproper
    refine ⟨hproper', hsame'.trans hleft, forall_mem_cons.mpr ⟨?_, hlist'⟩,
      fun n hn => hmono' n (mem_cons_of_mem v (hmono₁ n hn)), fun n hn => ?_⟩
    · exact Or.inl (hmono' v mem_cons_self)
    · rcases hreach' n hn with hmem | ⟨w, hw, hpath⟩
      · rcases mem_cons.mp hmem with rfl | hmem
        · exact Or.inr ⟨n, mem_cons_self, .refl⟩
        · refine (hreach₁ n hmem).imp_right fun ⟨c, hc, hpath⟩ => ⟨v, mem_cons_self, ?_⟩
          exact hpath.head (hsound c hc)
      · exact Or.inr ⟨w, mem_cons_of_mem _ hw, hpath⟩

/-- A removal that starts from nothing removes what can be reached from the list, each node once. -/
theorem Removes.mem_removed_iff [LawfulBEq N] (h : Removes R vs {} m') :
    m'.removed.Nodup ∧ ∀ n, n ∈ m'.removed ↔ ∃ v ∈ vs, Relation.ReflTransGen R v n := by
  obtain ⟨hproper, hsame, hlist, -, hreach⟩ := h.proper ⟨nodup_nil, by simp, by simp⟩
  have hnone : ∀ n, n ∉ m'.visiting := fun n hn => by
    rw [hsame] at hn
    cases hn
  refine ⟨hproper.nodup, fun n => ⟨fun hn => (hreach n hn).resolve_left (by simp), ?_⟩⟩
  rintro ⟨v, hv, hpath⟩
  induction hpath with
  | refl => exact (hlist v hv).resolve_right (hnone v)
  | tail _ hstep ih => exact (hproper.closed _ ih _ hstep).resolve_right (hnone _)

/-- The removals are in finishing order if every node that is being visited reaches the list. -/
theorem Removes.finished [LawfulBEq N] (h : Removes R vs m m') (hm : m.Proper R)
    (hfinished : m.Finished R)
    (hstack : ∀ x ∈ m.visiting, ∀ v ∈ vs, Relation.ReflTransGen R x v) : m'.Finished R := by
  induction h with
  | nil m => exact hfinished
  | @seen v vs m m' _ _ ih =>
    exact ih hm hfinished fun x hx w hw => hstack x hx w (mem_cons_of_mem v hw)
  | @remove v vs m m₁ m' hremoved hvisiting successors hsound hcomplete hsuccessors hrest ih ih' =>
    obtain ⟨hproper₁, hsame₁, -, -, -⟩ := hsuccessors.proper (hm.enter hremoved)
    have hvisiting₁ : m₁.visiting = v :: m.visiting := hsame₁
    have hleft : (m₁.leave v).visiting = m.visiting := by
      rw [leave, hvisiting₁, erase_cons_head]
    have hstack_v : ∀ x ∈ m.visiting, Relation.ReflTransGen R x v :=
      fun x hx => hstack x hx v mem_cons_self
    have hfinished₁ : m₁.Finished R := by
      refine ih (hm.enter hremoved) (fun later r earlier hsplit w hw => ?_) fun x hx c hc => ?_
      · refine (hfinished later r earlier hsplit w hw).imp_right ?_
        rintro ⟨x, hx, hmutual⟩
        exact ⟨x, hx.imp_right (mem_cons_of_mem v), hmutual⟩
      · rcases mem_cons.mp hx with rfl | hx
        · exact .single (hsound c hc)
        · exact (hstack_v x hx).tail (hsound c hc)
    have hproper : (m₁.leave v).Proper R :=
      ((Removes.remove hremoved hvisiting successors hsound hcomplete hsuccessors
        (.nil _)).proper hm).1
    refine ih' hproper (fun later r earlier hsplit w hw => ?_) fun x hx c hc => ?_
    · rw [hleft]
      cases later with
      | nil =>
        -- the node that is left: its path stays among the removed nodes or meets the stack
        obtain ⟨rfl, rfl⟩ := List.cons.inj hsplit
        rcases hproper.reaches mem_cons_self hw with hmem | ⟨x, hx, hpath⟩
        · exact Or.inl hmem
        · rw [hleft] at hx
          exact Or.inr ⟨x, Or.inr hx, hstack_v x hx, hpath⟩
      | cons first later =>
        obtain ⟨rfl, htail⟩ := List.cons.inj hsplit
        refine (hfinished₁ later r earlier htail w hw).imp_right ?_
        rintro ⟨x, hx | hx, hmutual⟩
        · exact ⟨x, Or.inl (mem_cons_of_mem v hx), hmutual⟩
        · rw [hvisiting₁, mem_cons] at hx
          rcases hx with rfl | hx
          · exact ⟨x, Or.inl mem_cons_self, hmutual⟩
          · exact ⟨x, Or.inr hx, hmutual⟩
    · exact hstack x (hleft ▸ hx) c (mem_cons_of_mem v hc)

end PostOrder
