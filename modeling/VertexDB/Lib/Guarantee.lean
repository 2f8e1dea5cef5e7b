import VertexDB.Lib.Exec

/-!
# What the states of a computation keep

A guarantee is an invariant together with a preorder along which states may move. A computation run
under a guarantee ends in a state that has the invariant and is reached along the preorder, whether
it returns or throws. What was established in an earlier state is carried over by the preorder.
-/

namespace Exec

variable {ε σ α β : Type}

/-- An invariant and a preorder of states. -/
structure Guarantee (σ : Type) where
  inv : σ → Prop
  le : σ → σ → Prop
  refl : ∀ s, le s s
  trans : ∀ {a b c}, le a b → le b c → le a c

namespace Guarantee

variable {G : Guarantee σ} {s : σ}

/-- The computation `x` from the state `s` ends under the guarantee, and `Q` holds when it
returns. -/
structure Run (G : Guarantee σ) (s : σ) (x : EStateM ε σ α) (Q : α → σ → Prop) : Prop where
  inv : G.inv (state (x s))
  le : G.le s (state (x s))
  post : ∀ a s', x s = .ok a s' → Q a s'

variable {Q : α → σ → Prop}

theorem Run.of_eq_ok {x : EStateM ε σ α} {a : α} {s' : σ} (h : x s = .ok a s') (hinv : G.inv s')
    (hle : G.le s s') (hQ : Q a s') : G.Run s x Q := by
  refine ⟨by rwa [h], by rwa [h], fun b s'' hb => ?_⟩
  rw [h] at hb
  cases hb
  exact hQ

theorem Run.of_eq_error {x : EStateM ε σ α} {e : ε} {s' : σ} (h : x s = .error e s')
    (hinv : G.inv s') (hle : G.le s s') : G.Run s x Q := by
  refine ⟨by rwa [h], by rwa [h], fun b s'' hb => ?_⟩
  rw [h] at hb
  cases hb

theorem Run.of_error {x : EStateM ε σ α} {e : ε} {s' : σ} (hx : G.Run s x Q)
    (h : x s = .error e s') :
    G.inv s' ∧ G.le s s' := by
  have hinv := hx.inv
  have hle := hx.le
  rw [h] at hinv hle
  exact ⟨hinv, hle⟩

theorem Run.pure {a : α} (hinv : G.inv s) (hQ : Q a s) :
    G.Run s (pure a : EStateM ε σ α) Q :=
  .of_eq_ok rfl hinv (G.refl s) hQ

/-- A sequence runs under the guarantee when its second part does from where the first returned. -/
theorem Run.bind {x : EStateM ε σ α} {f : α → EStateM ε σ β} {R : β → σ → Prop} (hx : G.Run s x Q)
    (hf : ∀ a s', G.inv s' → G.le s s' → Q a s' → G.Run s' (f a) R) : G.Run s (x >>= f) R := by
  obtain ⟨hinv, hle, hpost⟩ := hx
  cases hrun : x s with
  | error e s' =>
    rw [hrun] at hinv hle
    exact .of_eq_error (bind_of_error hrun) hinv hle
  | ok a s' =>
    rw [hrun] at hinv hle
    have hrest := hf a s' hinv hle (hpost a s' hrun)
    have heq : (x >>= f) s = f a s' := bind_of_ok hrun
    exact ⟨heq ▸ hrest.inv, heq ▸ G.trans hle hrest.le, fun b s'' h => hrest.post b s'' (heq ▸ h)⟩

theorem Run.discard {x : EStateM ε σ α} (h : G.Run s x Q) :
    G.Run s (discard x : EStateM ε σ PUnit) fun _ _ => True := by
  have hstate : state ((Functor.discard x : EStateM ε σ PUnit) s) = state (x s) := by
    change state (EStateM.map _ x s) = _
    rw [EStateM.map]
    cases x s <;> rfl
  exact ⟨hstate ▸ h.inv, hstate ▸ h.le, fun _ _ _ => trivial⟩

theorem Run.get_bind {f : σ → EStateM ε σ β} {R : β → σ → Prop} (h : G.Run s (f s) R) :
    G.Run s (EStateM.get >>= f) R :=
  ⟨h.inv, h.le, h.post⟩

theorem Run.ofExcept_bind {x : Except ε α} {f : α → EStateM ε σ β} {R : β → σ → Prop}
    (hinv : G.inv s) (h : ∀ a, x = .ok a → G.Run s (f a) R) :
    G.Run s (Exec.ofExcept x >>= f) R := by
  cases x with
  | ok a => exact ⟨(h a rfl).inv, (h a rfl).le, (h a rfl).post⟩
  | error e => exact .of_eq_error rfl hinv (G.refl s)

theorem Run.ite {c : Prop} [Decidable c] {x y : EStateM ε σ α} (hx : c → G.Run s x Q)
    (hy : ¬ c → G.Run s y Q) : G.Run s (if c then x else y) Q := by
  split_ifs with h
  · exact hx h
  · exact hy h

theorem Run.forM {f : α → EStateM ε σ PUnit} {R : σ → Prop} {l : List α}
    (hf : ∀ a ∈ l, ∀ s', G.inv s' → G.le s s' → R s' → G.Run s' (f a) fun _ => R)
    (hinv : G.inv s) (hR : R s) : G.Run s (forM l f) fun _ => R := by
  induction l generalizing s with
  | nil => exact .pure hinv hR
  | cons a l ih =>
    rw [List.forM_cons]
    refine (hf a List.mem_cons_self s hinv (G.refl s) hR).bind fun _ s' hinv' hle hR' => ?_
    exact ih (fun a ha s'' hinv'' hle' => hf a (List.mem_cons_of_mem _ ha) s'' hinv''
      (G.trans hle hle')) hinv' hR'

end Guarantee

end Exec
