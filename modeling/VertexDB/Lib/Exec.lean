import Mathlib.Data.List.Basic
import Mathlib.Tactic.Common

/-!
# Computations that keep their state when they fail

`EStateM ε σ` models code that changes a state and may throw: an error carries the state at the
throw. This file evaluates such computations and runs one on a component of a larger state.
-/

namespace Exec

open List

universe u

variable {ε σ τ α β : Type}

variable {x : EStateM ε σ α} {f : α → EStateM ε σ β} {s' : σ}

theorem mapM_eq_some {f : α → Option β} {l : List α} {l' : List β} :
    l.mapM f = some l' ↔ l.map f = l'.map some := by
  induction l generalizing l' with
  | nil => cases l' <;> simp
  | cons a l ih =>
    rw [mapM_cons]
    cases l' with
    | nil => simp [Option.bind_eq_some_iff]
    | cons b l' => simp [Option.bind_eq_some_iff, ih]

section Except

variable {ε : Type*} {α β : Type u}

@[simp] theorem except_ok_bind (a : α) (f : α → Except ε β) : (Except.ok a >>= f) = f a := rfl

@[simp] theorem except_error_bind (e : ε) (f : α → Except ε β) :
    (Except.error e >>= f) = .error e := rfl

@[simp] theorem except_throw (e : ε) : (throw e : Except ε α) = .error e := rfl

end Except

theorem except_bind_eq_ok {x : Except ε α} {f : α → Except ε β} {b : β} :
    (x >>= f) = .ok b ↔ ∃ a, x = .ok a ∧ f a = .ok b := by
  cases x <;> simp

theorem forM_except_eq_ok {f : α → Except ε PUnit} {l : List α} :
    l.forM f = .ok ⟨⟩ ↔ ∀ a ∈ l, f a = .ok ⟨⟩ := by
  induction l with
  | nil => simp [List.forM, pure, Except.pure]
  | cons a l ih =>
    rw [List.forM, forall_mem_cons, ← ih]
    cases f a <;> simp

theorem map_of_mapM_eq_ok {γ : Type} {f : α → Except ε β} {g : β → γ} {g' : α → γ}
    (hf : ∀ a b, f a = .ok b → g b = g' a) {l : List α} {l' : List β} (h : l.mapM f = .ok l') :
    l'.map g = l.map g' := by
  induction l generalizing l' with
  | nil => exact (Except.ok.inj h) ▸ rfl
  | cons a l ih =>
    rw [mapM_cons] at h
    obtain ⟨b, hb, h⟩ := except_bind_eq_ok.mp h
    obtain ⟨bs, hbs, h⟩ := except_bind_eq_ok.mp h
    obtain rfl := Except.ok.inj h
    rw [map_cons, map_cons, hf a b hb, ih hbs]

section Evaluation

@[simp] theorem pure_apply (a : α) (s : σ) : (pure a : EStateM ε σ α) s = .ok a s := rfl

@[simp] theorem throw_apply (e : ε) (s : σ) : (throw e : EStateM ε σ α) s = .error e s := rfl

@[simp] theorem get_apply (s : σ) : (EStateM.get : EStateM ε σ σ) s = .ok s s := rfl

@[simp] theorem set_apply (s s' : σ) : (EStateM.set s' : EStateM ε σ PUnit) s = .ok ⟨⟩ s' := rfl

@[simp] theorem modify_apply (f : σ → σ) (s : σ) :
    (modify f : EStateM ε σ PUnit) s = .ok ⟨⟩ (f s) := rfl

theorem bind_apply (x : EStateM ε σ α) (f : α → EStateM ε σ β) (s : σ) :
    (x >>= f) s = match x s with
      | .ok a s' => f a s'
      | .error e s' => .error e s' := rfl

theorem bind_of_ok {s : σ} {a : α} (h : x s = .ok a s') : (x >>= f) s = f a s' := by
  rw [bind_apply, h]

theorem bind_of_error {s : σ} {e : ε} (h : x s = .error e s') : (x >>= f) s = .error e s' := by
  rw [bind_apply, h]

theorem bind_congr_run {y : EStateM ε σ α} {s : σ} (h : x s = y s) :
    (x >>= f) s = (y >>= f) s := by
  rw [bind_apply, bind_apply, h]

@[simp] theorem get_bind (f : σ → EStateM ε σ β) (s : σ) : (EStateM.get >>= f) s = f s s := rfl

@[simp] theorem set_bind (f : PUnit → EStateM ε σ β) (s s' : σ) :
    (EStateM.set s' >>= f) s = f ⟨⟩ s' := rfl

@[simp] theorem modify_bind (g : σ → σ) (f : PUnit → EStateM ε σ β) (s : σ) :
    (modify g >>= f) s = f ⟨⟩ (g s) := rfl

@[simp] theorem throw_bind (e : ε) (f : α → EStateM ε σ β) (s : σ) :
    ((throw e : EStateM ε σ α) >>= f) s = .error e s := rfl

@[simp] theorem pure_bind_apply (a : α) (f : α → EStateM ε σ β) (s : σ) :
    ((pure a : EStateM ε σ α) >>= f) s = f a s := rfl

@[simp] theorem ite_run (c : Prop) [Decidable c] (x y : EStateM ε σ α) (s : σ) :
    (if c then x else y) s = if c then x s else y s := by
  split_ifs <;> rfl

@[simp] theorem forM_nil_run (f : α → EStateM ε σ PUnit) (s : σ) :
    (forM ([] : List α) f : EStateM ε σ PUnit) s = .ok ⟨⟩ s := rfl

@[simp] theorem forM_cons_run (f : α → EStateM ε σ PUnit) (a : α) (as : List α) (s : σ) :
    (forM (a :: as) f : EStateM ε σ PUnit) s = (f a >>= fun _ => forM as f) s := rfl

theorem forM_unchanged {ε σ α : Type} {f : α → EStateM ε σ PUnit} {l : List α} {s : σ}
    (h : ∀ a ∈ l, f a s = .ok ⟨⟩ s) : l.forM f s = .ok ⟨⟩ s := by
  induction l with
  | nil => rfl
  | cons a l ih =>
    obtain ⟨ha, hl⟩ := forall_mem_cons.mp h
    rw [List.forM, bind_of_ok ha, ih hl]

theorem forM_append_run (f : α → EStateM ε σ PUnit) (as bs : List α) (s : σ) :
    (forM (as ++ bs) f : EStateM ε σ PUnit) s = (forM as f >>= fun _ => forM bs f) s := by
  induction as generalizing s with
  | nil => rfl
  | cons a as ih =>
    rw [cons_append, forM_cons_run, bind_apply, bind_apply, forM_cons_run, bind_apply]
    cases f a s with
    | ok _ s' => exact ih s'
    | error e s' => rfl

theorem bind_eq_ok {s s'' : σ} {b : β} :
    (x >>= f) s = .ok b s'' ↔ ∃ a s', x s = .ok a s' ∧ f a s' = .ok b s'' := by
  rw [bind_apply]
  cases h : x s with
  | ok a s' => simp
  | error e s' => simp

theorem discard_eq_ok {s : σ} {u : PUnit} :
    (discard x : EStateM ε σ PUnit) s = .ok u s' ↔ ∃ a, x s = .ok a s' := by
  change EStateM.map _ x s = _ ↔ _
  cases hx : x s <;> simp [EStateM.map, hx]

theorem ite_error_eq_ok {c : Prop} [Decidable c] {e : ε} {s : σ}
    {r : EStateM.Result ε σ α} {a : α} :
    (if c then .error e s else r) = .ok a s' ↔ ¬c ∧ r = .ok a s' := by
  split_ifs with h <;> simp [h]

theorem forM_ok_induction {P : σ → Prop} {f : α → EStateM ε σ PUnit} {l : List α}
    (hf : ∀ a ∈ l, ∀ s u s', P s → f a s = .ok u s' → P s') {s : σ} {u : PUnit} (hs : P s)
    (h : (forM l f : EStateM ε σ PUnit) s = .ok u s') : P s' := by
  induction l generalizing s with
  | nil =>
    rw [forM_nil_run, EStateM.Result.ok.injEq] at h
    exact h.2 ▸ hs
  | cons a l ih =>
    rw [forM_cons_run, bind_eq_ok] at h
    obtain ⟨v, s₁, hstep, hrest⟩ := h
    exact ih (fun b hb => hf b (mem_cons_of_mem a hb)) (hf a mem_cons_self s v s₁ hs hstep) hrest

end Evaluation

/-- The state after a computation, whatever its outcome. -/
def state : EStateM.Result ε σ α → σ
  | .ok _ s => s
  | .error _ s => s

@[simp] theorem state_ok (a : α) (s : σ) : state (.ok a s : EStateM.Result ε σ α) = s := rfl

@[simp] theorem state_error (e : ε) (s : σ) : state (.error e s : EStateM.Result ε σ α) = s := rfl

/-- A pure fallible value as a computation that does not change the state. -/
def ofExcept (x : Except ε α) : EStateM ε σ α := fun s =>
  match x with
  | .ok a => .ok a s
  | .error e => .error e s

@[simp] theorem ofExcept_ok (a : α) (s : σ) :
    (ofExcept (.ok a) : EStateM ε σ α) s = .ok a s := rfl

@[simp] theorem ofExcept_error (e : ε) (s : σ) :
    (ofExcept (.error e) : EStateM ε σ α) s = .error e s := rfl

@[simp] theorem ofExcept_ok_bind (a : α) (f : α → EStateM ε σ β) (s : σ) :
    (ofExcept (.ok a) >>= f) s = f a s := rfl

@[simp] theorem ofExcept_error_bind (e : ε) (f : α → EStateM ε σ β) (s : σ) :
    (ofExcept (.error e) >>= f) s = .error e s := rfl

theorem ofExcept_eq_ok {x : Except ε α} {a : α} {s : σ} :
    (ofExcept x : EStateM ε σ α) s = .ok a s' ↔ x = .ok a ∧ s' = s := by
  cases x <;> simp [eq_comm]

theorem ofExcept_bind_eq_ok {x : Except ε α} {b : β} {s : σ} :
    (ofExcept x >>= f) s = .ok b s' ↔ ∃ a, x = .ok a ∧ f a s = .ok b s' := by
  cases x <;> simp

/-- Run a computation on a component of the state. -/
def zoom (view : σ → τ) (update : τ → σ → σ) (x : EStateM ε τ α) : EStateM ε σ α := fun s =>
  match x (view s) with
  | .ok a t => .ok a (update t s)
  | .error e t => .error e (update t s)

variable {update : τ → σ → σ}

theorem zoom_of_ok {view : σ → τ} {x : EStateM ε τ α} {s : σ} {a : α} {t : τ}
    (h : x (view s) = .ok a t) :
    zoom view update x s = .ok a (update t s) := by
  rw [zoom, h]

theorem zoom_of_error {view : σ → τ} {x : EStateM ε τ α} {s : σ} {e : ε} {t : τ}
    (h : x (view s) = .error e t) : zoom view update x s = .error e (update t s) := by
  rw [zoom, h]

theorem zoom_eq_ok {view : σ → τ} {x : EStateM ε τ α} {s : σ} {a : α} :
    zoom view update x s = .ok a s' ↔ ∃ t, x (view s) = .ok a t ∧ s' = update t s := by
  rw [zoom]
  cases h : x (view s) with
  | ok b t => simp [eq_comm, and_comm]
  | error e t => simp

theorem zoom_eq_error {view : σ → τ} {x : EStateM ε τ α} {s : σ} {e : ε} :
    zoom view update x s = .error e s' ↔ ∃ t, x (view s) = .error e t ∧ s' = update t s := by
  rw [zoom]
  cases h : x (view s) with
  | ok b t => simp
  | error e t => simp [eq_comm, and_comm]

section Returns

/-- The computation returns, with a result and a state that have the property. -/
def Returns (x : EStateM ε σ α) (s : σ) (p : α → σ → Prop) : Prop := ∃ a s', x s = .ok a s' ∧ p a s'

instance (x : EStateM ε σ α) (s : σ) (p : α → σ → Prop) [∀ a s', Decidable (p a s')] :
    Decidable (Returns x s p) :=
  match h : x s with
  | .ok a s' => decidable_of_iff (p a s') (by simp [Returns, h])
  | .error e s' => isFalse (by simp [Returns, h])

theorem Returns.and {s : σ} {p q : α → σ → Prop} (hp : Returns x s p) (hq : Returns x s q) :
    Returns x s fun a s' => p a s' ∧ q a s' := by
  obtain ⟨a, s', hx, hp⟩ := hp
  obtain ⟨b, s'', hx', hq⟩ := hq
  obtain ⟨rfl, rfl⟩ := EStateM.Result.ok.inj (hx.symm.trans hx')
  exact ⟨a, s', hx, hp, hq⟩

/-- The computation throws, in a state that has the property. -/
def Throws (x : EStateM ε σ α) (s : σ) (p : ε → σ → Prop) : Prop :=
  ∃ e s', x s = .error e s' ∧ p e s'

instance (x : EStateM ε σ α) (s : σ) (p : ε → σ → Prop) [∀ e s', Decidable (p e s')] :
    Decidable (Throws x s p) :=
  match h : x s with
  | .ok a s' => isFalse (by simp [Throws, h])
  | .error e s' => decidable_of_iff (p e s') (by simp [Throws, h])

end Returns

end Exec
