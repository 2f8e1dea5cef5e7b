import VertexDB.Lib.Exec

/-!
# Simulation of computations with state

Two computations on different states simulate each other along a relation when they end alike, with
related states, from related states. Sequences of operations that simulate each other one by one
have the same outcomes.
-/

namespace Exec

variable {ε σ τ α β ι : Type}

/-- How a computation ended. -/
def outcome : EStateM.Result ε σ α → Except ε α
  | .ok a _ => .ok a
  | .error e _ => .error e

@[simp] theorem outcome_ok (a : α) (s : σ) :
    outcome (.ok a s : EStateM.Result ε σ α) = .ok a := rfl

@[simp] theorem outcome_error (e : ε) (s : σ) :
    outcome (.error e s : EStateM.Result ε σ α) = .error e := rfl

theorem map_run (f : α → β) (x : EStateM ε σ α) (s : σ) :
    (f <$> x) s = match x s with
      | .ok a s' => .ok (f a) s'
      | .error e s' => .error e s' := rfl

@[simp] theorem outcome_map (f : α → β) (x : EStateM ε σ α) (s : σ) :
    outcome ((f <$> x) s) = (outcome (x s)).map f := by
  rw [map_run]
  cases x s <;> rfl

@[simp] theorem state_map (f : α → β) (x : EStateM ε σ α) (s : σ) :
    state ((f <$> x) s) = state (x s) := by
  rw [map_run]
  cases x s <;> rfl

theorem discard_of_ok {x : EStateM ε σ α} {s s' : σ} {a : α} (h : x s = .ok a s') :
    (discard x : EStateM ε σ PUnit) s = .ok PUnit.unit s' := by
  show ((fun _ => PUnit.unit) <$> x) s = _
  rw [map_run, h]

/-- From related states both computations end alike, in related states. -/
def Simulates (R : σ → τ → Prop) (x : EStateM ε σ α) (y : EStateM ε τ α) : Prop :=
  ∀ ⦃s t⦄, R s t → outcome (x s) = outcome (y t) ∧ R (state (x s)) (state (y t))

/-- The outcomes of a sequence of operations; an operation that throws leaves its state to the
next. -/
def trace (perform : ι → EStateM ε σ α) : List ι → σ → List (Except ε α)
  | [], _ => []
  | op :: ops, s => outcome (perform op s) :: trace perform ops (state (perform op s))

section Rules

variable {R : σ → τ → Prop} {x : EStateM ε σ α} {y : EStateM ε τ α}

theorem simulates_pure (a : α) : Simulates R (pure a : EStateM ε σ α) (pure a : EStateM ε τ α) :=
  fun _ _ h => ⟨rfl, h⟩

theorem simulates_modify {f : σ → σ} {g : τ → τ} (h : ∀ s t, R s t → R (f s) (g t)) :
    Simulates R (modify f : EStateM ε σ PUnit) (modify g : EStateM ε τ PUnit) :=
  fun s t hst => ⟨rfl, h s t hst⟩

theorem Simulates.bind (hxy : Simulates R x y) {f : α → EStateM ε σ β} {g : α → EStateM ε τ β}
    (hfg : ∀ a, Simulates R (f a) (g a)) : Simulates R (x >>= f) (y >>= g) := by
  intro s t h
  obtain ⟨hout, hstate⟩ := hxy h
  rw [bind_apply, bind_apply]
  cases hx : x s with
  | ok a s' =>
    cases hy : y t with
    | ok b t' =>
      rw [hx, hy] at hout hstate
      cases hout
      exact hfg a hstate
    | error e t' =>
      rw [hx, hy] at hout
      cases hout
  | error e s' =>
    cases hy : y t with
    | ok b t' =>
      rw [hx, hy] at hout
      cases hout
    | error e' t' =>
      rw [hx, hy] at hout hstate
      cases hout
      exact ⟨rfl, hstate⟩

theorem Simulates.map (hxy : Simulates R x y) (f : α → β) : Simulates R (f <$> x) (f <$> y) := by
  intro s t h
  obtain ⟨hout, hstate⟩ := hxy h
  rw [outcome_map, outcome_map, state_map, state_map, hout]
  exact ⟨rfl, hstate⟩

theorem simulates_forM {f : ι → EStateM ε σ PUnit} {g : ι → EStateM ε τ PUnit} {items : List ι}
    (h : ∀ i ∈ items, Simulates R (f i) (g i)) :
    Simulates R (forM items f : EStateM ε σ PUnit) (forM items g : EStateM ε τ PUnit) := by
  induction items with
  | nil => exact simulates_pure PUnit.unit
  | cons i items ih =>
    exact (h i List.mem_cons_self).bind fun _ => ih fun j hj => h j (List.mem_cons_of_mem i hj)

/-- Operations that simulate each other one by one have the same outcomes in every sequence. -/
theorem trace_eq_of_simulates {p : ι → EStateM ε σ α} {q : ι → EStateM ε τ α} {ops : List ι}
    (h : ∀ op ∈ ops, Simulates R (p op) (q op)) {s : σ} {t : τ} (hst : R s t) :
    trace p ops s = trace q ops t := by
  induction ops generalizing s t with
  | nil => rfl
  | cons op ops ih =>
    obtain ⟨hout, hstate⟩ := h op List.mem_cons_self hst
    rw [trace, trace, hout, ih (fun op' hop => h op' (List.mem_cons_of_mem op hop)) hstate]

end Rules

end Exec
