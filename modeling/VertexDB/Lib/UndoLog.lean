/-!
# Undo logs

A system that can undo its changes keeps a record of each, the latest first. The record of a change
from a state `a` to a state `b` is applied when the system stands again where it stood in `b`: not
necessarily in `b` itself, but in a state that `b` is restored to. What follows says what such a log
is worth in a state, and how the changes and the undoing of the latest one keep it.
-/

namespace UndoLog

variable {S R : Type} {Changed : S → R → S → Prop} {Restores : S → S → Prop} {log : List R}

/-- The latest record of the log belongs to a change from some `a` to some `b` that is restored to
`s`, and the rest of the log undoes `a`. -/
inductive Undoes (Changed : S → R → S → Prop) (Restores : S → S → Prop) : S → List R → Prop
  | nil (s : S) : Undoes Changed Restores s []
  | cons {a b s : S} {r : R} {log : List R} (hchange : Changed a r b) (hrestores : Restores b s)
      (hlog : Undoes Changed Restores a log) : Undoes Changed Restores s (r :: log)

theorem Undoes.push {a b : S} {r : R} (h : Undoes Changed Restores a log)
    (hrefl : ∀ s, Restores s s) (hchange : Changed a r b) :
    Undoes Changed Restores b (r :: log) :=
  .cons hchange (hrefl b) h

/-- The log is worth the same where the state is restored to. -/
theorem Undoes.restores {s s' : S} (h : Undoes Changed Restores s log)
    (htrans : ∀ a b c, Restores a b → Restores b c → Restores a c) (hs : Restores s s') :
    Undoes Changed Restores s' log := by
  cases h with
  | nil => exact .nil s'
  | cons hchange hrestores hlog => exact .cons hchange (htrans _ _ _ hrestores hs) hlog

/-- The latest record is applied where the state after its change is restored. Once the state before
it is restored as well, the rest of the log remains. -/
theorem Undoes.pop {s s' : S} {r : R} (h : Undoes Changed Restores s (r :: log))
    (htrans : ∀ a b c, Restores a b → Restores b c → Restores a c) :
    ∃ a b, Changed a r b ∧ Restores b s ∧ (Restores a s' → Undoes Changed Restores s' log) := by
  cases h with
  | cons hchange hrestores hlog =>
    exact ⟨_, _, hchange, hrestores, fun hback => hlog.restores htrans hback⟩

end UndoLog
