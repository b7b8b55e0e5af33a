/-!
# Calls on a world

A program that makes calls to its surroundings: each call returns a value or fails, and may change
the world in any way.  Nothing is known of the world, so what holds for every world holds for every
combination of outcomes, and a call that is not made leaves the world as it was.

* `outcome` — the result of a program, and the world it leaves;
* `outcome_bind_ok`, `outcome_bind_error` — a program goes on with the value of its first call, and
  stops at the first one that fails;
* `outcome_adapt_ok`, `outcome_adapt_error` — with the errors of a call converted.
-/

set_option autoImplicit false

namespace Calls

variable {σ ε δ α β : Type}

/-- A call on the world `σ` that returns an `α` or fails with an `ε`. -/
abbrev Call (σ ε α : Type) := ExceptT ε (StateM σ) α

/-- What a call does in the world `s`. -/
def outcome (x : Call σ ε α) (s : σ) : Except ε α × σ := StateT.run (ExceptT.run x) s

@[simp] theorem outcome_pure (a : α) (s : σ) : outcome (pure a : Call σ ε α) s = (.ok a, s) := rfl

theorem outcome_bind (x : Call σ ε α) (k : α → Call σ ε β) (s : σ) :
    outcome (x >>= k) s =
      match outcome x s with
      | (.ok a, s') => outcome (k a) s'
      | (.error e, s') => (.error e, s') := by
  show StateT.run (ExceptT.run (x >>= k)) s = _
  rw [ExceptT.run_bind, StateT.run_bind]
  unfold outcome
  rcases h : StateT.run (ExceptT.run x) s with ⟨r, s'⟩
  cases r <;> rfl

theorem outcome_bind_ok {x : Call σ ε α} {s s' : σ} {a : α} (h : outcome x s = (.ok a, s'))
    (k : α → Call σ ε β) : outcome (x >>= k) s = outcome (k a) s' := by
  rw [outcome_bind, h]

theorem outcome_bind_error {x : Call σ ε α} {s s' : σ} {e : ε} (h : outcome x s = (.error e, s'))
    (k : α → Call σ ε β) : outcome (x >>= k) s = (.error e, s') := by
  rw [outcome_bind, h]

theorem outcome_adapt (f : ε → δ) (x : Call σ ε α) (s : σ) :
    outcome (ExceptT.adapt f x : Call σ δ α) s = ((outcome x s).1.mapError f, (outcome x s).2) := rfl

theorem outcome_adapt_ok (f : ε → δ) {x : Call σ ε α} {s s' : σ} {a : α}
    (h : outcome x s = (.ok a, s')) :
    outcome (ExceptT.adapt f x : Call σ δ α) s = (.ok a, s') := by
  rw [outcome_adapt, h]
  rfl

theorem outcome_adapt_error (f : ε → δ) {x : Call σ ε α} {s s' : σ} {e : ε}
    (h : outcome x s = (.error e, s')) :
    outcome (ExceptT.adapt f x : Call σ δ α) s = (.error (f e), s') := by
  rw [outcome_adapt, h]
  rfl

end Calls
