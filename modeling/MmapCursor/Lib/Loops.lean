import Mathlib.Data.Nat.Basic

/-!
# Loops over a state that may fault

`loop stuck body fuel s` repeats `body` from the state `s`: each round faults, goes on with a new
state (`ForInStep.yield`, also for `continue`), or leaves the loop (`ForInStep.done`: a test that
failed, or `break`).  A run that spends its fuel faults with `stuck`, so that a loop which does
not terminate is never taken for one that returns.

* `loop_total` — the total-correctness rule: an invariant, a measure that every further round
  lowers, and a postcondition that every exit establishes;
* `mapM_ok`, `findSomeM?_ok`, `findSome?_range` — a `for` whose rounds do not fault, over a list,
  and over the numbers below `n`, where it returns from its first round with a value.
-/

set_option autoImplicit false

namespace Loops

variable {ε σ : Type}

/-- Repeat `body` until it is done. -/
def loop (stuck : ε) (body : σ → Except ε (ForInStep σ)) : Nat → σ → Except ε σ
  | 0, _ => .error stuck
  | fuel + 1, s =>
    match body s with
    | .error e => .error e
    | .ok (.done s') => .ok s'
    | .ok (.yield s') => loop stuck body fuel s'

variable {stuck : ε} {body : σ → Except ε (ForInStep σ)}

theorem loop_done {s s' : σ} (h : body s = .ok (.done s')) (fuel : Nat) :
    loop stuck body (fuel + 1) s = .ok s' := by
  rw [loop, h]

theorem loop_yield {s s' : σ} (h : body s = .ok (.yield s')) (fuel : Nat) :
    loop stuck body (fuel + 1) s = loop stuck body fuel s' := by
  rw [loop, h]

/-- **Total correctness of a loop.**  With more fuel than the measure of the first state, the loop
returns, and what it returns satisfies the postcondition. -/
theorem loop_total (stuck : ε) (body : σ → Except ε (ForInStep σ)) (I : σ → Prop) (μ : σ → Nat)
    (Q : σ → Prop)
    (hbody : ∀ s, I s → (∃ s', body s = .ok (.done s') ∧ Q s') ∨
      ∃ s', body s = .ok (.yield s') ∧ I s' ∧ μ s' < μ s) :
    ∀ (fuel : Nat) (s : σ), I s → μ s < fuel → ∃ s', loop stuck body fuel s = .ok s' ∧ Q s' := by
  intro fuel
  induction fuel with
  | zero => intro s _ h; omega
  | succ fuel ih =>
    intro s hI hμ
    rcases hbody s hI with ⟨s', hb, hQ⟩ | ⟨s', hb, hI', hlt⟩
    · exact ⟨s', loop_done hb fuel, hQ⟩
    · rw [loop_yield hb]
      exact ih s' hI' (by omega)

/-! ## Loops over a list -/

variable {α β : Type}

theorem mapM_ok {f : α → Except ε β} {g : α → β} {l : List α} (h : ∀ a ∈ l, f a = .ok (g a)) :
    l.mapM f = .ok (l.map g) := by
  induction l with
  | nil => rfl
  | cons a l ih =>
    rw [List.mapM_cons, h a List.mem_cons_self, ih fun b hb => h b (List.mem_cons_of_mem a hb)]
    rfl

theorem findSomeM?_ok {f : α → Except ε (Option β)} {g : α → Option β} {l : List α}
    (h : ∀ a ∈ l, f a = .ok (g a)) : l.findSomeM? f = .ok (l.findSome? g) := by
  induction l with
  | nil => rfl
  | cons a l ih =>
    rw [List.findSomeM?, h a List.mem_cons_self, List.findSome?_cons]
    cases g a with
    | none => exact ih fun b hb => h b (List.mem_cons_of_mem a hb)
    | some b => rfl

theorem findSome?_range {g : Nat → Option β} {n k : Nat} {b : β} (hk : k < n) (hb : g k = some b)
    (hnone : ∀ j < k, g j = none) : (List.range n).findSome? g = some b := by
  induction n with
  | zero => omega
  | succ n ih =>
    rw [List.range_succ, List.findSome?_append]
    rcases Nat.lt_or_ge k n with hlt | hge
    · rw [ih hlt]
      rfl
    · obtain rfl : k = n := by omega
      have hfirst : (List.range k).findSome? g = none := by
        rw [List.findSome?_eq_none_iff]
        intro j hj
        exact hnone j (List.mem_range.mp hj)
      rw [hfirst, Option.none_or, List.findSome?_singleton, hb]

end Loops
