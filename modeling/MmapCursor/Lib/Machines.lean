import Mathlib.Data.List.Forall2

/-!
# Runs of a machine that may fault

A machine is a step function `σ → ι → Except ε (ο × σ)`: in a state it takes an input, and either
faults or returns an output and the next state.  `run` feeds it a list of inputs and records every
transition.

* `run_total` — the invariant rule: a step that always returns, keeps `I` and satisfies `T` makes
  every run return, keep `I` and satisfy `T` at every transition;
* `run_simulation` — the lockstep rule for two machines;
* `run_telescope` — what each transition takes off a list-valued view of the state, concatenated
  over a run, is what the run takes off it.
-/

set_option autoImplicit false

namespace Machines

/-- One step of a run. -/
structure Transition (σ ι ο : Type) where
  before : σ
  input : ι
  output : ο
  after : σ

variable {ε ε' σ τ ι κ ο υ α : Type}

/-- Feed the inputs in order: every transition, and the state at the end. -/
def run (step : σ → ι → Except ε (ο × σ)) :
    σ → List ι → Except ε (List (Transition σ ι ο) × σ)
  | s, [] => .ok ([], s)
  | s, i :: is =>
    match step s i with
    | .error e => .error e
    | .ok (o, s') =>
      match run step s' is with
      | .error e => .error e
      | .ok (ts, s'') => .ok (⟨s, i, o, s'⟩ :: ts, s'')

variable {step : σ → ι → Except ε (ο × σ)}

theorem run_cons {s s' s'' : σ} {i : ι} {o : ο} {is : List ι} {ts : List (Transition σ ι ο)}
    (h : step s i = .ok (o, s')) (hr : run step s' is = .ok (ts, s'')) :
    run step s (i :: is) = .ok (⟨s, i, o, s'⟩ :: ts, s'') := by
  rw [run, h]; simp only [hr]

theorem run_cons_ok {s s'' : σ} {i : ι} {is : List ι} {ts : List (Transition σ ι ο)}
    (h : run step s (i :: is) = .ok (ts, s'')) :
    ∃ o s' ts', step s i = .ok (o, s') ∧ run step s' is = .ok (ts', s'') ∧
      ts = ⟨s, i, o, s'⟩ :: ts' := by
  rw [run] at h
  split at h
  · cases h
  · rename_i o s' hs
    split at h
    · cases h
    · rename_i ts' s₂ hr
      simp only [Except.ok.injEq, Prod.mk.injEq] at h
      obtain ⟨rfl, rfl⟩ := h
      exact ⟨o, s', ts', hs, hr, rfl⟩

/-- **Invariant rule.**  `P` restricts the inputs, `T` is what every transition satisfies. -/
theorem run_total (step : σ → ι → Except ε (ο × σ)) (I : σ → Prop) (P : ι → Prop)
    (T : Transition σ ι ο → Prop)
    (hstep : ∀ s i, I s → P i → ∃ o s', step s i = .ok (o, s') ∧ I s' ∧ T ⟨s, i, o, s'⟩) :
    ∀ (is : List ι) (s : σ), I s → (∀ i ∈ is, P i) →
      ∃ ts s', run step s is = .ok (ts, s') ∧ I s' ∧ ∀ t ∈ ts, T t := by
  intro is
  induction is with
  | nil => intro s hI _; exact ⟨[], s, rfl, hI, fun _ h => by cases h⟩
  | cons i is ih =>
    intro s hI hP
    obtain ⟨o, s', hs, hI', hT⟩ := hstep s i hI (hP i List.mem_cons_self)
    obtain ⟨ts, s'', hr, hI'', hTs⟩ := ih s' hI' fun j hj => hP j (List.mem_cons_of_mem _ hj)
    refine ⟨⟨s, i, o, s'⟩ :: ts, s'', run_cons hs hr, hI'', ?_⟩
    intro t ht
    rcases List.mem_cons.mp ht with rfl | ht
    · exact hT
    · exact hTs t ht

/-- **Lockstep simulation.**  `J` relates the inputs, `O` the transitions taken together. -/
theorem run_simulation (step₁ : σ → ι → Except ε (ο × σ)) (step₂ : τ → κ → Except ε' (υ × τ))
    (R : σ → τ → Prop) (J : ι → κ → Prop)
    (O : Transition σ ι ο → Transition τ κ υ → Prop)
    (hstep : ∀ s t i j, R s t → J i j → ∃ o s' p t', step₁ s i = .ok (o, s') ∧
      step₂ t j = .ok (p, t') ∧ R s' t' ∧ O ⟨s, i, o, s'⟩ ⟨t, j, p, t'⟩) :
    ∀ {is : List ι} {js : List κ}, List.Forall₂ J is js → ∀ {s : σ} {t : τ}, R s t →
      ∃ ts s' us t', run step₁ s is = .ok (ts, s') ∧ run step₂ t js = .ok (us, t') ∧
        R s' t' ∧ List.Forall₂ O ts us := by
  intro is js hJ
  induction hJ with
  | nil => intro s t hR; exact ⟨[], s, [], t, rfl, rfl, hR, .nil⟩
  | cons hij _ ih =>
    intro s t hR
    obtain ⟨o, s', p, t', h₁, h₂, hR', hO⟩ := hstep s t _ _ hR hij
    obtain ⟨ts, s'', us, t'', hr₁, hr₂, hR'', hOs⟩ := ih hR'
    exact ⟨_, s'', _, t'', run_cons h₁ hr₁, run_cons h₂ hr₂, hR'', .cons hO hOs⟩

/-- **Telescoping.**  If every transition takes a chunk off the front of the view, the chunks of a
run, in order, are what the run took off it. -/
theorem run_telescope (view : σ → List α) (chunk : Transition σ ι ο → List α) :
    ∀ {is : List ι} {s s' : σ} {ts : List (Transition σ ι ο)}, run step s is = .ok (ts, s') →
      (∀ t ∈ ts, view t.before = chunk t ++ view t.after) →
      view s = (ts.map chunk).flatten ++ view s'
  | [], s, s', ts, h, _ => by
    simp only [run, Except.ok.injEq, Prod.mk.injEq] at h
    obtain ⟨rfl, rfl⟩ := h
    rfl
  | i :: is, s, s', ts, h, hc => by
    obtain ⟨o, s₁, ts', _, hr, rfl⟩ := run_cons_ok h
    have hrec := run_telescope view chunk hr fun t ht => hc t (List.mem_cons_of_mem _ ht)
    have hhd : view s = chunk ⟨s, i, o, s₁⟩ ++ view s₁ := hc _ List.mem_cons_self
    rw [hhd, hrec, List.map_cons, List.flatten_cons, List.append_assoc]

end Machines
