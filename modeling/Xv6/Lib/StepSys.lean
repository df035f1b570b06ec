/-!
# Transition systems given by a partial step function

A system is a state type `σ`, an event type `ε` and a partial step function `step : σ → ε → Option σ`:
`step s e = none` when the event `e` is not enabled in `s` (or the code stops there, by a panic or undefined
behaviour).  This file defines the reachable states from an initial state, the rule that proves an invariant of
every reachable state from the initial state and one step (`Reachable.induct_inv`), the rule that maps the runs of
one system to runs of another (`Reachable.simulate`), and `run`, which replays a
list of events; `reachable_of_run` turns a replayed trace into a reachability proof, so that a counterexample trace
is checked by evaluating `run`.
-/

namespace StepSys

variable {σ ε : Type} (step : σ → ε → Option σ) (init : σ)

/-- The states reachable from `init` by enabled steps. -/
inductive Reachable : σ → Prop where
  | init : Reachable init
  | step {s s' : σ} (e : ε) : Reachable s → step s e = some s' → Reachable s'

/-- Replay a list of events from a state; `none` as soon as one of them is not enabled. -/
def run : σ → List ε → Option σ
  | s, [] => some s
  | s, e :: es => (step s e).bind (run · es)

variable {step init}

@[simp] private theorem run_nil (s : σ) : run step s [] = some s := rfl

private theorem run_cons (s : σ) (e : ε) (es : List ε) : run step s (e :: es) = (step s e).bind (run step · es) := rfl

/-- An invariant of every reachable state: it holds initially and every enabled step keeps it. -/
theorem Reachable.induct_inv {inv : σ → Prop} (h₀ : inv init)
    (h₁ : ∀ s e s', inv s → step s e = some s' → inv s') {s : σ} (h : Reachable step init s) : inv s := by
  induction h with
  | init => exact h₀
  | step e _ hs ih => exact h₁ _ e _ ih hs

/-- A stuttering simulation: when every step into a good state is, under `f`, a step of another system or no
change, and comes from a good state, the image of a good reachable state is reachable in the other system. -/
theorem Reachable.simulate {σ' ε' : Type} {step' : σ' → ε' → Option σ'} {init' : σ'} (f : σ → σ')
    (good : σ → Prop) (h₀ : f init = init')
    (h₁ : ∀ s e s', step s e = some s' → good s' →
      good s ∧ (f s' = f s ∨ ∃ e', step' (f s) e' = some (f s')))
    {s : σ} (h : Reachable step init s) (hg : good s) : Reachable step' init' (f s) := by
  induction h with
  | init => exact h₀ ▸ Reachable.init
  | step e _ hs ih =>
    obtain ⟨hg₀, hf | ⟨e', he'⟩⟩ := h₁ _ e _ hs hg
    · rw [hf]
      exact ih hg₀
    · exact Reachable.step e' (ih hg₀) he'

/-- The end of a replayed trace from a reachable state is reachable. -/
theorem Reachable.run {s s' : σ} {es : List ε} (hs : Reachable step init s) (h : run step s es = some s') :
    Reachable step init s' := by
  induction es generalizing s with
  | nil => simp only [run_nil, Option.some.injEq] at h; exact h ▸ hs
  | cons e es ih =>
    rw [run_cons] at h
    cases he : step s e with
    | none => rw [he] at h; cases h
    | some s₁ =>
      rw [he] at h
      exact ih (Reachable.step e hs he) h

/-- A trace from `init` whose last state satisfies `p` gives a reachable state satisfying `p`: the form in which
a counterexample is checked, `p` and the trace being evaluated by the kernel. -/
theorem reachable_of_run (step : σ → ε → Option σ) (init : σ) (es : List ε) (p : σ → Bool)
    (h : (run step init es).map p = some true) :
    ∃ s, Reachable step init s ∧ p s = true := by
  cases hr : run step init es with
  | none => rw [hr] at h; cases h
  | some s =>
    rw [hr, Option.map_some, Option.some.injEq] at h
    exact ⟨s, Reachable.init.run hr, h⟩

end StepSys
