/-
Labelled transition systems, and forward simulation between them.

* `System σ ℓ` - initial states and labelled steps; `Run labels state` - the labels on the way to a state.
* `Run.invariant` - what holds initially and is kept by every step holds of every run.
* `Simulates` - a relation that follows the steps of one system in the other, label by label; then every
  run of the first is followed by one of the second (`Simulates.run`), so its labels are a trace of it.
-/

import Mathlib.Data.List.Basic

/-- Where a system may start, and which labelled steps it may take. -/
structure System (σ ℓ : Type) where
  init : σ → Prop
  step : σ → ℓ → σ → Prop

namespace System

variable {σ τ ℓ : Type} {concrete : System σ ℓ} {abstract : System τ ℓ}

/-- The states a system gets to, with the labels of the steps in order. -/
inductive Run (system : System σ ℓ) : List ℓ → σ → Prop
  | start {state : σ} (init : system.init state) : Run system [] state
  | step {labels : List ℓ} {label : ℓ} {before after : σ} (run : Run system labels before)
      (step : system.step before label after) : Run system (labels ++ [label]) after

/-- The labels of some run. -/
def Trace (system : System σ ℓ) (labels : List ℓ) : Prop := ∃ state, system.Run labels state

/-- **Invariants**: what holds initially and is kept by each step holds wherever a run leads. -/
theorem Run.invariant {system : System σ ℓ} {P : List ℓ → σ → Prop}
    (init : ∀ state, system.init state → P [] state)
    (step : ∀ labels label before after, P labels before → system.step before label after →
      P (labels ++ [label]) after)
    {labels : List ℓ} {state : σ} (run : system.Run labels state) : P labels state := by
  induction run with
  | start starts => exact init _ starts
  | step _ stepped ih => exact step _ _ _ _ ih stepped

/-- **Forward simulation**: related states start together and step together, by the same labels. -/
structure Simulates (concrete : System σ ℓ) (abstract : System τ ℓ) (related : σ → τ → Prop) : Prop where
  init : ∀ state, concrete.init state → ∃ state', abstract.init state' ∧ related state state'
  step : ∀ before label after before', related before before' → concrete.step before label after →
    ∃ after', abstract.step before' label after' ∧ related after after'

/-- Every run is followed. -/
theorem Simulates.run {related : σ → τ → Prop} (simulates : Simulates concrete abstract related)
    {labels : List ℓ} {state : σ} (run : concrete.Run labels state) :
    ∃ state', abstract.Run labels state' ∧ related state state' := by
  refine run.invariant (P := fun labels state => ∃ state', abstract.Run labels state' ∧
    related state state') (fun state starts => ?_) fun labels label before after followed step => ?_
  · obtain ⟨state', starts', here⟩ := simulates.init state starts
    exact ⟨state', .start starts', here⟩
  · obtain ⟨before', run', here⟩ := followed
    obtain ⟨after', step', there⟩ := simulates.step before label after before' here step
    exact ⟨after', run'.step step', there⟩

end System
