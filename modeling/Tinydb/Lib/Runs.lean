import Mathlib.Data.List.Basic

/-! Runs of a transition system.

A run is the list of the events of its steps. What every step keeps holds in every state
that a run reaches.
-/

namespace Tinydb.Lib

variable {σ ε : Type} {step : σ → ε → σ → Prop} {first s : σ} {events : List ε}

/-- The events from the first state to the last. -/
inductive Runs (step : σ → ε → σ → Prop) (first : σ) : List ε → σ → Prop
  | start : Runs step first [] first
  | next {events : List ε} {event : ε} {s s' : σ} (before : Runs step first events s) (here : step s event s') :
      Runs step first (events ++ [event]) s'

theorem Runs.invariant {I : List ε → σ → Prop} (start : I [] first)
    (keeps : ∀ events s event s', I events s → step s event s' → I (events ++ [event]) s')
    (runs : Runs step first events s) : I events s := by
  induction runs with
  | start => exact start
  | next _ here ih => exact keeps _ _ _ _ ih here

theorem Runs.mono {step' : σ → ε → σ → Prop} (runs : Runs step first events s)
    (weaker : ∀ event ∈ events, ∀ s s', step s event s' → step' s event s') : Runs step' first events s := by
  induction runs with
  | start => exact .start
  | next _ here ih =>
    refine .next (ih fun event member => weaker event (List.mem_append_left _ member)) ?_
    exact weaker _ (List.mem_append_right _ (List.mem_singleton.mpr rfl)) _ _ here

end Tinydb.Lib
