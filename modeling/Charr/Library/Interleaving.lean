import Mathlib.Data.List.Basic

/-!
# Interleaved execution of components

A system is a step function for each of its components over one common state.
A run is the fold of those steps over a schedule, that is, a list naming which
component moves next. A component that has halted may still be scheduled; its
step then changes nothing.
-/

namespace Interleaving

variable {Index State : Type*}

/-- The state reached when the components move in the order of `schedule`. -/
def run (step : Index → State → State) (schedule : List Index) (state : State) : State :=
  schedule.foldl (fun current index => step index current) state

section

variable {step : Index → State → State}

@[simp] theorem run_nil (state : State) : run step [] state = state := rfl

@[simp] theorem run_cons (index : Index) (rest : List Index) (state : State) :
    run step (index :: rest) state = run step rest (step index state) := rfl

/-- A predicate that every component's step preserves holds along every run. -/
theorem run_invariant {invariant : State → Prop}
    (hstep : ∀ index state, invariant state → invariant (step index state))
    (schedule : List Index) {state : State} (hstate : invariant state) :
    invariant (run step schedule state) := by
  induction schedule generalizing state with
  | nil => exact hstate
  | cons index rest ih => exact ih (hstep index state hstate)

end

/-- Every step of a component that has not halted uses up some weight, and a
halted component stays halted. -/
structure Halting (step : Index → State → State) (invariant : State → Prop)
    (halted : Index → State → Prop) (weight : State → Nat) : Prop where
  preserves : ∀ index state, invariant state → invariant (step index state)
  stays : ∀ index other state, halted index state → halted index (step other state)
  bounded : ∀ index state, invariant state → weight (step index state) ≤ weight state
  descends : ∀ index state, invariant state → ¬ halted index state →
    weight (step index state) < weight state

/-- A component scheduled more often than the initial weight has halted by the
end of the run, whatever the others do in between. -/
theorem Halting.halted_of_count {step : Index → State → State} {invariant : State → Prop}
    {halted : Index → State → Prop} {weight : State → Nat} [DecidableEq Index]
    (hhalting : Halting step invariant halted weight) (index : Index)
    (schedule : List Index) {state : State} (hstate : invariant state)
    (hcount : weight state < schedule.count index) :
    halted index (run step schedule state) := by
  induction schedule generalizing state with
  | nil => simp at hcount
  | cons head rest ih =>
      by_cases hhalted : halted index state
      · exact run_invariant (fun other current => hhalting.stays index other current)
          (head :: rest) hhalted
      · apply ih (hhalting.preserves head state hstate)
        by_cases heq : head = index
        · subst head
          have hless := hhalting.descends index state hstate hhalted
          rw [List.count_cons_self] at hcount
          omega
        · have hle := hhalting.bounded head state hstate
          rw [List.count_cons_of_ne heq] at hcount
          omega

end Interleaving
