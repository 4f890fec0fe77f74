import Ence360.Semantics.Transition

/-!
# Refinement

A system refines a specification when the specification can follow each of its
steps: by the events that step stands for, none for a step the specification
does not see.
-/

set_option autoImplicit false

namespace Ence360.Semantics

variable {State Action Spec Event : Type}

theorem System.execute_append (system : System State Action) (state : State)
    (first second : List Action) :
    system.execute state (first ++ second) =
      (system.execute state first).bind fun middle => system.execute middle second := by
  induction first generalizing state with
  | nil => rfl
  | cons action rest ih =>
      cases stepped : system.step state action with
      | none => simp [System.execute, stepped]
      | some next => simp [System.execute, stepped, ih]

structure Refinement (system : System State Action) (spec : System Spec Event) where
  related : State → Spec → Prop
  visible : State → Action → List Event
  step : ∀ state abstract action next, related state abstract →
    system.step state action = some next →
    ∃ after, spec.execute abstract (visible state action) = some after ∧ related next after

variable {system : System State Action} {spec : System Spec Event}

/-- The events of a run, as the specification sees them. -/
def Refinement.trace (refinement : Refinement system spec) (events : List (State × Action)) :
    List Event :=
  events.flatMap fun event => refinement.visible event.1 event.2

/-- What holds for a step holds for a run. -/
theorem Refinement.run (refinement : Refinement system spec) {start finish : State}
    {events : List (State × Action)} {abstract : Spec}
    (run : system.Run start events finish) (begins : refinement.related start abstract) :
    ∃ after, spec.execute abstract (refinement.trace events) = some after ∧
      refinement.related finish after := by
  induction run with
  | refl => exact ⟨abstract, rfl, begins⟩
  | snoc _ stepped ih =>
      obtain ⟨middle, executed, related⟩ := ih
      obtain ⟨after, last, relatedNext⟩ := refinement.step _ _ _ _ related stepped
      refine ⟨after, ?_, relatedNext⟩
      rw [trace, List.flatMap_append, System.execute_append, ← trace, executed]
      simpa using last

end Ence360.Semantics
