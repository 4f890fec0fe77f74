import Mathlib.Data.List.Basic

/-!
# Labelled transition systems

The label of a step resolves every choice the step leaves open, so a step is a
partial function of its source state and its label. Runs remember the state
each action was taken in; a side condition on the steps of a run can therefore
be stated about the state before the step.
-/

set_option autoImplicit false

namespace Ence360.Semantics

/-- `step state action` is `none` exactly when `action` is not enabled. -/
structure System (State Action : Type) where
  initial : State → Prop
  step : State → Action → Option State

namespace System

variable {State Action : Type} (system : System State Action)

/-- Finite executions, with the events `(state before, action)` in order. -/
inductive Run : State → List (State × Action) → State → Prop where
  | refl {state : State} : Run state [] state
  | snoc {start current next : State} {events : List (State × Action)} {action : Action} :
      Run start events current → system.step current action = some next →
      Run start (events ++ [(current, action)]) next

def Reachable (state : State) : Prop :=
  ∃ start events, system.initial start ∧ system.Run start events state

def Stuck (state : State) : Prop :=
  ∀ action, system.step state action = none

def execute (state : State) : List Action → Option State
  | [] => some state
  | action :: rest => (system.step state action).bind fun next => execute next rest

variable {system}

theorem Run.trans {start middle finish : State} {first second : List (State × Action)}
    (left : system.Run start first middle) (right : system.Run middle second finish) :
    system.Run start (first ++ second) finish := by
  induction right with
  | refl => simpa using left
  | snoc _ stepped ih =>
      rw [← List.append_assoc]
      exact .snoc ih stepped

theorem Run.single {state next : State} {action : Action}
    (stepped : system.step state action = some next) :
    system.Run state [(state, action)] next := by
  simpa using Run.snoc Run.refl stepped

/-- An invariant that may also speak about the events so far. -/
theorem Run.history (condition : State → Action → Prop)
    (invariant : List (State × Action) → State → Prop)
    (kept : ∀ events state action next, invariant events state → condition state action →
      system.step state action = some next → invariant (events ++ [(state, action)]) next)
    {start finish : State} {events : List (State × Action)}
    (run : system.Run start events finish)
    (meets : ∀ event ∈ events, condition event.1 event.2) (holds : invariant [] start) :
    invariant events finish := by
  induction run with
  | refl => exact holds
  | snoc _ stepped ih =>
      have before := ih fun event member => meets event (List.mem_append_left _ member)
      exact kept _ _ _ _ before (meets _ (List.mem_append_right _ (.head _))) stepped

theorem Run.source_of_mem {start finish : State} {events : List (State × Action)}
    (run : system.Run start events finish) {event : State × Action} (member : event ∈ events) :
    ∃ before, system.Run start before event.1 := by
  induction run with
  | refl => cases member
  | snoc before _ ih =>
      rcases List.mem_append.mp member with earlier | last
      · exact ih earlier
      · rw [List.mem_singleton] at last
        subst last
        exact ⟨_, before⟩

/-- A property that every step keeps under a condition on its event is kept by
every run whose events all meet that condition. -/
theorem Run.preserves_under (condition : State → Action → Prop) (invariant : State → Prop)
    (kept : ∀ state action next, invariant state → condition state action →
      system.step state action = some next → invariant next)
    {start finish : State} {events : List (State × Action)}
    (run : system.Run start events finish)
    (meets : ∀ event ∈ events, condition event.1 event.2) (holds : invariant start) :
    invariant finish :=
  run.history condition (fun _ => invariant) (fun _ => kept) meets holds

theorem Run.preserves (invariant : State → Prop)
    (kept : ∀ state action next, invariant state →
      system.step state action = some next → invariant next)
    {start finish : State} {events : List (State × Action)}
    (run : system.Run start events finish) (holds : invariant start) : invariant finish :=
  run.preserves_under (fun _ _ => True) invariant
    (fun state action next before _ stepped => kept state action next before stepped)
    (fun _ _ => trivial) holds

theorem Reachable.invariant (invariant : State → Prop)
    (start : ∀ state, system.initial state → invariant state)
    (kept : ∀ state action next, invariant state →
      system.step state action = some next → invariant next)
    {state : State} (reachable : system.Reachable state) : invariant state := by
  obtain ⟨origin, events, initial, run⟩ := reachable
  exact run.preserves invariant kept (start origin initial)

/-- Steps that lower a measure bound the length of every run. -/
theorem Run.length_add_le (measure : State → ℕ)
    (lowers : ∀ state action next, system.step state action = some next →
      measure next < measure state)
    {start finish : State} {events : List (State × Action)}
    (run : system.Run start events finish) : events.length + measure finish ≤ measure start := by
  induction run with
  | refl => simp
  | snoc _ stepped ih =>
      have lower := lowers _ _ _ stepped
      rw [List.length_append, List.length_singleton]
      omega

/-- A run that can always go on in healthy states, and whose steps lower a
measure, can be driven to a terminal state. -/
theorem exists_run_to (measure : State → ℕ) (healthy terminal : State → Prop)
    (lowers : ∀ state action next, system.step state action = some next →
      measure next < measure state)
    (progress : ∀ state, healthy state → terminal state ∨
      ∃ action next, system.step state action = some next ∧ healthy next)
    {state : State} (start : healthy state) :
    ∃ events finish, system.Run state events finish ∧ terminal finish := by
  induction bound : measure state using Nat.strongRecOn generalizing state with
  | ind bound ih =>
      subst bound
      rcases progress state start with done | ⟨action, next, stepped, after⟩
      · exact ⟨[], state, .refl, done⟩
      · obtain ⟨events, finish, run, done⟩ := ih _ (lowers _ _ _ stepped) after rfl
        exact ⟨_, finish, (Run.single stepped).trans run, done⟩

theorem Reachable.of_initial {state : State} (initial : system.initial state) :
    system.Reachable state :=
  ⟨state, [], initial, .refl⟩

theorem Reachable.next {state next : State} (reachable : system.Reachable state)
    (action : Action) (stepped : system.step state action = some next) :
    system.Reachable next := by
  obtain ⟨origin, events, initial, run⟩ := reachable
  exact ⟨origin, _, initial, run.snoc stepped⟩

theorem run_of_execute {state finish : State} {actions : List Action}
    (executed : system.execute state actions = some finish) :
    ∃ events, events.map (·.2) = actions ∧ system.Run state events finish := by
  induction actions generalizing state with
  | nil =>
      simp only [execute, Option.some.injEq] at executed
      subst executed
      exact ⟨[], rfl, .refl⟩
  | cons action rest ih =>
      simp only [execute, Option.bind_eq_some_iff] at executed
      obtain ⟨next, stepped, tail⟩ := executed
      obtain ⟨events, labels, run⟩ := ih tail
      refine ⟨(state, action) :: events, by simp [labels], ?_⟩
      exact (Run.single stepped).trans run

theorem Reachable.execute {state finish : State} {actions : List Action}
    (reachable : system.Reachable state) (executed : system.execute state actions = some finish) :
    system.Reachable finish := by
  obtain ⟨origin, before, initial, run⟩ := reachable
  obtain ⟨events, _, rest⟩ := run_of_execute executed
  exact ⟨origin, before ++ events, initial, run.trans rest⟩

end System

end Ence360.Semantics
