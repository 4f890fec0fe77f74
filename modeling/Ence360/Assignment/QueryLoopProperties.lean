import Ence360.Assignment.QueryLoop

/-!
# The loop over the queries comes to an end

The transitions of the loop of `serial.c` and `thread.c`, the number of steps of a
run, and the points at which a run can stop.
-/

set_option autoImplicit false

namespace Ence360.Assignment.QueryLoop

open Semantics Stdio

variable {D : Type} {config : Config} {computation : Computation D} {pid : ℕ}
variable {state next : State config computation}

inductive Transition (pid : ℕ) (state : State config computation) :
    Action computation → State config computation → Prop where
  | prompt : state.point = .prompt →
      Transition pid state .main { state.print .prompt promptLine with point := .getValidInput }
  | exit : state.point = .getValidInput → state.remaining = [] →
      Transition pid state .main { state with point := .exited }
  | accept {query : Query D} {rest : List (Query D)} :
      state.point = .getValidInput → state.remaining = query :: rest →
      Transition pid state .main
        { state with
          point := .computing
          remaining := rest
          memory := computation.enter state.memory query }
  | print {text : List Char} :
      state.point = .computing → computation.line state.memory pid = some text →
      Transition pid state .main
        { state.print (.result state.index) text with
          point := .getValidInput
          index := state.index + 1 }
  | abort : state.point = .computing → computation.line state.memory pid = none →
      computation.failed state.memory = true →
      Transition pid state .main
        { state with
          point := .failed
          buffer := .empty
          written := state.written ++ state.buffer.cells }
  | compute {action : computation.Action} {memory : computation.State} :
      state.point = .computing → computation.step state.memory action = some memory →
      Transition pid state (.compute action) { state with memory }

theorem step_eq_some_iff {action : Action computation} :
    step pid state action = some next ↔ Transition pid state action next := by
  constructor
  · intro stepped
    cases action with
    | main =>
        cases point : state.point with
        | prompt =>
            simp only [step, point] at stepped
            cases stepped
            exact .prompt point
        | getValidInput =>
            cases remaining : state.remaining with
            | nil =>
                simp only [step, point, remaining] at stepped
                cases stepped
                simpa only [remaining] using Transition.exit point remaining
            | cons query rest =>
                simp only [step, point, remaining] at stepped
                cases stepped
                exact .accept point remaining
        | computing =>
            cases line : computation.line state.memory pid with
            | some text =>
                simp only [step, point, line] at stepped
                cases stepped
                exact .print point line
            | none =>
                simp only [step, point, line] at stepped
                split at stepped
                · next failed =>
                    cases stepped
                    exact .abort point line failed
                · cases stepped
        | exited | failed => simp [step, point] at stepped
    | compute action =>
        cases point : state.point with
        | computing =>
            simp only [step, point, Option.map_eq_some_iff] at stepped
            obtain ⟨memory, stepped, rfl⟩ := stepped
            simpa only [point] using Transition.compute point stepped
        | prompt | getValidInput | exited | failed => simp [step, point] at stepped
  · intro transition
    cases transition <;> simp [step, Buffer.flush, *]

theorem remaining_of_exited {queries : List (Query D)}
    (reachable : (system config computation pid queries).Reachable state)
    (exited : state.point = .exited) : state.remaining = [] := by
  refine reachable.invariant (fun state => state.point = .exited → state.remaining = []) ?_ ?_
    exited
  · intro origin initial
    cases initial
    exact fun impossible => by cases impossible
  · intro current action after _ stepped
    cases step_eq_some_iff.mp stepped with
    | exit point remaining => exact fun _ => remaining
    | prompt | accept | print | abort => simp
    | compute point _ => simp [point]

section Termination

variable (bounded : computation.Bounded)

/-- Bounds the number of steps of the rest of the run. -/
def measure (state : State config computation) : ℕ :=
  state.remaining.length * (bounded.bound + 3) +
    match state.point with
    | .prompt => 2
    | .getValidInput => 1
    | .computing => bounded.measure state.memory + 2
    | .exited | .failed => 0

theorem measure_lt_of_step {action : Action computation}
    (stepped : step pid state action = some next) :
    measure bounded next < measure bounded state := by
  cases step_eq_some_iff.mp stepped with
  | prompt point =>
      simp only [measure, State.print, point]
      omega
  | exit point _ =>
      simp only [measure, point]
      omega
  | accept point remaining =>
      have entered := bounded.enter_le state.memory ‹Query D›
      simp only [measure, point, remaining, List.length_cons, Nat.succ_mul]
      omega
  | print point _ =>
      simp only [measure, State.print, point]
      omega
  | abort point _ _ =>
      simp only [measure, point]
      omega
  | compute point moved =>
      have lower := bounded.lowers _ _ _ moved
      simp only [measure, point]
      omega

theorem run_length_le {queries : List (Query D)}
    {events : List (State config computation × Action computation)}
    (run : (system config computation pid queries).Run (start config computation queries)
      events state) : events.length ≤ queries.length * (bounded.bound + 3) + 2 := by
  have bound := run.length_add_le (measure bounded)
    fun _ _ _ stepped => measure_lt_of_step bounded stepped
  have initial : measure bounded (start config computation queries) =
      queries.length * (bounded.bound + 3) + 2 := rfl
  omega

end Termination

section Progress

variable (live : computation.Live)

/-- Where the memory of the process stands at each point of the loop. -/
def MemoryValid (state : State config computation) : Prop :=
  match state.point with
  | .prompt | .getValidInput | .exited => live.resting state.memory
  | .computing => live.busy state.memory
  | .failed => True

theorem memoryValid_of_step {action : Action computation} (valid : MemoryValid live state)
    (stepped : step pid state action = some next) : MemoryValid live next := by
  cases step_eq_some_iff.mp stepped with
  | prompt point =>
      simp only [MemoryValid, point] at valid
      exact valid
  | exit point _ =>
      simp only [MemoryValid, point] at valid
      exact valid
  | accept point _ =>
      simp only [MemoryValid, point] at valid
      exact live.enter _ _ valid
  | print point line =>
      simp only [MemoryValid, point] at valid
      exact live.line _ _ _ valid line
  | abort point _ _ => trivial
  | compute point moved =>
      simp only [MemoryValid, point] at valid ⊢
      exact live.step _ _ _ valid moved

theorem memoryValid_of_reachable {queries : List (Query D)}
    (reachable : (system config computation pid queries).Reachable state) :
    MemoryValid live state := by
  refine reachable.invariant (MemoryValid live) ?_ ?_
  · rintro _ rfl
    exact live.initial
  · exact fun _ _ _ valid stepped => memoryValid_of_step live valid stepped

include live in
theorem exited_or_failed_of_stuck {queries : List (Query D)}
    (reachable : (system config computation pid queries).Reachable state)
    (stuck : (system config computation pid queries).Stuck state) :
    state.point = .exited ∨ state.point = .failed := by
  have valid := memoryValid_of_reachable live reachable
  have blocked {action : Action computation} {next : State config computation}
      (transition : Transition pid state action next) : False := by
    have stepped := step_eq_some_iff.mpr transition
    have none := stuck action
    rw [show (system config computation pid queries).step state action = some next from stepped]
      at none
    cases none
  cases point : state.point with
  | exited => exact .inl rfl
  | failed => exact .inr rfl
  | prompt => exact (blocked (.prompt point)).elim
  | getValidInput =>
      cases remaining : state.remaining with
      | nil => exact (blocked (.exit point remaining)).elim
      | cons query rest => exact (blocked (.accept point remaining)).elim
  | computing =>
      simp only [MemoryValid, point] at valid
      cases line : computation.line state.memory pid with
      | some text => exact (blocked (.print point line)).elim
      | none =>
          rcases live.progress state.memory pid valid with
            failed | ⟨text, line'⟩ | ⟨_, _, _, moved⟩
          · exact (blocked (.abort point line failed)).elim
          · rw [line] at line'
            cases line'
          · exact (blocked (.compute point moved)).elim

def Healthy (state : State config computation) : Prop :=
  MemoryValid live state ∧ state.point ≠ .failed ∧
    (state.point = .computing → computation.failed state.memory = false)

private theorem healthy_progress (reliable : computation.Reliable) (healthy : Healthy live state) :
    state.point = .exited ∨
      ∃ action next, step pid state action = some next ∧ Healthy live next := by
  obtain ⟨valid, alive, running⟩ := healthy
  have go {action : Action computation} {next : State config computation}
      (transition : Transition pid state action next) (alive : next.point ≠ .failed)
      (running : next.point = .computing → computation.failed next.memory = false) :
      ∃ action next, step pid state action = some next ∧ Healthy live next := by
    have stepped := step_eq_some_iff.mpr transition
    exact ⟨action, next, stepped, memoryValid_of_step live valid stepped, alive, running⟩
  cases point : state.point with
  | exited => exact .inl rfl
  | failed => exact absurd point alive
  | prompt => exact .inr (go (.prompt point) (by simp) (by simp))
  | getValidInput =>
      cases remaining : state.remaining with
      | nil => exact .inr (go (.exit point remaining) (by simp) (by simp))
      | cons query rest =>
          exact .inr (go (.accept point remaining) (by simp) fun _ => reliable.enter _ _)
  | computing =>
      simp only [MemoryValid, point] at valid
      rcases live.progress state.memory pid valid with
        failed | ⟨text, line⟩ | ⟨_, _, faultless, moved⟩
      · rw [running point] at failed
        cases failed
      · exact .inr (go (.print point line) (by simp) (by simp))
      · refine .inr (go (.compute point moved) (by simp [point]) fun _ => ?_)
        exact reliable.step _ _ _ (running point) faultless moved

include live in
/-- Unless a call fails, the loop can be run to its end. -/
theorem exists_run_to_exit (reliable : computation.Reliable) (bounded : computation.Bounded)
    (config : Config) (pid : ℕ) (queries : List (Query D)) :
    ∃ events state, (system config computation pid queries).Run
      (start config computation queries) events state ∧ state.point = .exited :=
  System.exists_run_to (measure bounded) (Healthy live) (fun state => state.point = .exited)
    (fun _ _ _ stepped => measure_lt_of_step bounded stepped)
    (fun _ healthy => healthy_progress live reliable healthy)
    ⟨live.initial, by simp [start], by simp [start]⟩

end Progress

end Ence360.Assignment.QueryLoop
