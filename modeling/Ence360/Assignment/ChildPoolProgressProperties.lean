import Ence360.Assignment.ChildPoolProperties
import Mathlib.Algebra.Order.BigOperators.Group.List

/-!
# The pool comes to an end

A measure falls with every step of the parent, the handler and the children, and
while the parent has not ended there is a step to take.
-/

set_option autoImplicit false

namespace Ence360.Assignment.ChildPool

open Semantics Stdio IndexedList

variable {D : Type} {config : Config} {computation : Computation D}
variable {state next : State config computation}

section Termination

variable (bounded : computation.Bounded)

private def childMeasure (child : Child config computation) : ℕ :=
  match child.phase with
  | .computing memory => bounded.measure memory + 9
  | .printed => 8
  | .zombie => 4

private def pointMeasure : ParentPoint D → ℕ
  | .sigaction => 6
  | .prompt => 5
  | .semWait => 4
  | .getValidInput => 3
  | .fork _ _ => bounded.bound + 15
  | .forkError => 6
  | .forkPost => 5
  | .spawned _ => 5
  | .wait => 2
  | .waitPost _ => 5
  | .waitPrint _ => 4
  | .waitFlush => 3
  | .exit => 1
  | .exited | .failed => 0

private def handlerMeasure : HandlerPoint → ℕ
  | .idle => 0
  | .waitpid => 2
  | .post _ => 4
  | .print _ => 3
  | .leave => 1

private def pendingMeasure : Bool → ℕ
  | true => 3
  | false => 0

/-- Bounds the number of steps of the rest of the run. A child pays for its own
end, for the signal it raises and for being reaped. -/
def measure (state : State config computation) : ℕ :=
  state.remaining.length * (bounded.bound + 13) + pointMeasure bounded state.point +
    handlerMeasure state.handler + pendingMeasure state.pending +
    (state.children.map (childMeasure bounded)).sum

private theorem measure_endChild {k : ℕ} {child : Child config computation}
    (found : state.children[k]? = some child) (alive : child.phase.isZombie = false)
    (written : List (Cell Source)) :
    measure bounded { state.endChild k child with written } < measure bounded state := by
  have sum := @sum_map_set _ _ _ _ _ _ (childMeasure bounded)
    { child with phase := .zombie } found
  have more : 8 ≤ childMeasure bounded child := by
    cases phase : child.phase with
    | computing memory =>
        simp only [childMeasure, phase]
        omega
    | printed => simp [childMeasure, phase]
    | zombie =>
        rw [phase] at alive
        cases alive
  have less : childMeasure bounded { child with phase := .zombie } = 4 := rfl
  have signal : 0 ≤ pendingMeasure state.pending := Nat.zero_le _
  simp only [measure, State.endChild, State.setChild, pendingMeasure]
  omega

theorem measure_lt_of_step {action : Action computation}
    (stepped : step state action = some next) :
    measure bounded next < measure bounded state := by
  cases transition_of_step stepped with
  | sigaction idle point | sigactionFails idle point | semWait idle point _
  | endOfInput idle point _ | forkFails idle point | forkError idle point | forkPost idle point
  | waitNone idle point _ | waitPost idle point | waitFlush idle point | exit idle point =>
      simp only [measure, pointMeasure, point]
      omega
  | prompt idle point | spawned idle point | waitPrint idle point =>
      simp only [measure, pointMeasure, point, State.print]
      omega
  | accept idle point remaining =>
      simp only [measure, pointMeasure, point, remaining, List.length_cons, Nat.succ_mul]
      omega
  | @fork index pid query idle point _ =>
      have entered := bounded.enter_le computation.initial query
      simp only [measure, pointMeasure, point, List.map_append, List.sum_append,
        List.map_singleton, List.sum_singleton, childMeasure]
      omega
  | reap idle point found phase =>
      have sum := @sum_map_eraseIdx _ _ _ _ _ _ (childMeasure bounded) found
      simp only [childMeasure, phase] at sum
      simp only [measure, pointMeasure, point, State.removeChild]
      omega
  | deliver idle pending _ =>
      simp only [measure, handlerMeasure, pendingMeasure, idle, pending]
      omega
  | handlerNone handler _ | handlerPost handler | handlerLeave handler =>
      simp only [measure, handlerMeasure, handler]
      omega
  | handlerPrint handler =>
      simp only [measure, handlerMeasure, handler, State.print]
      omega
  | handlerReap handler found phase =>
      have sum := @sum_map_eraseIdx _ _ _ _ _ _ (childMeasure bounded) found
      simp only [childMeasure, phase] at sum
      simp only [measure, handlerMeasure, handler, State.removeChild]
      omega
  | @compute k action child memory after found phase moved =>
      have lower := bounded.lowers _ _ _ moved
      have sum := @sum_map_set _ _ _ _ _ _ (childMeasure bounded)
        { child with phase := .computing after } found
      simp only [childMeasure, phase] at sum
      simp only [measure, State.setChild]
      omega
  | @print k child memory text found phase _ =>
      have sum := @sum_map_set _ _ _ _ _ _ (childMeasure bounded)
        { child with
          phase := .printed
          buffer := (child.buffer.print (tag (.result child.index) text)).buffer } found
      simp only [childMeasure, phase] at sum
      simp only [measure, State.setChild]
      omega
  | childExit found phase =>
      exact measure_endChild bounded found (by rw [phase]; rfl) state.written
  | abort found phase _ => exact measure_endChild bounded found (by rw [phase]; rfl) _
  | kill found alive => exact measure_endChild bounded found alive state.written

theorem run_length_le {maxChildren : ℕ} {queries : List (Query D)}
    {events : List (State config computation × Action computation)}
    (run : (system config computation maxChildren queries).Run
      (start config computation maxChildren queries) events state) :
    events.length ≤ queries.length * (bounded.bound + 13) + 6 := by
  have bound := run.length_add_le (measure bounded)
    fun _ _ _ stepped => measure_lt_of_step bounded stepped
  have initial : measure bounded (start config computation maxChildren queries) =
      queries.length * (bounded.bound + 13) + 6 := rfl
  omega

end Termination

section Progress

variable (live : computation.Live)

theorem busy_of_reachable {maxChildren : ℕ} {queries : List (Query D)}
    (reachable : (system config computation maxChildren queries).Reachable state) :
    EachMemory live.busy state := by
  refine reachable.invariant (EachMemory live.busy) ?_ ?_
  · intro origin initial
    cases initial
    exact fun child member => absurd member List.not_mem_nil
  · exact fun _ _ _ busy stepped => eachMemory_of_step busy stepped
      (fun _ _ _ => live.enter _ _ live.initial) fun _ inner memory after _ =>
        live.step memory inner after

/-- A step that no failing call and no signal from outside has a part in. -/
def Enabled (state : State config computation) : Prop :=
  ∃ action next, action.fault = false ∧ step state action = some next

private theorem enabled_of_transition {action : Action computation}
    (transition : Transition state action next) (faultless : action.fault = false) :
    Enabled state :=
  ⟨action, next, faultless, step_of_transition transition⟩

private theorem enabled_of_running {child : Child config computation}
    (busy : EachMemory live.busy state) (member : child ∈ state.children)
    (alive : child.phase ≠ .zombie) : Enabled state := by
  obtain ⟨k, found⟩ := List.mem_iff_getElem?.mp member
  cases phase : child.phase with
  | computing memory =>
      rcases live.progress memory child.pid (busy child member memory phase) with
        failed | ⟨text, line⟩ | ⟨action, after, faultless, moved⟩
      · exact enabled_of_transition (.abort found phase failed) rfl
      · exact enabled_of_transition (.print found phase line) rfl
      · exact enabled_of_transition (.compute found phase moved) faultless
  | printed => exact enabled_of_transition (.childExit found phase) rfl
  | zombie => exact absurd phase alive

/-- There is a child to reap, or every child is still running. -/
private theorem exists_zombie_or (state : State config computation) :
    (∃ (k : ℕ) (child : Child config computation), state.children[k]? = some child ∧
      child.phase = .zombie) ∨
      ∀ child ∈ state.children, child.phase ≠ .zombie := by
  by_cases zombies : ∃ child ∈ state.children, child.phase = .zombie
  · obtain ⟨child, member, phase⟩ := zombies
    obtain ⟨k, found⟩ := List.mem_iff_getElem?.mp member
    exact .inl ⟨k, child, found, phase⟩
  · exact .inr fun child member phase => zombies ⟨child, member, phase⟩

private theorem enabled_of_handler (busy : state.handler ≠ .idle) : Enabled state := by
  cases handler : state.handler with
  | idle => exact absurd handler busy
  | waitpid =>
      rcases exists_zombie_or state with ⟨k, child, found, phase⟩ | running
      · exact enabled_of_transition (.handlerReap handler found phase) rfl
      · refine enabled_of_transition (.handlerNone handler fun child member => ?_) rfl
        cases phase : child.phase with
        | computing | printed => rfl
        | zombie => exact absurd phase (running child member)
  | post pid => exact enabled_of_transition (.handlerPost handler) rfl
  | print pid => exact enabled_of_transition (.handlerPrint handler) rfl
  | leave => exact enabled_of_transition (.handlerLeave handler) rfl

private theorem exists_fresh_pid (pids : List ℕ) : ∃ pid, ¬ (pid = 0 ∨ pid ∈ pids) := by
  refine ⟨pids.sum + 1, ?_⟩
  intro either
  rcases either with zero | member
  · omega
  · have bound := List.le_sum_of_mem member
    omega

include live in
/-- The pool only stops when the parent has exited. -/
theorem enabled_of_reachable {maxChildren : ℕ} {queries : List (Query D)}
    (positive : 0 < maxChildren)
    (reachable : (system config computation maxChildren queries).Reachable state)
    (alive : state.point ≠ .exited ∧ state.point ≠ .failed) : Enabled state := by
  have busy := busy_of_reachable live reachable
  by_cases idle : state.handler = .idle
  · cases point : state.point with
    | sigaction => exact enabled_of_transition (.sigaction idle point) rfl
    | prompt => exact enabled_of_transition (.prompt idle point) rfl
    | semWait =>
        by_cases free : 0 < state.semaphore
        · exact enabled_of_transition (.semWait idle point free) rfl
        · by_cases running : ∀ child ∈ state.children, child.phase = .zombie
          · cases pending : state.pending with
            | true =>
                refine enabled_of_transition (.deliver idle pending ?_) rfl
                simp [State.interruptible, point]
            | false =>
                have missed := (noExitMissed_of_reachable positive reachable).unblocked
                exact absurd ⟨point, by omega, running, pending, idle⟩ missed
          · push Not at running
            obtain ⟨child, member, phase⟩ := running
            exact enabled_of_running live busy member phase
    | getValidInput =>
        cases remaining : state.remaining with
        | nil => exact enabled_of_transition (.endOfInput idle point remaining) rfl
        | cons query rest => exact enabled_of_transition (.accept idle point remaining) rfl
    | fork index query =>
        obtain ⟨pid, fresh⟩ := exists_fresh_pid (state.children.map (·.pid))
        exact enabled_of_transition (.fork idle point fresh) rfl
    | forkError => exact enabled_of_transition (.forkError idle point) rfl
    | forkPost => exact enabled_of_transition (.forkPost idle point) rfl
    | spawned pid => exact enabled_of_transition (.spawned idle point) rfl
    | wait =>
        rcases exists_zombie_or state with ⟨k, child, found, phase⟩ | running
        · exact enabled_of_transition (.reap idle point found phase) rfl
        · cases children : state.children with
          | nil => exact enabled_of_transition (.waitNone idle point children) rfl
          | cons child rest =>
              have member : child ∈ state.children := children ▸ List.mem_cons_self
              exact enabled_of_running live busy member (running child member)
    | waitPost pid => exact enabled_of_transition (.waitPost idle point) rfl
    | waitPrint pid => exact enabled_of_transition (.waitPrint idle point) rfl
    | waitFlush => exact enabled_of_transition (.waitFlush idle point) rfl
    | exit => exact enabled_of_transition (.exit idle point) rfl
    | exited => exact absurd point alive.1
    | failed => exact absurd point alive.2
  · exact enabled_of_handler idle

end Progress

end Ence360.Assignment.ChildPool
