import Ence360.Assignment.ChildPool
import Ence360.Semantics.IndexedList

/-!
# The slots and the children of the pool

Every slot of the semaphore is free, owned by the parent or a child, or about to be
posted, and no child that has ended waits for a signal that has already come. Both
are read off one list of transitions.
-/

set_option autoImplicit false

namespace Ence360.Assignment.ChildPool

open Semantics Stdio IndexedList

variable {D : Type} {config : Config} {computation : Computation D}
variable {state next : State config computation}

/-- The transitions of `step`, with everything their guards guarantee. -/
inductive Transition (state : State config computation) :
    Action computation → State config computation → Prop where
  | sigaction : state.handler = .idle → state.point = .sigaction →
      Transition state .parent { state with point := .prompt }
  | sigactionFails : state.handler = .idle → state.point = .sigaction →
      Transition state .sigactionFails { state with point := .failed }
  | prompt : state.handler = .idle → state.point = .prompt →
      Transition state .parent { state.print .prompt promptLine with point := .semWait }
  | semWait : state.handler = .idle → state.point = .semWait → 0 < state.semaphore →
      Transition state .parent
        { state with point := .getValidInput, semaphore := state.semaphore - 1 }
  | endOfInput : state.handler = .idle → state.point = .getValidInput → state.remaining = [] →
      Transition state .parent { state with point := .wait }
  | accept {query : Query D} {rest : List (Query D)} :
      state.handler = .idle → state.point = .getValidInput → state.remaining = query :: rest →
      Transition state .parent
        { state with
          point := .fork state.taken query
          remaining := rest
          taken := state.taken + 1 }
  | fork {index pid : ℕ} {query : Query D} :
      state.handler = .idle → state.point = .fork index query →
      ¬ (pid = 0 ∨ pid ∈ state.children.map (·.pid)) →
      Transition state (.fork pid)
        { state with
          point := .spawned pid
          children := state.children ++
            [{ pid
               index
               buffer := state.buffer
               phase := .computing (computation.enter computation.initial query) }] }
  | forkFails {index : ℕ} {query : Query D} :
      state.handler = .idle → state.point = .fork index query →
      Transition state .forkFails { state with point := .forkError }
  | forkError : state.handler = .idle → state.point = .forkError →
      Transition state .parent { state with point := .forkPost }
  | forkPost : state.handler = .idle → state.point = .forkPost →
      Transition state .parent { state with point := .semWait, semaphore := state.semaphore + 1 }
  | spawned {pid : ℕ} : state.handler = .idle → state.point = .spawned pid →
      Transition state .parent
        { state.print .spawned (spawnedLine pid) with point := .semWait }
  | waitNone : state.handler = .idle → state.point = .wait → state.children = [] →
      Transition state .parent { state with point := .exit }
  | reap {k : ℕ} {child : Child config computation} :
      state.handler = .idle → state.point = .wait → state.children[k]? = some child →
      child.phase = .zombie →
      Transition state (.reap k) { state.removeChild k with point := .waitPost child.pid }
  | waitPost {pid : ℕ} : state.handler = .idle → state.point = .waitPost pid →
      Transition state .parent
        { state with point := .waitPrint pid, semaphore := state.semaphore + 1 }
  | waitPrint {pid : ℕ} : state.handler = .idle → state.point = .waitPrint pid →
      Transition state .parent
        { state.print .slotFreed (slotFreedLine pid) with point := .waitFlush }
  | waitFlush : state.handler = .idle → state.point = .waitFlush →
      Transition state .parent
        { state with
          point := .wait
          buffer := .empty
          written := state.written ++ state.buffer.cells }
  | exit : state.handler = .idle → state.point = .exit →
      Transition state .parent { state with point := .exited }
  | deliver : state.handler = .idle → state.pending = true → state.interruptible = true →
      Transition state .deliver { state with pending := false, handler := .waitpid }
  | handlerNone : state.handler = .waitpid →
      (∀ child ∈ state.children, child.phase.isZombie = false) →
      Transition state .handler { state with handler := .leave }
  | handlerReap {k : ℕ} {child : Child config computation} :
      state.handler = .waitpid → state.children[k]? = some child → child.phase = .zombie →
      Transition state (.handlerReap k) { state.removeChild k with handler := .post child.pid }
  | handlerPost {pid : ℕ} : state.handler = .post pid →
      Transition state .handler
        { state with handler := .print pid, semaphore := state.semaphore + 1 }
  | handlerPrint {pid : ℕ} : state.handler = .print pid →
      Transition state .handler
        { state.print .slotFreed (slotFreedLine pid) with handler := .waitpid }
  | handlerLeave : state.handler = .leave →
      Transition state .handler { state with handler := .idle }
  | compute {k : ℕ} {action : computation.Action} {child : Child config computation}
      {memory after : computation.State} :
      state.children[k]? = some child → child.phase = .computing memory →
      computation.step memory action = some after →
      Transition state (.compute k action)
        (state.setChild k { child with phase := .computing after })
  | print {k : ℕ} {child : Child config computation} {memory : computation.State}
      {text : List Char} :
      state.children[k]? = some child → child.phase = .computing memory →
      computation.line memory child.pid = some text →
      Transition state (.print k)
        { state.setChild k
            { child with
              phase := .printed
              buffer := (child.buffer.print (tag (.result child.index) text)).buffer } with
          written :=
            state.written ++ (child.buffer.print (tag (.result child.index) text)).written }
  | childExit {k : ℕ} {child : Child config computation} :
      state.children[k]? = some child → child.phase = .printed →
      Transition state (.exit k) (state.endChild k child)
  | abort {k : ℕ} {child : Child config computation} {memory : computation.State} :
      state.children[k]? = some child → child.phase = .computing memory →
      computation.failed memory = true →
      Transition state (.abort k)
        { state.endChild k child with written := state.written ++ child.buffer.cells }
  | kill {k : ℕ} {child : Child config computation} :
      state.children[k]? = some child → child.phase.isZombie = false →
      Transition state (.kill k) (state.endChild k child)

private theorem whenIdle_eq_some_iff {result : Option (State config computation)} :
    state.whenIdle result = some next ↔ state.handler = .idle ∧ result = some next := by
  unfold State.whenIdle
  split
  · next idle => simp [idle]
  all_goals next busy => simp [busy]

private theorem parent_transition (idle : state.handler = .idle)
    (stepped : state.parentStep = some next) : Transition state .parent next := by
  cases point : state.point with
  | sigaction =>
      simp only [State.parentStep, point] at stepped
      cases stepped
      exact .sigaction idle point
  | prompt =>
      simp only [State.parentStep, point] at stepped
      cases stepped
      exact .prompt idle point
  | semWait =>
      simp only [State.parentStep, point] at stepped
      split at stepped
      · next positive =>
          cases stepped
          exact .semWait idle point positive
      · cases stepped
  | getValidInput =>
      simp only [State.parentStep, point] at stepped
      split at stepped
      · next remaining =>
          cases stepped
          exact .endOfInput idle point remaining
      · next remaining =>
          cases stepped
          exact .accept idle point remaining
  | forkError =>
      simp only [State.parentStep, point] at stepped
      cases stepped
      exact .forkError idle point
  | forkPost =>
      simp only [State.parentStep, point] at stepped
      cases stepped
      exact .forkPost idle point
  | spawned pid =>
      simp only [State.parentStep, point] at stepped
      cases stepped
      exact .spawned idle point
  | wait =>
      simp only [State.parentStep, point] at stepped
      split at stepped
      · next empty =>
          cases stepped
          exact .waitNone idle point (List.isEmpty_iff.mp empty)
      · cases stepped
  | waitPost pid =>
      simp only [State.parentStep, point] at stepped
      cases stepped
      exact .waitPost idle point
  | waitPrint pid =>
      simp only [State.parentStep, point] at stepped
      cases stepped
      exact .waitPrint idle point
  | waitFlush =>
      simp only [State.parentStep, point] at stepped
      cases stepped
      exact .waitFlush idle point
  | exit =>
      simp only [State.parentStep, point] at stepped
      cases stepped
      exact .exit idle point
  | fork | exited | failed => simp [State.parentStep, point] at stepped

private theorem handler_transition (stepped : state.handlerStep = some next) :
    Transition state .handler next := by
  cases handler : state.handler with
  | idle => simp [State.handlerStep, handler] at stepped
  | waitpid =>
      simp only [State.handlerStep, handler] at stepped
      split at stepped
      · cases stepped
      · next none =>
          cases stepped
          exact .handlerNone handler (by simpa using none)
  | post pid =>
      simp only [State.handlerStep, handler] at stepped
      cases stepped
      exact .handlerPost handler
  | print pid =>
      simp only [State.handlerStep, handler] at stepped
      cases stepped
      exact .handlerPrint handler
  | leave =>
      simp only [State.handlerStep, handler] at stepped
      cases stepped
      exact .handlerLeave handler

theorem transition_of_step {action : Action computation} (stepped : step state action = some next) :
    Transition state action next := by
  cases action with
  | parent =>
      obtain ⟨idle, stepped⟩ := whenIdle_eq_some_iff.mp stepped
      exact parent_transition idle stepped
  | sigactionFails =>
      obtain ⟨idle, stepped⟩ := whenIdle_eq_some_iff.mp stepped
      unfold State.sigactionFails at stepped
      split at stepped
      · next point =>
          cases stepped
          exact .sigactionFails idle point
      · cases stepped
  | fork pid =>
      obtain ⟨idle, stepped⟩ := whenIdle_eq_some_iff.mp stepped
      unfold State.forkStep at stepped
      split at stepped
      · next point =>
          split at stepped
          · cases stepped
          · next fresh =>
              cases stepped
              exact .fork idle point fresh
      · cases stepped
  | forkFails =>
      obtain ⟨idle, stepped⟩ := whenIdle_eq_some_iff.mp stepped
      unfold State.forkFails at stepped
      split at stepped
      · next point =>
          cases stepped
          exact .forkFails idle point
      · cases stepped
  | reap k =>
      obtain ⟨idle, stepped⟩ := whenIdle_eq_some_iff.mp stepped
      unfold State.reap at stepped
      split at stepped
      · next point found =>
          cases stepped
          exact .reap idle point found rfl
      · cases stepped
  | deliver =>
      obtain ⟨idle, stepped⟩ := whenIdle_eq_some_iff.mp stepped
      unfold State.deliver at stepped
      split at stepped
      · next ready =>
          cases stepped
          rw [Bool.and_eq_true] at ready
          exact .deliver idle ready.1 ready.2
      · cases stepped
  | handler => exact handler_transition stepped
  | handlerReap k =>
      simp only [step, State.handlerReap] at stepped
      split at stepped
      · next handler found =>
          cases stepped
          exact .handlerReap handler found rfl
      · cases stepped
  | compute k action =>
      simp only [step, State.compute, Option.bind_eq_some_iff] at stepped
      obtain ⟨child, found, stepped⟩ := stepped
      split at stepped
      · next phase =>
          obtain ⟨after, moved, rfl⟩ := Option.map_eq_some_iff.mp stepped
          exact .compute found phase moved
      all_goals cases stepped
  | print k =>
      simp only [step, State.childPrint, Option.bind_eq_some_iff] at stepped
      obtain ⟨child, found, stepped⟩ := stepped
      split at stepped
      · next phase =>
          obtain ⟨text, line, rfl⟩ := Option.map_eq_some_iff.mp stepped
          exact .print found phase line
      all_goals cases stepped
  | exit k =>
      simp only [step, State.childExit, Option.bind_eq_some_iff] at stepped
      obtain ⟨child, found, stepped⟩ := stepped
      split at stepped
      · next phase =>
          cases stepped
          exact .childExit found phase
      all_goals cases stepped
  | abort k =>
      simp only [step, State.childAbort, Option.bind_eq_some_iff] at stepped
      obtain ⟨child, found, stepped⟩ := stepped
      split at stepped
      · next phase =>
          split at stepped
          · next failed =>
              cases stepped
              exact .abort found phase failed
          · cases stepped
      all_goals cases stepped
  | kill k =>
      simp only [step, State.childKill, Option.bind_eq_some_iff] at stepped
      obtain ⟨child, found, stepped⟩ := stepped
      split at stepped
      · next phase =>
          cases stepped
          exact .kill found (by rw [phase]; rfl)
      · next phase =>
          cases stepped
          exact .kill found (by rw [phase]; rfl)
      · cases stepped

theorem step_of_transition {action : Action computation}
    (transition : Transition state action next) : step state action = some next := by
  cases transition with
  | @reap k child idle point found phase =>
      obtain ⟨pid, index, buffer, last⟩ := child
      subst phase
      simp [step, State.whenIdle, State.reap, idle, point, found]
  | @handlerReap k child handler found phase =>
      obtain ⟨pid, index, buffer, last⟩ := child
      subst phase
      simp [step, State.handlerReap, handler, found]
  | sigactionFails idle point => simp [step, State.whenIdle, State.sigactionFails, idle, point]
  | fork idle point fresh =>
      simp only [step, State.whenIdle, State.forkStep, idle, point, if_neg fresh]
  | forkFails idle point => simp [step, State.whenIdle, State.forkFails, idle, point]
  | deliver idle pending ready => simp [step, State.whenIdle, State.deliver, idle, pending, ready]
  | handlerNone handler none => simpa [step, State.handlerStep, handler] using none
  | handlerPost handler | handlerPrint handler | handlerLeave handler =>
      simp [step, State.handlerStep, handler]
  | compute found phase moved => simp [step, State.compute, found, phase, moved]
  | print found phase line => simp [step, State.childPrint, found, phase, line]
  | childExit found phase => simp [step, State.childExit, found, phase]
  | abort found phase failed =>
      simp [step, State.childAbort, Buffer.flush, found, phase, failed]
  | @kill k child found alive =>
      cases phase : child.phase with
      | computing | printed => simp [step, State.childKill, found, phase]
      | zombie =>
          rw [phase] at alive
          cases alive
  | sigaction idle point | prompt idle point | endOfInput idle point _ | accept idle point _
  | forkError idle point | forkPost idle point | spawned idle point | waitPost idle point
  | waitPrint idle point | exit idle point | semWait idle point _ | waitNone idle point _
  | waitFlush idle point =>
      simp [step, State.whenIdle, State.parentStep, Buffer.flush, *]

def EachMemory (property : computation.State → Prop) (state : State config computation) : Prop :=
  ∀ child ∈ state.children, ∀ memory, child.phase = .computing memory → property memory

theorem eachMemory_of_step {property : computation.State → Prop} {action : Action computation}
    (each : EachMemory property state) (stepped : step state action = some next)
    (entered : ∀ index query, state.point = .fork index query →
      property (computation.enter computation.initial query))
    (kept : ∀ k inner memory after, action = .compute k inner → property memory →
      computation.step memory inner = some after → property after) :
    EachMemory property next := by
  cases transition_of_step stepped with
  | sigaction | sigactionFails | semWait | endOfInput | accept | forkFails | forkError | forkPost
  | waitNone | waitPost | waitFlush | exit | deliver | handlerNone | handlerPost
  | handlerLeave => exact each
  | prompt | spawned | waitPrint | handlerPrint => simpa [EachMemory, State.print] using each
  | fork _ point _ =>
      intro child member memory phase
      rcases List.mem_append.mp member with old | new
      · exact each child old memory phase
      · rw [List.mem_singleton] at new
        subst new
        cases phase
        exact entered _ _ point
  | reap _ _ _ _ | handlerReap _ _ _ =>
      exact fun child member => each child (List.mem_of_mem_eraseIdx member)
  | compute found phase moved =>
      intro child member memory computing
      rcases mem_set_cases member with rfl | old
      · cases computing
        exact kept _ _ _ _ rfl (each _ (List.mem_of_getElem? found) _ phase) moved
      · exact each child old memory computing
  | print | childExit | abort | kill =>
      intro child member memory computing
      rcases mem_set_cases member with rfl | old
      · cases computing
      · exact each child old memory computing

/-- Without faults no computation fails. -/
theorem healthy_of_step {action : Action computation} (reliable : computation.Reliable)
    (healthy : EachMemory (fun memory => computation.failed memory = false) state)
    (faultless : action.fault = false) (stepped : step state action = some next) :
    EachMemory (fun memory => computation.failed memory = false) next := by
  refine eachMemory_of_step healthy stepped (fun _ _ _ => reliable.enter _ _) ?_
  rintro k inner memory after rfl running moved
  exact reliable.step memory inner after running faultless moved

section Slots

/-- The parent has waited for a slot and neither given it to a child nor
returned it. The slot taken before the end of the input stays with it. -/
def held : ParentPoint D → ℕ
  | .getValidInput | .fork _ _ | .forkError | .forkPost => 1
  | .wait | .waitPost _ | .waitPrint _ | .waitFlush | .exit | .exited => 1
  | .sigaction | .prompt | .semWait | .spawned _ | .failed => 0

/-- The children that are reaped but whose slot is not yet posted. -/
def unposted (state : State config computation) : ℕ :=
  (match state.handler with
    | .post _ => 1
    | .idle | .waitpid | .print _ | .leave => 0) +
  match state.point with
  | .waitPost _ => 1
  | .sigaction | .prompt | .semWait | .getValidInput | .fork _ _ | .forkError | .forkPost
  | .spawned _ | .wait | .waitPrint _ | .waitFlush | .exit | .exited | .failed => 0

def slots (state : State config computation) : ℕ :=
  state.semaphore + state.children.length + held state.point + unposted state

theorem slots_of_step {action : Action computation} (stepped : step state action = some next) :
    slots next = slots state := by
  cases transition_of_step stepped with
  | sigaction idle point | sigactionFails idle point | prompt idle point | endOfInput idle point _
  | accept idle point _ | forkFails idle point | forkError idle point | spawned idle point
  | waitNone idle point _ | waitPrint idle point | waitFlush idle point | exit idle point =>
      simp [slots, held, unposted, point, State.print]
  | semWait idle point positive =>
      simp only [slots, held, unposted, point]
      omega
  | fork idle point _ =>
      simp only [slots, held, unposted, point, List.length_append, List.length_singleton]
      omega
  | forkPost idle point | waitPost idle point =>
      simp only [slots, held, unposted, point]
      omega
  | reap idle point found _ =>
      have length := length_eraseIdx_add_one found
      simp only [slots, held, unposted, point, idle, State.removeChild]
      omega
  | deliver idle _ _ => simp [slots, unposted, idle]
  | handlerNone handler _ => simp [slots, unposted, handler]
  | handlerReap handler found _ =>
      have length := length_eraseIdx_add_one found
      simp only [slots, unposted, handler, State.removeChild]
      omega
  | handlerPost handler =>
      simp only [slots, unposted, handler]
      omega
  | handlerPrint handler => simp [slots, unposted, handler, State.print]
  | handlerLeave handler => simp [slots, unposted, handler]
  | compute _ _ _ | print _ _ _ | childExit _ _ | abort _ _ _ | kill _ _ =>
      simp [slots, unposted, State.setChild, State.endChild]

theorem slots_of_reachable {maxChildren : ℕ} {queries : List (Query D)}
    (reachable : (system config computation maxChildren queries).Reachable state) :
    slots state = maxChildren := by
  refine reachable.invariant (fun state => slots state = maxChildren) ?_ ?_
  · intro origin initial
    cases initial
    simp [slots, start, held, unposted]
  · intro current action after balanced stepped
    rw [slots_of_step stepped, balanced]

end Slots

section Reaping

def HandlerReaping (state : State config computation) : Prop :=
  match state.handler with
  | .waitpid | .post _ | .print _ => True
  | .idle | .leave => False

def FinalLoop (state : State config computation) : Prop :=
  match state.point with
  | .wait | .waitPost _ | .waitPrint _ | .waitFlush => True
  | .sigaction | .prompt | .semWait | .getValidInput | .fork _ _ | .forkError | .forkPost
  | .spawned _ | .exit | .exited | .failed => False

def Noticed (state : State config computation) : Prop :=
  state.pending = true ∨ HandlerReaping state ∨ FinalLoop state

def Drained (state : State config computation) : Prop :=
  match state.point with
  | .exit | .exited => state.children = []
  | .sigaction | .prompt | .semWait | .getValidInput | .fork _ _ | .forkError | .forkPost
  | .spawned _ | .wait | .waitPost _ | .waitPrint _ | .waitFlush | .failed => True

structure Tracked (state : State config computation) : Prop where
  noticed : ∀ child ∈ state.children, child.phase = .zombie → Noticed state
  drained : Drained state

private theorem Tracked.of_children (tracked : Tracked state)
    (children : ∀ child ∈ next.children, child ∈ state.children)
    (noticed : Noticed state → Noticed next)
    (drained : Drained next) : Tracked next where
  noticed child member zombie := noticed (tracked.noticed child (children child member) zombie)
  drained := drained

private theorem Drained.of_found {k : ℕ} {child : Child config computation}
    (drained : Drained state) (found : state.children[k]? = some child)
    (same : next.point = state.point) : Drained next := by
  unfold Drained at drained ⊢
  rw [same]
  cases point : state.point with
  | exit | exited =>
      simp only [point] at drained
      simp [drained] at found
  | sigaction | prompt | semWait | getValidInput | fork | forkError | forkPost | spawned | wait
  | waitPost | waitPrint | waitFlush | failed => trivial

private theorem Tracked.of_running {k : ℕ} {child running : Child config computation}
    (tracked : Tracked state) (found : state.children[k]? = some child)
    (alive : running.phase.isZombie = false) (written : List (Cell Source)) :
    Tracked { state.setChild k running with written } where
  noticed other member zombie := by
    rcases mem_set_cases member with rfl | old
    · rw [zombie] at alive
      cases alive
    · exact tracked.noticed other old zombie
  drained := tracked.drained.of_found found rfl

private theorem Tracked.of_ended {k : ℕ} {child : Child config computation}
    (tracked : Tracked state) (found : state.children[k]? = some child)
    (written : List (Cell Source)) : Tracked { state.endChild k child with written } where
  noticed _ _ _ := .inl rfl
  drained := tracked.drained.of_found found rfl

theorem tracked_of_step {action : Action computation} (tracked : Tracked state)
    (stepped : step state action = some next) : Tracked next := by
  have drained := tracked.drained
  cases transition_of_step stepped with
  | sigaction idle point | sigactionFails idle point | semWait idle point _ | accept idle point _
  | forkFails idle point | forkError idle point | forkPost idle point =>
      refine tracked.of_children (fun _ member => member) ?_ trivial
      simp [Noticed, HandlerReaping, FinalLoop, idle, point]
  | prompt idle point | spawned idle point =>
      refine tracked.of_children (by simp [State.print]) ?_ trivial
      simp [Noticed, HandlerReaping, FinalLoop, idle, point, State.print]
  | endOfInput idle point _ | waitPost idle point | waitFlush idle point =>
      refine tracked.of_children (fun _ member => member) ?_ trivial
      exact fun _ => .inr (.inr trivial)
  | waitPrint idle point =>
      refine tracked.of_children (by simp [State.print]) ?_ trivial
      exact fun _ => .inr (.inr trivial)
  | waitNone idle point empty =>
      refine ⟨fun child member => ?_, empty⟩
      have absent : child ∈ state.children := member
      rw [empty] at absent
      cases absent
  | exit idle point =>
      simp only [Drained, point] at drained
      refine tracked.of_children (fun _ member => member) ?_ drained
      simp [Noticed, HandlerReaping, FinalLoop, idle, point]
  | fork idle point _ =>
      refine ⟨fun child member zombie => ?_, trivial⟩
      rcases List.mem_append.mp member with old | new
      · have before := tracked.noticed child old zombie
        simpa [Noticed, HandlerReaping, FinalLoop, idle, point] using before
      · rw [List.mem_singleton] at new
        subst new
        cases zombie
  | reap idle point _ _ =>
      exact tracked.of_children (fun _ member => List.mem_of_mem_eraseIdx member)
        (fun _ => .inr (.inr trivial)) trivial
  | deliver idle _ _ | handlerPost handler =>
      refine tracked.of_children (fun _ member => member) ?_ drained
      exact fun _ => .inr (.inl trivial)
  | handlerPrint handler =>
      refine tracked.of_children (by simp [State.print]) (fun _ => .inr (.inl trivial)) ?_
      simpa [Drained, State.print] using drained
  | handlerNone handler none =>
      refine ⟨fun child member zombie => ?_, drained⟩
      have running := none child member
      rw [zombie] at running
      cases running
  | handlerReap handler found _ =>
      exact tracked.of_children (fun _ member => List.mem_of_mem_eraseIdx member)
        (fun _ => .inr (.inl trivial)) (drained.of_found found rfl)
  | handlerLeave handler =>
      refine tracked.of_children (fun _ member => member) ?_ drained
      simp [Noticed, HandlerReaping, FinalLoop, handler]
  | compute found phase _ => exact tracked.of_running found rfl state.written
  | print found phase _ => exact tracked.of_running found rfl _
  | childExit found phase => exact tracked.of_ended found state.written
  | abort found phase _ => exact tracked.of_ended found _
  | kill found phase => exact tracked.of_ended found state.written

theorem tracked_of_reachable {maxChildren : ℕ} {queries : List (Query D)}
    (reachable : (system config computation maxChildren queries).Reachable state) :
    Tracked state := by
  refine reachable.invariant Tracked ?_ ?_
  · intro origin initial
    cases initial
    exact ⟨fun child member => absurd member List.not_mem_nil, trivial⟩
  · exact fun _ _ _ tracked stepped => tracked_of_step tracked stepped

/-- No end of a child is ever lost on the parent. -/
structure NoExitMissed (state : State config computation) : Prop where
  noticed : ∀ child ∈ state.children, child.phase = .zombie →
    state.pending = true ∨ HandlerReaping state ∨ FinalLoop state
  unblocked : ¬ (state.point = .semWait ∧ state.semaphore = 0 ∧
    (∀ child ∈ state.children, child.phase = .zombie) ∧ state.pending = false ∧
      state.handler = .idle)
  empty : state.point = .exit ∨ state.point = .exited → state.children = []

theorem noExitMissed_of_reachable {maxChildren : ℕ} {queries : List (Query D)}
    (positive : 0 < maxChildren)
    (reachable : (system config computation maxChildren queries).Reachable state) :
    NoExitMissed state := by
  have tracked := tracked_of_reachable reachable
  refine ⟨tracked.noticed, ?_, ?_⟩
  · intro ended
    obtain ⟨point, none, zombies, quiet, idle⟩ := ended
    have balance := slots_of_reachable reachable
    simp only [slots, held, unposted, point, idle] at balance
    have some : 0 < state.children.length := by omega
    have first := List.getElem_mem some
    rcases tracked.noticed _ first (zombies _ first) with pending | reaping | final
    · rw [quiet] at pending
      cases pending
    · simp [HandlerReaping, idle] at reaping
    · simp [FinalLoop, point] at final
  · have drained := tracked.drained
    intro waiting
    rcases waiting with point | point
    · simpa only [Drained, point] using drained
    · simpa only [Drained, point] using drained

end Reaping

section Programs

variable {D : Type} [Zero D] [NatCast D] [Add D] [Sub D] [Mul D] [Div D]

/-- In both programs the free slots, the children that are not reaped, the slot
in the parent's hands and those about to be posted add up to `MAX_CHILDREN`. -/
theorem slot_conservation (config : Config) (format : Format D) (queries : List (Query D)) :
    (∀ state, (process config format queries).Reachable state →
      state.semaphore + state.children.length + held state.point + unposted state = 10 ∧
        state.children.length ≤ 10) ∧
    (∀ state, (processThread config format queries).Reachable state →
      state.semaphore + state.children.length + held state.point + unposted state = 4 ∧
        state.children.length ≤ 4) := by
  constructor
  · intro state reachable
    have balance : slots state = 10 := slots_of_reachable reachable
    simp only [slots] at balance
    omega
  · intro state reachable
    have balance : slots state = 4 := slots_of_reachable reachable
    simp only [slots] at balance
    omega

theorem no_exit_missed (config : Config) (format : Format D) (queries : List (Query D)) :
    (∀ state, (process config format queries).Reachable state → NoExitMissed state) ∧
    (∀ state, (processThread config format queries).Reachable state → NoExitMissed state) :=
  ⟨fun _ reachable => noExitMissed_of_reachable (by decide) reachable,
    fun _ reachable => noExitMissed_of_reachable (by decide) reachable⟩

def sampleFormat : Format ℤ where
  g _ := []
  g10 _ := []

def sampleQuery : Query ℤ where
  funcName := "sin"
  func x := x
  rangeStart := 0
  rangeEnd := 1
  numSteps := 1

private theorem processThread_forks :
    ∃ state, (processThread .terminal sampleFormat [sampleQuery]).Reachable state ∧
      state.children.length = 1 ∧ state.semaphore = 3 := by
  obtain ⟨state, executed, forked⟩ : ∃ state,
      (processThread .terminal sampleFormat [sampleQuery]).execute
        (start .terminal _ 4 [sampleQuery]) [.parent, .parent, .parent, .parent, .fork 7] =
          some state ∧
      state.children.length = 1 ∧ state.semaphore = 3 := ⟨_, rfl, rfl, rfl⟩
  exact ⟨state, (System.Reachable.of_initial rfl).execute executed, forked⟩

theorem slot_conservation_forked :
    ∃ state, (processThread .terminal sampleFormat [sampleQuery]).Reachable state ∧
      state.children.length = 1 ∧ state.semaphore = 3 ∧
      held state.point + unposted state = 0 := by
  obtain ⟨state, reachable, children, semaphore⟩ := processThread_forks
  have balance := ((slot_conservation .terminal sampleFormat [sampleQuery]).2 state reachable).1
  exact ⟨state, reachable, children, semaphore, by omega⟩

/-- A child that was killed while the parent waits for its next query. -/
theorem no_exit_missed_killed :
    ∃ state, (processThread .terminal sampleFormat [sampleQuery]).Reachable state ∧
      (∃ child ∈ state.children, child.phase = .zombie) ∧ NoExitMissed state ∧
      (state.pending = true ∨ HandlerReaping state ∨ FinalLoop state) := by
  have reached : ∃ state child,
      (processThread .terminal sampleFormat [sampleQuery]).execute
        (start .terminal _ 4 [sampleQuery])
          [.parent, .parent, .parent, .parent, .fork 7, .parent, .kill 0] = some state ∧
      state.children = [child] ∧ child.phase = .zombie := ⟨_, _, rfl, rfl, rfl⟩
  obtain ⟨state, child, executed, children, zombie⟩ := reached
  have reachable : (processThread .terminal sampleFormat [sampleQuery]).Reachable state :=
    (System.Reachable.of_initial rfl).execute executed
  have member : child ∈ state.children := by
    rw [children]
    exact List.mem_singleton_self child
  have missed := (no_exit_missed .terminal sampleFormat [sampleQuery]).2 state reachable
  exact ⟨state, reachable, ⟨child, member, zombie⟩, missed, missed.noticed child member zombie⟩

end Programs

end Ence360.Assignment.ChildPool
