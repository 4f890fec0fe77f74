import Ence360.Assignment.ChildPoolOutputProperties
import Ence360.Assignment.ChildPoolProgressProperties
import Ence360.Assignment.IntegrateProperties
import Ence360.Assignment.QueryLoopProperties
import Ence360.Assignment.WorkersProperties

/-!
# Threaded and serial totals

What `thread.c` and `processThread.c` print for a query, compared with the value
of the serial `integrateTrap`, over exact numbers with an undefined value.
-/

set_option autoImplicit false

namespace Ence360.Assignment

open Semantics Stdio WithUndefined IndexedList

def Agrees (query : Query (WithUndefined ℚ)) (total : WithUndefined ℚ) : Prop :=
  ∃ value, total = of value ∧ query.serialArea = of value

variable {threads : ℕ} {format : Format (WithUndefined ℚ)} {config : Config}

/-- A session that is ready to print holds the serial value exactly when no
worker was left without a step. -/
theorem agrees_iff_of_ready {session : Session (WithUndefined ℚ)} {query : AcceptedQuery ℚ}
    (workers : 0 < threads) (valid : session.Valid threads)
    (point : session.point = .ready query.extended) :
    Agrees query.extended session.shared.total ↔ threads ≤ query.numSteps := by
  rw [Session.total_of_ready valid point]
  constructor
  · intro agrees
    obtain ⟨value, total, serial⟩ := agrees
    rw [serialArea_extended query.toQuery query.positive] at serial
    rw [← serial] at total
    exact (sum_partition_extended_iff query.toQuery query.positive workers).mp total
  · intro enough
    refine ⟨query.serialArea, ?_, serialArea_extended query.toQuery query.positive⟩
    exact (sum_partition_extended_iff query.toQuery query.positive workers).mpr enough

def inputs (queries : List (AcceptedQuery ℚ)) : List (Query (WithUndefined ℚ)) :=
  queries.map fun query => query.extended

private theorem agrees_iff_of_input (queries : List (AcceptedQuery ℚ))
    {session : Session (WithUndefined ℚ)} {query : Query (WithUndefined ℚ)} (workers : 0 < threads)
    (valid : session.Valid threads) (point : session.point = .ready query)
    (input : query ∈ inputs queries) :
    Agrees query session.shared.total ↔ threads ≤ query.numSteps := by
  obtain ⟨accepted, _, rfl⟩ := List.mem_map.mp input
  exact agrees_iff_of_ready workers valid point

namespace QueryLoop

def printedTotal :
    State config (threadComputation threads format) × Action (threadComputation threads format) →
      Option (Query (WithUndefined ℚ) × WithUndefined ℚ)
  | (state, .main) =>
      let session : Session (WithUndefined ℚ) := state.memory
      match state.point, session.point with
      | .computing, .ready query => some (query, session.shared.total)
      | _, _ => none
  | (_, .compute _) => none

def unprinted (state : State config (threadComputation threads format)) :
    List (Query (WithUndefined ℚ)) :=
  match state.point with
  | .computing | .failed => (Session.query? state.memory).toList ++ state.remaining
  | .prompt | .getValidInput | .exited => state.remaining

private theorem printedTotal_eq_some
    {event : State config (threadComputation threads format) ×
      Action (threadComputation threads format)}
    {printed : Query (WithUndefined ℚ) × WithUndefined ℚ}
    (found : printedTotal event = some printed) :
    event.1.point = .computing ∧
      (event.1.memory : Session (WithUndefined ℚ)).point = .ready printed.1 ∧
        (event.1.memory : Session (WithUndefined ℚ)).shared.total = printed.2 := by
  obtain ⟨state, action⟩ := event
  cases action with
  | main =>
      simp only [printedTotal] at found
      split at found
      · next point ready =>
          cases found
          exact ⟨point, ready, rfl⟩
      · cases found
  | compute action => cases found

variable {pid : ℕ} {queries : List (Query (WithUndefined ℚ))}
  {state next : State config (threadComputation threads format)}
  {events : List (State config (threadComputation threads format) ×
    Action (threadComputation threads format))}
  {action : Action (threadComputation threads format)}

private theorem inOrder_of_silent
    (inOrder : (events.filterMap printedTotal).map (·.1) ++ unprinted state = queries)
    (silent : printedTotal (state, action) = none) (same : unprinted next = unprinted state) :
    ((events ++ [(state, action)]).filterMap printedTotal).map (·.1) ++ unprinted next =
      queries := by
  rw [List.filterMap_append, List.filterMap_cons_none silent, List.filterMap_nil,
    List.append_nil, same]
  exact inOrder

private theorem inOrder_of_step
    (inOrder : (events.filterMap printedTotal).map (·.1) ++ unprinted state = queries)
    (stepped : step pid state action = some next) :
    ((events ++ [(state, action)]).filterMap printedTotal).map (·.1) ++ unprinted next =
      queries := by
  cases step_eq_some_iff.mp stepped with
  | prompt point =>
      exact inOrder_of_silent inOrder (by simp [printedTotal, point])
        (by simp [unprinted, point, State.print])
  | exit point remaining =>
      exact inOrder_of_silent inOrder (by simp [printedTotal, point]) (by simp [unprinted, point])
  | accept point remaining =>
      refine inOrder_of_silent inOrder (by simp [printedTotal, point]) ?_
      simp [unprinted, point, remaining, threadComputation, Session.enter, Session.query?]
  | print point line =>
      obtain ⟨query, ready⟩ := Session.ready_of_line pid line
      have loud : printedTotal (state, .main) =
          some (query, (state.memory : Session (WithUndefined ℚ)).shared.total) := by
        simp only [printedTotal, point]
        rw [ready]
      have pending : unprinted state = query :: state.remaining := by
        simp [unprinted, point, Session.query?, ready]
      rw [pending] at inOrder
      rw [List.filterMap_append, List.filterMap_cons_some loud, List.filterMap_nil,
        List.map_append, List.append_assoc]
      simpa [unprinted, State.print] using inOrder
  | abort point _ failed =>
      refine inOrder_of_silent inOrder ?_ (by simp [unprinted, point])
      obtain ⟨query, broken⟩ := Session.point_of_failed failed
      simp only [printedTotal, point]
      rw [broken]
  | compute point moved =>
      refine inOrder_of_silent inOrder rfl ?_
      simp only [unprinted, point]
      rw [Session.query?_of_step moved]

/-- The results are printed in the order of the queries, none left out. -/
theorem printed_append_unprinted
    (run : (system config (threadComputation threads format) pid queries).Run
      (start config (threadComputation threads format) queries) events state) :
    (events.filterMap printedTotal).map (·.1) ++ unprinted state = queries :=
  run.history (fun _ _ => True)
    (fun events state => (events.filterMap printedTotal).map (·.1) ++ unprinted state = queries)
    (fun _ _ _ _ inOrder _ stepped => inOrder_of_step inOrder stepped) (fun _ _ => trivial) rfl

/-- The result of a query does not depend on the queries before it or on the
order in which the workers take the mutex. -/
theorem agrees_iff_of_printed {queries : List (AcceptedQuery ℚ)} (workers : 0 < threads)
    (run : (system config (threadComputation threads format) pid (inputs queries)).Run
      (start config (threadComputation threads format) (inputs queries)) events state)
    {printed : Query (WithUndefined ℚ) × WithUndefined ℚ}
    (member : printed ∈ events.filterMap printedTotal) :
    Agrees printed.1 printed.2 ↔ threads ≤ printed.1.numSteps := by
  obtain ⟨event, occurred, found⟩ := List.mem_filterMap.mp member
  obtain ⟨before, source⟩ := run.source_of_mem occurred
  obtain ⟨point, ready, total⟩ := printedTotal_eq_some found
  have valid := memoryValid_of_reachable (threadLive threads format) ⟨_, _, rfl, source⟩
  simp only [MemoryValid, point] at valid
  rw [← total]
  refine agrees_iff_of_input queries workers valid.1 ready ?_
  rw [← printed_append_unprinted source]
  simp [unprinted, point, Session.query?, ready]

end QueryLoop

namespace ChildPool

def printedTotal :
    State config (threadComputation threads format) × Action (threadComputation threads format) →
      Option (Query (WithUndefined ℚ) × WithUndefined ℚ)
  | (state, .print k) =>
      state.children[k]?.bind fun child =>
        match child.phase with
        | .computing memory =>
            let session : Session (WithUndefined ℚ) := memory
            match session.point with
            | .ready query => some (query, session.shared.total)
            | .idle | .creating _ _ _ | .joining _ _ | .failed _ => none
        | .printed | .zombie => none
  | _ => none

variable {queries : List (Query (WithUndefined ℚ))}
  {state next : State config (threadComputation threads format)}
  {events : List (State config (threadComputation threads format) ×
    Action (threadComputation threads format))}
  {action : Action (threadComputation threads format)}

structure FromInput (queries : List (Query (WithUndefined ℚ)))
    (state : State config (threadComputation threads format)) : Prop where
  remaining : ∀ query ∈ state.remaining, query ∈ queries
  forking : ∀ index query, state.point = .fork index query → query ∈ queries
  computing : EachMemory (fun memory => ∀ query ∈ Session.query? memory, query ∈ queries) state

private theorem FromInput.of_remaining (known : FromInput queries state)
    (remaining : next.remaining = state.remaining)
    (forking : ∀ index query, next.point = .fork index query → query ∈ queries)
    (computing : EachMemory (fun memory => ∀ query ∈ Session.query? memory, query ∈ queries) next) :
    FromInput queries next :=
  ⟨remaining ▸ known.remaining, forking, computing⟩

theorem fromInput_of_step (known : FromInput queries state)
    (stepped : step state action = some next) : FromInput queries next := by
  have computing : EachMemory (fun memory => ∀ query ∈ Session.query? memory, query ∈ queries)
      next := by
    refine eachMemory_of_step known.computing stepped ?_ ?_
    · intro index query point current member
      cases member
      exact known.forking index query point
    · intro _ _ memory after _ before moved
      rw [Session.query?_of_step moved]
      exact before
  cases transition_of_step stepped with
  | sigaction | sigactionFails | semWait | endOfInput | fork | forkFails | forkError | forkPost
  | waitNone | reap | waitPost | waitFlush | exit =>
      exact known.of_remaining rfl (by simp) computing
  | prompt | spawned | waitPrint =>
      exact known.of_remaining (by simp [State.print]) (by simp) computing
  | accept idle point remaining =>
      have input := known.remaining
      rw [remaining] at input
      refine ⟨fun query member => input query (List.mem_cons_of_mem _ member), ?_, computing⟩
      intro index query forking
      cases forking
      exact input _ List.mem_cons_self
  | deliver | handlerNone | handlerReap | handlerPost | handlerLeave | compute | print | childExit
  | abort | kill => exact known.of_remaining rfl known.forking computing
  | handlerPrint =>
      refine known.of_remaining (by simp [State.print]) ?_ computing
      simpa [State.print] using known.forking

theorem fromInput_of_reachable {maxChildren : ℕ}
    (reachable : (system config (threadComputation threads format) maxChildren queries).Reachable
      state) : FromInput queries state := by
  refine reachable.invariant (FromInput queries) ?_ ?_
  · intro origin initial
    cases initial
    refine ⟨fun _ member => member, by simp [start], ?_⟩
    exact fun child member => absurd member List.not_mem_nil
  · exact fun _ _ _ known stepped => fromInput_of_step known stepped

private theorem printedTotal_eq_some
    {event : State config (threadComputation threads format) ×
      Action (threadComputation threads format)}
    {printed : Query (WithUndefined ℚ) × WithUndefined ℚ}
    (found : printedTotal event = some printed) :
    ∃ child ∈ event.1.children, ∃ session : Session (WithUndefined ℚ),
      child.phase = .computing session ∧ session.point = .ready printed.1 ∧
        session.shared.total = printed.2 := by
  obtain ⟨state, action⟩ := event
  cases action with
  | print k =>
      obtain ⟨child, lookup, found⟩ := Option.bind_eq_some_iff.mp found
      refine ⟨child, List.mem_of_getElem? lookup, ?_⟩
      split at found
      · next memory phase =>
          dsimp only at found
          split at found
          · next query ready =>
              cases found
              exact ⟨memory, phase, ready, rfl⟩
          all_goals cases found
      all_goals cases found
  | parent | sigactionFails | fork | forkFails | reap | deliver | handler | handlerReap | compute
  | exit | abort | kill => cases found

theorem agrees_iff_of_printed {maxChildren : ℕ} {queries : List (AcceptedQuery ℚ)}
    (workers : 0 < threads)
    (run : (system config (threadComputation threads format) maxChildren (inputs queries)).Run
      (start config (threadComputation threads format) maxChildren (inputs queries)) events state)
    {printed : Query (WithUndefined ℚ) × WithUndefined ℚ}
    (member : printed ∈ events.filterMap printedTotal) :
    printed.1 ∈ inputs queries ∧
      (Agrees printed.1 printed.2 ↔ threads ≤ printed.1.numSteps) := by
  obtain ⟨event, occurred, found⟩ := List.mem_filterMap.mp member
  obtain ⟨before, source⟩ := run.source_of_mem occurred
  obtain ⟨child, alive, session, phase, ready, total⟩ := printedTotal_eq_some found
  have reachable : (system config (threadComputation threads format) maxChildren
      (inputs queries)).Reachable event.1 := ⟨_, _, rfl, source⟩
  have busy := busy_of_reachable (threadLive threads format) reachable child alive session phase
  have input : printed.1 ∈ inputs queries :=
    (fromInput_of_reachable reachable).computing child alive session phase _
      (by simp [Session.query?, ready])
  refine ⟨input, ?_⟩
  rw [← total]
  exact agrees_iff_of_input queries workers busy.1 ready input

section Pending

/-- The query whose result a child has yet to print. -/
def Child.pending (child : Child config (threadComputation threads format)) :
    Multiset (Query (WithUndefined ℚ)) :=
  match child.phase with
  | .computing memory => (Session.query? memory).toList
  | .printed | .zombie => 0

def forking : ParentPoint (WithUndefined ℚ) → Multiset (Query (WithUndefined ℚ))
  | .fork _ query => {query}
  | _ => 0

def pending (state : State config (threadComputation threads format)) :
    Multiset (Query (WithUndefined ℚ)) :=
  (state.children.map Child.pending).sum + forking state.point + state.remaining

def printed (events : List (State config (threadComputation threads format) ×
    Action (threadComputation threads format))) : Multiset (Query (WithUndefined ℚ)) :=
  ((events.filterMap printedTotal).map (·.1) : List (Query (WithUndefined ℚ)))

private theorem printed_of_silent (silent : printedTotal (state, action) = none) :
    printed (events ++ [(state, action)]) = printed events := by
  rw [printed, List.filterMap_append, List.filterMap_cons_none silent, List.filterMap_nil,
    List.append_nil, printed]

private theorem printed_of_loud {result : Query (WithUndefined ℚ) × WithUndefined ℚ}
    (loud : printedTotal (state, action) = some result) :
    printed (events ++ [(state, action)]) = printed events + {result.1} := by
  rw [printed, List.filterMap_append, List.filterMap_cons_some loud, List.filterMap_nil,
    List.map_append, ← Multiset.coe_add, printed]
  rfl

private theorem sum_pending_reap {k : ℕ}
    {child : Child config (threadComputation threads format)}
    (found : state.children[k]? = some child) (zombie : child.phase = .zombie) :
    ((state.removeChild k).children.map Child.pending).sum =
      (state.children.map Child.pending).sum := by
  have none : child.pending = 0 := by simp [Child.pending, zombie]
  have sum := @sum_map_eraseIdx _ _ _ _ _ _ Child.pending found
  rwa [none, add_zero] at sum

private theorem pending_set {k : ℕ}
    {child replaced : Child config (threadComputation threads format)}
    (found : state.children[k]? = some child) (same : replaced.pending = child.pending) :
    pending (state.setChild k replaced) = pending state := by
  rw [pending, State.setChild, map_set_of_eq found same, pending]

/-- A step without a fault prints the result of a query or leaves it pending. -/
theorem printed_add_pending_of_step
    (healthy : EachMemory (fun memory => (threadComputation threads format).failed memory = false)
      state) (faultless : action.fault = false) (stepped : step state action = some next) :
    printed (events ++ [(state, action)]) + pending next = printed events + pending state := by
  cases transition_of_step stepped with
  | sigactionFails | forkFails | kill => cases faultless
  | sigaction _ point | semWait _ point _ | endOfInput _ point _ | forkError _ point
  | forkPost _ point | waitNone _ point _ | waitPost _ point | waitFlush _ point | exit _ point =>
      rw [printed_of_silent rfl]
      simp [pending, forking, point]
  | prompt _ point | spawned _ point | waitPrint _ point =>
      rw [printed_of_silent rfl]
      simp [pending, forking, State.print, point]
  | @accept query rest _ point remaining =>
      have taken : ((query :: rest : List _) : Multiset (Query (WithUndefined ℚ))) =
          {query} + (rest : Multiset (Query (WithUndefined ℚ))) := rfl
      rw [printed_of_silent rfl]
      simp only [pending, forking, point, remaining, taken, add_zero, add_assoc]
  | @fork index pid query _ point _ =>
      have entered : Session.query? ((threadComputation threads format).enter
        (threadComputation threads format).initial query) = some query := rfl
      rw [printed_of_silent rfl]
      simp [pending, forking, point, Child.pending, entered]
  | reap _ point found zombie =>
      rw [printed_of_silent rfl]
      simp only [pending, sum_pending_reap found zombie, forking, point]
      rfl
  | handlerReap _ found zombie =>
      rw [printed_of_silent rfl]
      simp only [pending, sum_pending_reap found zombie]
      rfl
  | deliver | handlerNone | handlerPost | handlerLeave =>
      rw [printed_of_silent rfl]
      rfl
  | handlerPrint _ =>
      rw [printed_of_silent rfl]
      simp [pending, State.print]
  | compute found phase moved =>
      rw [printed_of_silent rfl, pending_set found]
      simp only [Child.pending, phase]
      rw [Session.query?_of_step moved]
  | @print k child memory text found phase line =>
      obtain ⟨query, ready⟩ := Session.ready_of_line child.pid line
      have loud : printedTotal (state, .print k) =
          some (query, (memory : Session (WithUndefined ℚ)).shared.total) := by
        simp only [printedTotal, found, Option.bind_some, phase]
        rw [ready]
      have waiting : child.pending = {query} := by
        simp only [Child.pending, phase, Session.query?]
        rw [ready]
        rfl
      let after : Child config (threadComputation threads format) :=
        { child with
          phase := .printed
          buffer := (child.buffer.print (tag (.result child.index) text)).buffer }
      have none : after.pending = 0 := rfl
      have sum := @sum_map_set _ _ _ _ _ _ Child.pending after found
      rw [none, waiting, add_zero] at sum
      rw [printed_of_loud loud]
      simp only [pending, State.setChild, ← sum]
      abel
  | childExit found phase =>
      rw [printed_of_silent rfl]
      exact congrArg _ (pending_set found (by simp [Child.pending, phase]))
  | abort found phase failed =>
      rw [healthy _ (List.mem_of_getElem? found) _ phase] at failed
      cases failed

/-- A run without faults that ends has printed the result of every query once. -/
theorem printed_of_exited {maxChildren : ℕ}
    (run : (system config (threadComputation threads format) maxChildren queries).Run
      (start config (threadComputation threads format) maxChildren queries) events state)
    (faultless : ∀ event ∈ events, event.2.fault = false) (exited : state.point = .exited) :
    ((events.filterMap printedTotal).map (·.1)).Perm queries := by
  have accounted : printed events + pending state = queries ∧
      EachMemory (fun memory => (threadComputation threads format).failed memory = false)
        state := by
    refine run.history (fun _ action => action.fault = false)
      (fun events state => printed events + pending state = queries ∧
        EachMemory (fun memory => (threadComputation threads format).failed memory = false) state)
      ?_ faultless ⟨?_, fun child member => absurd member List.not_mem_nil⟩
    · rintro events state action next ⟨accounted, healthy⟩ faultless stepped
      refine ⟨?_, healthy_of_step (threadReliable threads format) healthy faultless stepped⟩
      rw [printed_add_pending_of_step healthy faultless stepped, accounted]
    · simp [printed, pending, forking, start]
  have reachable : (system config (threadComputation threads format) maxChildren
      queries).Reachable state := ⟨_, _, rfl, run⟩
  have drained := (tracked_of_reachable reachable).drained
  have read := inputRead_of_reachable reachable
  simp only [Drained, InputRead, exited] at drained read
  have none : pending state = 0 := by simp [pending, drained, read, forking, exited]
  rw [none, add_zero] at accounted
  exact Multiset.coe_eq_coe.mp accounted.1

end Pending

end ChildPool

/-- `thread.c` and `processThread.c` print the serial value of a query exactly
when it has at least as many steps as there are workers; every run ends, and not
before the results are printed. -/
theorem totals_agree_iff (config : Config) (format : Format (WithUndefined ℚ)) (pid : ℕ)
    (queries : List (AcceptedQuery ℚ)) :
    (∀ events state,
      (thread config format pid (inputs queries)).Run
        (QueryLoop.start config _ (inputs queries)) events state →
      (∀ printed ∈ events.filterMap QueryLoop.printedTotal,
        (Agrees printed.1 printed.2 ↔ 7 ≤ printed.1.numSteps)) ∧
      (events.filterMap QueryLoop.printedTotal).map (·.1) <+: inputs queries ∧
      (state.point = .exited →
        (events.filterMap QueryLoop.printedTotal).map (·.1) = inputs queries) ∧
      events.length ≤ queries.length * 54 + 2 ∧
      ((thread config format pid (inputs queries)).Stuck state →
        state.point = .exited ∨ state.point = .failed)) ∧
    (∀ events state,
      (processThread config format (inputs queries)).Run
        (ChildPool.start config _ 4 (inputs queries)) events state →
      (∀ printed ∈ events.filterMap ChildPool.printedTotal,
        printed.1 ∈ inputs queries ∧ (Agrees printed.1 printed.2 ↔ 4 ≤ printed.1.numSteps)) ∧
      ((∀ event ∈ events, event.2.fault = false) → state.point = .exited →
        ((events.filterMap ChildPool.printedTotal).map (·.1)).Perm (inputs queries)) ∧
      events.length ≤ queries.length * 43 + 6 ∧
      (state.point ≠ .exited ∧ state.point ≠ .failed → ChildPool.Enabled state)) := by
  have length : (inputs queries).length = queries.length := List.length_map _
  constructor
  · intro events state run
    have inOrder := QueryLoop.printed_append_unprinted run
    refine ⟨fun printed => QueryLoop.agrees_iff_of_printed (by decide) run,
      ⟨_, inOrder⟩, ?_, ?_, ?_⟩
    · intro exited
      have remaining := QueryLoop.remaining_of_exited ⟨_, _, rfl, run⟩ exited
      simpa [QueryLoop.unprinted, exited, remaining] using inOrder
    · have bound := QueryLoop.run_length_le (threadBounded 7 format) run
      rwa [length] at bound
    · exact QueryLoop.exited_or_failed_of_stuck (threadLive 7 format) ⟨_, _, rfl, run⟩
  · intro events state run
    refine ⟨fun printed => ChildPool.agrees_iff_of_printed (by decide) run,
      ChildPool.printed_of_exited run, ?_, ?_⟩
    · have bound := ChildPool.run_length_le (threadBounded 4 format) run
      rwa [length] at bound
    · exact ChildPool.enabled_of_reachable (threadLive 4 format) (by decide) ⟨_, _, rfl, run⟩

private theorem thread_prints (config : Config) (format : Format (WithUndefined ℚ)) (pid : ℕ)
    (query : AcceptedQuery ℚ) :
    ∃ events state total,
      (thread config format pid (inputs [query])).Run
        (QueryLoop.start config _ (inputs [query])) events state ∧
      (query.extended, total) ∈ events.filterMap QueryLoop.printedTotal := by
  obtain ⟨events, state, run, exited⟩ :=
    QueryLoop.exists_run_to_exit (threadLive 7 format) (threadReliable 7 format)
      (threadBounded 7 format) config pid (inputs [query])
  have inOrder := QueryLoop.printed_append_unprinted run
  have remaining := QueryLoop.remaining_of_exited ⟨_, _, rfl, run⟩ exited
  simp only [QueryLoop.unprinted, exited, remaining, List.append_nil] at inOrder
  have member : query.extended ∈ (events.filterMap QueryLoop.printedTotal).map (·.1) := by
    rw [inOrder]
    exact List.mem_singleton.mpr rfl
  obtain ⟨⟨_, total⟩, member, rfl⟩ := List.mem_map.mp member
  exact ⟨events, state, total, run, member⟩

def identityQuery (numSteps : ℕ) (positive : 0 < numSteps) : AcceptedQuery ℚ where
  funcName := "sin"
  func x := x
  rangeStart := 0
  rangeEnd := 1
  numSteps := numSteps
  ordered := by norm_num
  positive := positive

def blankFormat : Format (WithUndefined ℚ) where
  g _ := []
  g10 _ := []

/-- Six of the seven workers of `thread.c` get no step of a query of one step. -/
theorem not_totals_agree_one :
    ∃ events state printed,
      (thread .terminal blankFormat 1 (inputs [identityQuery 1 (by decide)])).Run
        (QueryLoop.start .terminal _ (inputs [identityQuery 1 (by decide)])) events state ∧
      printed ∈ events.filterMap QueryLoop.printedTotal ∧ ¬ Agrees printed.1 printed.2 := by
  obtain ⟨events, state, total, run, member⟩ :=
    thread_prints .terminal blankFormat 1 (identityQuery 1 (by decide))
  refine ⟨events, state, _, run, member, ?_⟩
  rw [QueryLoop.agrees_iff_of_printed (by decide) run member]
  exact (by decide : ¬ 7 ≤ 1)

theorem totals_agree_seven :
    ∃ events state printed,
      (thread .terminal blankFormat 1 (inputs [identityQuery 7 (by decide)])).Run
        (QueryLoop.start .terminal _ (inputs [identityQuery 7 (by decide)])) events state ∧
      printed ∈ events.filterMap QueryLoop.printedTotal ∧ Agrees printed.1 printed.2 := by
  obtain ⟨events, state, total, run, member⟩ :=
    thread_prints .terminal blankFormat 1 (identityQuery 7 (by decide))
  have totals := (totals_agree_iff .terminal blankFormat 1 [identityQuery 7 (by decide)]).1
    events state run
  exact ⟨events, state, _, run, member, (totals.1 _ member).mpr (le_refl 7)⟩

end Ence360.Assignment
