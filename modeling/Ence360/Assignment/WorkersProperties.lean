import Ence360.Assignment.Workers

/-!
# The workers of a query

The session of a query adds the area of every worker once to the shared total, in
whatever order they take the mutex, and it goes on until the total is there.
-/

set_option autoImplicit false

namespace Ence360.Assignment

open Semantics LockedSum

namespace Session

theorem joined_eq_true_iff {D : Type} {session : Session D} {i : ℕ} :
    session.joined i = true ↔
      ∃ worker, session.shared.workers[i]? = some worker ∧ worker.point = .finished := by
  unfold Session.joined
  split
  · next found => simp [found]
  · next worker unfinished found =>
      constructor
      · intro impossible
        cases impossible
      · intro finished
        obtain ⟨⟨task, point⟩, lookup, rfl⟩ := finished
        rw [found] at lookup
        exact (unfinished task (Option.some.inj lookup)).elim
  · next missing => simp [missing]

def AllFinished {D : Type} (session : Session D) (count : ℕ) : Prop :=
  ∀ i < count, session.joined i = true

private theorem finished_of_allFinished {D : Type} {session : Session D} {count : ℕ}
    (finished : session.AllFinished count)
    (length : session.shared.workers.length = count) :
    ∀ worker ∈ session.shared.workers, worker.point = .finished := by
  intro worker member
  obtain ⟨i, inside, rfl⟩ := List.mem_iff_getElem.mp member
  obtain ⟨found, lookup, point⟩ := joined_eq_true_iff.mp (finished i (length ▸ inside))
  rw [List.getElem?_eq_getElem inside] at lookup
  cases lookup
  exact point

section Transitions

variable {D : Type} [Zero D] [NatCast D] [Add D] [Sub D] [Mul D] [Div D]
variable {threads : ℕ} {session next : Session D}

inductive Transition (threads : ℕ) (session : Session D) : SessionAction → Session D → Prop where
  | create {query : Query D} {i : ℕ} {currentStart : D} :
      session.point = .creating query i currentStart → i < threads →
      Transition threads session .main
        { shared := session.shared.spawn (threadArgs threads query currentStart i)
          point := .creating query (i + 1) (threadArgs threads query currentStart i).finish }
  | created {query : Query D} {i : ℕ} {currentStart : D} :
      session.point = .creating query i currentStart → ¬ i < threads →
      Transition threads session .main { session with point := .joining query 0 }
  | createFails {query : Query D} {i : ℕ} {currentStart : D} :
      session.point = .creating query i currentStart → i < threads →
      Transition threads session .createFails { session with point := .failed query }
  | join {query : Query D} {i : ℕ} :
      session.point = .joining query i → i < threads → session.joined i = true →
      Transition threads session .main { session with point := .joining query (i + 1) }
  | joined {query : Query D} {i : ℕ} :
      session.point = .joining query i → ¬ i < threads →
      Transition threads session .main { session with point := .ready query }
  | worker {i : ℕ} {shared : LockedSum.State (ThreadArgs D) D} :
      LockedSum.step ThreadArgs.area session.shared i = some shared →
      Transition threads session (.worker i) { session with shared }

theorem step_eq_some_iff {action : SessionAction} :
    step threads session action = some next ↔ Transition threads session action next := by
  constructor
  · intro stepped
    cases action with
    | main =>
        cases point : session.point with
        | creating query i currentStart =>
            simp only [step, point] at stepped
            split at stepped
            · next more =>
                cases stepped
                exact .create point more
            · next done =>
                cases stepped
                exact .created point done
        | joining query i =>
            simp only [step, point] at stepped
            split at stepped
            · next more =>
                split at stepped
                · next finished =>
                    cases stepped
                    exact .join point more finished
                · cases stepped
            · next done =>
                cases stepped
                exact .joined point done
        | idle | ready | failed => simp [step, point] at stepped
    | createFails =>
        cases point : session.point with
        | creating query i currentStart =>
            simp only [step, point] at stepped
            split at stepped
            · next more =>
                cases stepped
                exact .createFails point more
            · cases stepped
        | idle | joining | ready | failed => simp [step, point] at stepped
    | worker i =>
        simp only [step, Option.map_eq_some_iff] at stepped
        obtain ⟨shared, stepped, rfl⟩ := stepped
        exact .worker stepped
  · intro transition
    cases transition <;> simp [step, *]

omit [Zero D] [NatCast D] [Add D] [Sub D] [Mul D] [Div D] in
theorem ready_of_line {format : Format D} (pid : ℕ) {text : List Char}
    (printed : session.line format pid = some text) :
    ∃ query, session.point = .ready query := by
  unfold Session.line at printed
  split at printed
  · next query point => exact ⟨query, point⟩
  all_goals cases printed

omit [Zero D] [NatCast D] [Add D] [Sub D] [Mul D] [Div D] in
theorem point_of_failed (failed : session.failed = true) :
    ∃ query, session.point = .failed query := by
  unfold Session.failed at failed
  split at failed
  · next query point => exact ⟨query, point⟩
  all_goals cases failed

def query? (session : Session D) : Option (Query D) :=
  match session.point with
  | .creating query _ _ | .joining query _ | .ready query | .failed query => some query
  | .idle => none

theorem query?_of_step {action : SessionAction}
    (stepped : step threads session action = some next) : next.query? = session.query? := by
  cases step_eq_some_iff.mp stepped with
  | create point _ | created point _ | createFails point _ | join point _ _ | joined point _ =>
      simp [query?, point]
  | worker moved => rfl

/-- Bounds the number of steps until the total can be printed. -/
def measure (threads : ℕ) (session : Session D) : ℕ :=
  session.shared.remaining +
    match session.point with
    | .creating _ i _ => 6 * (threads - i) + threads + 2
    | .joining _ i => threads - i + 1
    | .idle | .ready _ | .failed _ => 0

theorem measure_lt_of_step {action : SessionAction}
    (stepped : step threads session action = some next) :
    next.measure threads < session.measure threads := by
  cases step_eq_some_iff.mp stepped with
  | create point more =>
      simp only [measure, point, State.spawn, State.remaining, List.map_append, List.sum_append,
        List.map_singleton, List.sum_singleton, Point.remaining]
      omega
  | created point done =>
      simp only [measure, point]
      omega
  | createFails point more =>
      simp only [measure, point]
      omega
  | join point more finished =>
      simp only [measure, point]
      omega
  | joined point done =>
      simp only [measure, point]
      omega
  | worker moved =>
      have fewer := remaining_of_step moved
      simp only [measure]
      omega

end Transitions

section Totals

variable {D : Type} [AddCommMonoid D] [NatCast D] [Sub D] [Mul D] [Div D]
variable {threads : ℕ} {session next : Session D}

def tasksBefore (threads : ℕ) (query : Query D) (count : ℕ) : List (ThreadArgs D) :=
  (List.range count).map fun i => threadArgs threads query (currentStart threads query i) i

/-- What the main thread relies on at its point. -/
def PointValid (threads : ℕ) (session : Session D) : Prop :=
  match session.point with
  | .idle => session.shared.workers = []
  | .creating query i start =>
      i ≤ threads ∧ start = currentStart threads query i ∧
        session.shared.workers.map (·.task) = tasksBefore threads query i
  | .joining query i =>
      i ≤ threads ∧ session.shared.workers.map (·.task) = partition threads query ∧
        session.AllFinished i
  | .ready query =>
      session.shared.workers.map (·.task) = partition threads query ∧ session.AllFinished threads
  | .failed _ => True

structure Valid (threads : ℕ) (session : Session D) : Prop where
  consistent : Consistent ThreadArgs.area session.shared
  atPoint : session.PointValid threads

theorem valid_initial : Valid threads (initial : Session D) where
  consistent := Consistent.initial _
  atPoint := rfl

private theorem joined_of_step {i index : ℕ} {shared : State (ThreadArgs D) D}
    (stepped : LockedSum.step ThreadArgs.area session.shared index = some shared)
    (finished : session.joined i = true) : Session.joined { session with shared } i = true := by
  obtain ⟨worker, lookup, point⟩ := joined_eq_true_iff.mp finished
  exact joined_eq_true_iff.mpr ⟨worker, finished_of_step stepped lookup point, point⟩

private theorem length_of_tasks {query : Query D}
    (tasks : session.shared.workers.map (·.task) = partition threads query) :
    session.shared.workers.length = threads := by
  have lengths := congrArg List.length tasks
  simpa [partition] using lengths

theorem valid_enter (valid : Valid threads session) (query : Query D)
    (between : session.point = .idle ∨ ∃ last, session.point = .ready last) :
    Valid threads (session.enter query) := by
  have free : session.shared.holder = none := by
    have atPoint := valid.atPoint
    apply valid.consistent.free_of_finished
    rcases between with point | ⟨last, point⟩
    · simp only [PointValid, point] at atPoint
      simp [atPoint]
    · simp only [PointValid, point] at atPoint
      exact finished_of_allFinished atPoint.2 (length_of_tasks atPoint.1)
  refine ⟨?_, Nat.zero_le threads, rfl, rfl⟩
  simp only [enter, free]
  exact Consistent.initial _

theorem valid_step {action : SessionAction} (valid : Valid threads session)
    (stepped : step threads session action = some next) : Valid threads next := by
  have atPoint := valid.atPoint
  cases step_eq_some_iff.mp stepped with
  | @create query i start point more =>
      simp only [PointValid, point] at atPoint
      obtain ⟨_, rfl, tasks⟩ := atPoint
      refine ⟨valid.consistent.spawn _, more, rfl, ?_⟩
      rw [State.spawn, List.map_append, tasks, tasksBefore, tasksBefore, List.range_succ,
        List.map_append]
      rfl
  | created point done =>
      simp only [PointValid, point] at atPoint
      obtain ⟨bound, _, tasks⟩ := atPoint
      have all := Nat.le_antisymm bound (Nat.not_lt.mp done)
      subst all
      exact ⟨valid.consistent, Nat.zero_le _, tasks,
        fun i below => absurd below (Nat.not_lt_zero i)⟩
  | createFails point more => exact ⟨valid.consistent, trivial⟩
  | @join query i point more finished =>
      simp only [PointValid, point] at atPoint
      obtain ⟨_, tasks, before⟩ := atPoint
      refine ⟨valid.consistent, more, tasks, fun index below => ?_⟩
      rcases Nat.lt_succ_iff_lt_or_eq.mp below with earlier | rfl
      · exact before index earlier
      · exact finished
  | joined point done =>
      simp only [PointValid, point] at atPoint
      obtain ⟨bound, tasks, before⟩ := atPoint
      have all := Nat.le_antisymm bound (Nat.not_lt.mp done)
      subst all
      exact ⟨valid.consistent, tasks, before⟩
  | worker moved =>
      refine ⟨valid.consistent.step moved, ?_⟩
      have same := tasks_of_step moved
      cases point : session.point with
      | idle =>
          simp only [PointValid, point] at atPoint ⊢
          rw [atPoint] at same
          exact List.map_eq_nil_iff.mp same
      | creating query i start =>
          simp only [PointValid, point] at atPoint ⊢
          exact ⟨atPoint.1, atPoint.2.1, same.trans atPoint.2.2⟩
      | joining query i =>
          simp only [PointValid, point] at atPoint ⊢
          refine ⟨atPoint.1, same.trans atPoint.2.1, fun i below => ?_⟩
          exact joined_of_step moved (atPoint.2.2 i below)
      | ready query =>
          simp only [PointValid, point] at atPoint ⊢
          refine ⟨same.trans atPoint.1, fun i below => ?_⟩
          exact joined_of_step moved (atPoint.2 i below)
      | failed => simp [PointValid]

/-- The total that is printed is the sum of the areas of all threads, in
whatever order they added them. -/
theorem total_of_ready {query : Query D} (valid : Valid threads session)
    (point : session.point = .ready query) :
    session.shared.total = ((partition threads query).map ThreadArgs.area).sum := by
  have atPoint := valid.atPoint
  simp only [PointValid, point] at atPoint
  rw [valid.consistent.total_of_finished
    (finished_of_allFinished atPoint.2 (length_of_tasks atPoint.1)), atPoint.1]

theorem progress (valid : Valid threads session) (running : session.failed = false)
    (busy : session.point ≠ .idle) (unready : ∀ query, session.point ≠ .ready query) :
    ∃ action next, action.fault = false ∧ step threads session action = some next := by
  cases point : session.point with
  | idle => exact absurd point busy
  | creating query i start =>
      by_cases more : i < threads
      · exact ⟨.main, _, rfl, step_eq_some_iff.mpr (.create point more)⟩
      · exact ⟨.main, _, rfl, step_eq_some_iff.mpr (.created point more)⟩
  | joining query i =>
      by_cases more : i < threads
      · cases finished : session.joined i with
        | true => exact ⟨.main, _, rfl, step_eq_some_iff.mpr (.join point more finished)⟩
        | false =>
            have atPoint := valid.atPoint
            simp only [PointValid, point] at atPoint
            have inside : i < session.shared.workers.length :=
              (length_of_tasks atPoint.2.1).symm ▸ more
            have unfinished : session.shared.workers[i].point ≠ .finished := by
              intro done
              have joins := joined_eq_true_iff.mpr ⟨_, List.getElem?_eq_getElem inside, done⟩
              rw [finished] at joins
              cases joins
            obtain ⟨index, shared, stepped⟩ :=
              valid.consistent.progress (List.getElem_mem inside) unfinished
            exact ⟨.worker index, _, rfl, step_eq_some_iff.mpr (.worker stepped)⟩
      · exact ⟨.main, _, rfl, step_eq_some_iff.mpr (.joined point more)⟩
  | ready query => exact absurd point (unready query)
  | failed => simp [Session.failed, point] at running

end Totals

end Session

def threadBounded {D : Type} [Zero D] [NatCast D] [Add D] [Sub D] [Mul D] [Div D] (threads : ℕ)
    (format : Format D) : (threadComputation threads format).Bounded where
  measure := Session.measure threads
  bound := 7 * threads + 2
  lowers _ _ _ stepped := Session.measure_lt_of_step stepped
  enter_le session query := by
    simp only [threadComputation, Session.enter, Session.measure, LockedSum.State.remaining,
      List.map_nil, List.sum_nil]
    omega

theorem threadReliable {D : Type} [Zero D] [NatCast D] [Add D] [Sub D] [Mul D] [Div D] (threads : ℕ)
    (format : Format D) : (threadComputation threads format).Reliable where
  enter _ _ := rfl
  step session action next running faultless stepped := by
    cases Session.step_eq_some_iff.mp stepped with
    | worker moved => exact running
    | create | created | join | joined => rfl
    | createFails => cases faultless

def threadLive {D : Type} [AddCommMonoid D] [NatCast D] [Sub D] [Mul D] [Div D] (threads : ℕ)
    (format : Format D) : (threadComputation threads format).Live where
  resting session := Session.Valid threads session ∧
    (session.point = .idle ∨ ∃ last, session.point = .ready last)
  busy session := Session.Valid threads session ∧ session.point ≠ .idle
  initial := ⟨Session.valid_initial, .inl rfl⟩
  enter session query resting := by
    refine ⟨Session.valid_enter resting.1 query resting.2, ?_⟩
    simp [threadComputation, Session.enter]
  step session action next busy stepped := by
    refine ⟨Session.valid_step busy.1 stepped, ?_⟩
    cases Session.step_eq_some_iff.mp stepped with
    | worker moved => exact busy.2
    | create | created | createFails | join | joined => simp
  line session pid text busy printed :=
    ⟨busy.1, .inr (Session.ready_of_line pid printed)⟩
  progress session pid busy := by
    cases running : Session.failed session with
    | true => exact .inl running
    | false =>
        by_cases ready : ∃ query, session.point = .ready query
        · obtain ⟨query, point⟩ := ready
          refine .inr (.inl ⟨integralLine format query session.shared.total, ?_⟩)
          simp [threadComputation, Session.line, point]
        · exact .inr (.inr (Session.progress busy.1 running busy.2
            fun query point => ready ⟨query, point⟩))

end Ence360.Assignment
