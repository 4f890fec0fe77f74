import Ence360.Semantics.IndexedList
import Mathlib

/-!
# Sums accumulated under a lock

Worker threads that each compute a value and add it to a shared total inside a
critical section. Loading and storing the total are separate steps.
-/

set_option autoImplicit false

namespace Ence360.Semantics.LockedSum

open IndexedList

inductive Point (M : Type) where
  | computing
  | locking (value : M)
  | loading (value : M)
  | storing (value old : M)
  | unlocking
  | finished

def Point.Critical {M : Type} : Point M → Prop
  | .loading _ | .storing _ _ | .unlocking => True
  | .computing | .locking _ | .finished => False

def Point.remaining {M : Type} : Point M → ℕ
  | .computing => 5
  | .locking _ => 4
  | .loading _ => 3
  | .storing _ _ => 2
  | .unlocking => 1
  | .finished => 0

structure Worker (Task M : Type) where
  task : Task
  point : Point M

structure State (Task M : Type) where
  total : M
  holder : Option ℕ
  workers : List (Worker Task M)

variable {Task M : Type}

def State.spawn (state : State Task M) (task : Task) : State Task M :=
  { state with workers := state.workers ++ [{ task, point := .computing }] }

def State.move (state : State Task M) (index : ℕ) (worker : Worker Task M) (point : Point M) :
    State Task M :=
  { state with workers := state.workers.set index { worker with point } }

/-- One step of the worker with the given index; the lock is waited for while
another worker holds it. -/
def step [Add M] (value : Task → M) (state : State Task M) (index : ℕ) :
    Option (State Task M) :=
  state.workers[index]?.bind fun worker =>
    match worker.point with
    | .computing => some (state.move index worker (.locking (value worker.task)))
    | .locking area =>
        if state.holder = none then
          some { state.move index worker (.loading area) with holder := some index }
        else none
    | .loading area => some (state.move index worker (.storing area state.total))
    | .storing area old =>
        some { state.move index worker .unlocking with total := old + area }
    | .unlocking => some { state.move index worker .finished with holder := none }
    | .finished => none

inductive Transition [Add M] (value : Task → M) (state : State Task M) (index : ℕ)
    (worker : Worker Task M) : State Task M → Prop where
  | compute : worker.point = .computing →
      Transition value state index worker
        (state.move index worker (.locking (value worker.task)))
  | lock {area : M} : worker.point = .locking area → state.holder = none →
      Transition value state index worker
        { state.move index worker (.loading area) with holder := some index }
  | load {area : M} : worker.point = .loading area →
      Transition value state index worker (state.move index worker (.storing area state.total))
  | store {area old : M} : worker.point = .storing area old →
      Transition value state index worker
        { state.move index worker .unlocking with total := old + area }
  | unlock : worker.point = .unlocking →
      Transition value state index worker
        { state.move index worker .finished with holder := none }

theorem step_eq_some_iff [Add M] {value : Task → M} {state next : State Task M} {index : ℕ} :
    step value state index = some next ↔
      ∃ worker, state.workers[index]? = some worker ∧
        Transition value state index worker next := by
  constructor
  · intro stepped
    simp only [step, Option.bind_eq_some_iff] at stepped
    obtain ⟨worker, found, stepped⟩ := stepped
    refine ⟨worker, found, ?_⟩
    cases point : worker.point with
    | computing =>
        simp only [point, Option.some.injEq] at stepped
        subst stepped
        exact .compute point
    | locking area =>
        simp only [point, Option.ite_none_right_eq_some, Option.some.injEq] at stepped
        obtain ⟨free, rfl⟩ := stepped
        exact .lock point free
    | loading area =>
        simp only [point, Option.some.injEq] at stepped
        subst stepped
        exact .load point
    | storing area old =>
        simp only [point, Option.some.injEq] at stepped
        subst stepped
        exact .store point
    | unlocking =>
        simp only [point, Option.some.injEq] at stepped
        subst stepped
        exact .unlock point
    | finished => simp [point] at stepped
  · intro moves
    obtain ⟨worker, found, transition⟩ := moves
    cases transition <;> simp [step, *]

def Worker.deposited [Zero M] (value : Task → M) (worker : Worker Task M) : M :=
  match worker.point with
  | .unlocking | .finished => value worker.task
  | .computing | .locking _ | .loading _ | .storing _ _ => 0

/-- The local variables of a worker agree with its task and, once it has loaded
the total, with the total. -/
def Worker.Carries (value : Task → M) (total : M) (worker : Worker Task M) : Prop :=
  match worker.point with
  | .locking area | .loading area => area = value worker.task
  | .storing area old => area = value worker.task ∧ old = total
  | .computing | .unlocking | .finished => True

structure Consistent [AddMonoid M] (value : Task → M) (state : State Task M) : Prop where
  total_eq : state.total = (state.workers.map (Worker.deposited value)).sum
  owner : ∀ index worker, state.workers[index]? = some worker →
    (worker.point.Critical ↔ state.holder = some index)
  holder_lt : ∀ index, state.holder = some index → index < state.workers.length
  carried : ∀ (index : ℕ) (worker : Worker Task M), state.workers[index]? = some worker →
    worker.Carries value state.total

theorem Consistent.initial [AddMonoid M] (value : Task → M) :
    Consistent value ({ total := 0, holder := none, workers := [] } : State Task M) where
  total_eq := rfl
  owner index worker found := by simp at found
  holder_lt index held := by cases held
  carried index worker found := by simp at found

theorem Consistent.spawn [AddMonoid M] {value : Task → M} {state : State Task M}
    (consistent : Consistent value state) (task : Task) :
    Consistent value (state.spawn task) where
  total_eq := by simp [State.spawn, Worker.deposited, consistent.total_eq]
  owner index worker found := by
    rcases getElem?_concat_cases found with found | ⟨rfl, rfl⟩
    · exact consistent.owner index worker found
    · simp only [Point.Critical, State.spawn, false_iff]
      intro held
      exact absurd (consistent.holder_lt _ held) (lt_irrefl _)
  holder_lt index held := by
    have below := consistent.holder_lt index held
    simp only [State.spawn, List.length_append, List.length_singleton]
    omega
  carried index worker found := by
    rcases getElem?_concat_cases found with found | ⟨rfl, rfl⟩
    · exact consistent.carried index worker found
    · trivial

private theorem Consistent.replace [AddCommMonoid M] {value : Task → M} {state : State Task M}
    {index : ℕ} {worker : Worker Task M} (consistent : Consistent value state)
    (found : state.workers[index]? = some worker) (point : Point M) (holder : Option ℕ) (total : M)
    (sum : total = ((state.workers.set index { worker with point }).map
      (Worker.deposited value)).sum)
    (mine : point.Critical ↔ holder = some index)
    (bounded : holder = none ∨ holder = some index ∨ holder = state.holder)
    (carries : Worker.Carries value total { worker with point })
    (others : ∀ other rival, other ≠ index → state.workers[other]? = some rival →
      (rival.point.Critical ↔ holder = some other) ∧ rival.Carries value total) :
    Consistent value { state.move index worker point with total, holder } where
  total_eq := sum
  owner other moved lookup := by
    rcases getElem?_set_cases lookup with ⟨rfl, rfl⟩ | ⟨different, lookup⟩
    · exact mine
    · exact (others other moved different lookup).1
  holder_lt other held := by
    have inside := (List.getElem?_eq_some_iff.mp found).1
    simp only [State.move, List.length_set]
    rcases bounded with free | own | kept
    · rw [free] at held
      cases held
    · rw [own] at held
      cases held
      exact inside
    · exact consistent.holder_lt other (kept ▸ held)
  carried other moved lookup := by
    rcases getElem?_set_cases lookup with ⟨rfl, rfl⟩ | ⟨different, lookup⟩
    · exact carries
    · exact (others other moved different lookup).2

theorem Consistent.step [AddCommMonoid M] {value : Task → M} {state next : State Task M}
    {index : ℕ} (consistent : Consistent value state)
    (stepped : LockedSum.step value state index = some next) : Consistent value next := by
  obtain ⟨worker, found, transition⟩ := step_eq_some_iff.mp stepped
  have owner := consistent.owner index worker found
  have carries := consistent.carried index worker found
  have others (other : ℕ) (rival : Worker Task M) (_ : other ≠ index)
      (lookup : state.workers[other]? = some rival) :
      (rival.point.Critical ↔ state.holder = some other) ∧ rival.Carries value state.total :=
    ⟨consistent.owner other rival lookup, consistent.carried other rival lookup⟩
  -- Only `store` changes the worker's deposit.
  have unchanged (point : Point M)
      (deposit : Worker.deposited value { worker with point } = worker.deposited value) :
      state.total = ((state.workers.set index { worker with point }).map
        (Worker.deposited value)).sum := by
    rw [map_set_of_eq found deposit]
    exact consistent.total_eq
  -- While `index` holds the lock no other worker is in its critical section.
  have outside (held : state.holder = some index) (other : ℕ) (rival : Worker Task M)
      (different : other ≠ index) (lookup : state.workers[other]? = some rival) :
      ¬ rival.point.Critical := by
    rw [consistent.owner other rival lookup, held]
    exact fun same => different (Option.some.inj same).symm
  cases transition with
  | compute point =>
      refine consistent.replace found _ state.holder state.total (unchanged _ ?_) ?_
        (.inr (.inr rfl)) rfl others
      · simp [Worker.deposited, point]
      · rw [← owner]
        simp [Point.Critical, point]
  | lock point free =>
      simp only [Worker.Carries, point] at carries
      refine consistent.replace found _ (some index) state.total (unchanged _ ?_) ?_
        (.inr (.inl rfl)) carries ?_
      · simp [Worker.deposited, point]
      · simp [Point.Critical]
      · intro other rival different lookup
        refine ⟨?_, consistent.carried other rival lookup⟩
        rw [consistent.owner other rival lookup, free]
        simp [Ne.symm different]
  | load point =>
      simp only [Worker.Carries, point] at carries
      refine consistent.replace found _ state.holder state.total (unchanged _ ?_) ?_
        (.inr (.inr rfl)) ⟨carries, rfl⟩ others
      · simp [Worker.deposited, point]
      · rw [← owner]
        simp [Point.Critical, point]
  | store point =>
      simp only [Worker.Carries, point] at carries
      obtain ⟨rfl, rfl⟩ := carries
      have held : state.holder = some index := owner.mp (by simp [Point.Critical, point])
      refine consistent.replace found _ state.holder _ ?_ ?_ (.inr (.inr rfl)) trivial ?_
      · have deposited : Worker.deposited value worker = 0 := by simp [Worker.deposited, point]
        have added := @sum_map_set _ _ _ _ _ _ (Worker.deposited value)
          { worker with point := .unlocking } found
        rw [deposited, add_zero] at added
        rw [added, consistent.total_eq]
        rfl
      · simp [Point.Critical, held]
      · intro other rival different lookup
        refine ⟨consistent.owner other rival lookup, ?_⟩
        have quiet := outside held other rival different lookup
        have kept := consistent.carried other rival lookup
        cases point : rival.point with
        | storing area old => simp [Point.Critical, point] at quiet
        | computing | unlocking | finished => simp [Worker.Carries, point]
        | locking | loading => simpa [Worker.Carries, point] using kept
  | unlock point =>
      have held : state.holder = some index := owner.mp (by simp [Point.Critical, point])
      refine consistent.replace found _ none state.total (unchanged _ ?_) ?_ (.inl rfl) trivial ?_
      · simp [Worker.deposited, point]
      · simp [Point.Critical]
      · intro other rival different lookup
        refine ⟨?_, consistent.carried other rival lookup⟩
        simp [outside held other rival different lookup]

theorem tasks_of_step [Add M] {value : Task → M} {state next : State Task M} {index : ℕ}
    (stepped : step value state index = some next) :
    next.workers.map (·.task) = state.workers.map (·.task) := by
  obtain ⟨worker, found, transition⟩ := step_eq_some_iff.mp stepped
  cases transition <;> exact map_set_of_eq found rfl

theorem finished_of_step [Add M] {value : Task → M} {state next : State Task M} {index other : ℕ}
    (stepped : step value state index = some next) {worker : Worker Task M}
    (lookup : state.workers[other]? = some worker) (finished : worker.point = .finished) :
    next.workers[other]? = some worker := by
  obtain ⟨mover, found, transition⟩ := step_eq_some_iff.mp stepped
  have different : index ≠ other := by
    rintro rfl
    rw [found] at lookup
    cases lookup
    cases transition <;> simp_all
  cases transition <;> simp [State.move, List.getElem?_set_ne different, lookup]

/-- When every worker is done, the total is the sum of all values. -/
theorem Consistent.total_of_finished [AddMonoid M] {value : Task → M} {state : State Task M}
    (consistent : Consistent value state)
    (finished : ∀ worker ∈ state.workers, worker.point = .finished) :
    state.total = ((state.workers.map (·.task)).map value).sum := by
  rw [consistent.total_eq, List.map_map]
  congr 1
  refine List.map_congr_left fun worker member => ?_
  simp [Worker.deposited, finished worker member]

/-- The lock is held by a worker of the critical section. -/
theorem Consistent.critical_of_holder [AddMonoid M] {value : Task → M} {state : State Task M}
    (consistent : Consistent value state) {index : ℕ} (held : state.holder = some index) :
    ∃ worker, state.workers[index]? = some worker ∧ worker.point.Critical := by
  have found := List.getElem?_eq_getElem (consistent.holder_lt index held)
  exact ⟨_, found, (consistent.owner index _ found).mpr held⟩

theorem Consistent.free_of_finished [AddMonoid M] {value : Task → M} {state : State Task M}
    (consistent : Consistent value state)
    (finished : ∀ worker ∈ state.workers, worker.point = .finished) : state.holder = none := by
  cases held : state.holder with
  | none => rfl
  | some index =>
      obtain ⟨worker, found, critical⟩ := consistent.critical_of_holder held
      rw [finished worker (List.mem_of_getElem? found)] at critical
      exact critical.elim

/-- The critical section never waits. -/
theorem exists_step_of_critical [Add M] {value : Task → M} {state : State Task M} {index : ℕ}
    {worker : Worker Task M} (found : state.workers[index]? = some worker)
    (critical : worker.point.Critical) :
    ∃ next, LockedSum.step value state index = some next := by
  cases point : worker.point with
  | loading area => exact ⟨_, step_eq_some_iff.mpr ⟨_, found, .load point⟩⟩
  | storing area old => exact ⟨_, step_eq_some_iff.mpr ⟨_, found, .store point⟩⟩
  | unlocking => exact ⟨_, step_eq_some_iff.mpr ⟨_, found, .unlock point⟩⟩
  | computing | locking | finished => simp [Point.Critical, point] at critical

/-- The lock never blocks all unfinished workers. -/
theorem Consistent.progress [AddMonoid M] {value : Task → M} {state : State Task M}
    (consistent : Consistent value state) {worker : Worker Task M}
    (member : worker ∈ state.workers) (unfinished : worker.point ≠ .finished) :
    ∃ index next, LockedSum.step value state index = some next := by
  cases held : state.holder with
  | some index =>
      obtain ⟨owner, found, critical⟩ := consistent.critical_of_holder held
      exact ⟨index, exists_step_of_critical found critical⟩
  | none =>
      obtain ⟨index, found⟩ := List.mem_iff_getElem?.mp member
      refine ⟨index, ?_⟩
      cases point : worker.point with
      | computing => exact ⟨_, step_eq_some_iff.mpr ⟨_, found, .compute point⟩⟩
      | locking area => exact ⟨_, step_eq_some_iff.mpr ⟨_, found, .lock point held⟩⟩
      | loading | storing | unlocking =>
          exact exists_step_of_critical found (by simp [Point.Critical, point])
      | finished => exact absurd point unfinished

def State.remaining (state : State Task M) : ℕ :=
  (state.workers.map fun worker => worker.point.remaining).sum

theorem remaining_of_step [Add M] {value : Task → M} {state next : State Task M} {index : ℕ}
    (stepped : step value state index = some next) : next.remaining + 1 = state.remaining := by
  obtain ⟨worker, found, transition⟩ := step_eq_some_iff.mp stepped
  have moved (point : Point M) (less : point.remaining + 1 = worker.point.remaining) :
      (state.move index worker point).remaining + 1 = state.remaining := by
    have balance := @sum_map_set _ _ _ _ _ _
      (fun worker : Worker Task M => worker.point.remaining) { worker with point } found
    dsimp only [State.remaining, State.move] at balance ⊢
    omega
  cases transition with
  | compute point => exact moved _ (by rw [point]; rfl)
  | lock point _ => exact moved _ (by rw [point]; rfl)
  | load point => exact moved _ (by rw [point]; rfl)
  | store point => exact moved _ (by rw [point]; rfl)
  | unlock point => exact moved _ (by rw [point]; rfl)

end Ence360.Semantics.LockedSum
