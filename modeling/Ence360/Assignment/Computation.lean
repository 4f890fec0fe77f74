import Ence360.Assignment.Integrate
import Ence360.Semantics.Stdio

/-!
# Texts and computations of the assignment programs

The four programs differ in where a query is computed and printed. A
`Computation` is the part from an accepted query to its result line, within one
process.
-/

set_option autoImplicit false

namespace Ence360.Assignment

open Semantics.Stdio

/-- The number conversions of `printf`. -/
structure Format (D : Type) where
  g : D → List Char
  g10 : D → List Char

def decimal (number : ℕ) : List Char :=
  (Nat.repr number).toList

def promptLine : List Char :=
  "Query format: [func] [start] [end] [numSteps]".toList ++ ['\n']

/-- The result line of `serial.c`, `thread.c` and `processThread.c`. -/
def integralLine {D : Type} (format : Format D) (query : Query D) (value : D) : List Char :=
  "The integral of function \"".toList ++ query.funcName.toList ++ "\" in range ".toList ++
    format.g query.rangeStart ++ " to ".toList ++ format.g query.rangeEnd ++ " is ".toList ++
    format.g10 value ++ ['\n']

/-- The result line of `process.c`. -/
def childLine {D : Type} (format : Format D) (pid : ℕ) (query : Query D) (value : D) : List Char :=
  "[Child ".toList ++ decimal pid ++ "] Integral of \"".toList ++ query.funcName.toList ++
    "\" from ".toList ++ format.g query.rangeStart ++ " to ".toList ++ format.g query.rangeEnd ++
    " = ".toList ++ format.g10 value ++ ['\n']

def spawnedLine (pid : ℕ) : List Char :=
  "[Parent] Spawned child ".toList ++ decimal pid ++ ['\n']

def slotFreedLine (pid : ℕ) : List Char :=
  "[Parent] Child ".toList ++ decimal pid ++ " finished. Slot freed.".toList ++ ['\n']

/-- What a printed character belongs to; queries are numbered in input order. -/
inductive Source where
  | prompt
  | spawned
  | slotFreed
  | result (index : ℕ)
  deriving DecidableEq

structure Computation (D : Type) where
  State : Type
  Action : Type
  /-- The memory of the process before the first query. -/
  initial : State
  enter : State → Query D → State
  step : State → Action → Option State
  /-- The steps in which a system call fails. -/
  fault : Action → Bool
  /-- What the process with the given pid prints next, once the value is there. -/
  line : State → ℕ → Option (List Char)
  /-- A call has failed; the process goes on to `exit(1)`. -/
  failed : State → Bool
  line_ends : ∀ state pid text, line state pid = some text → EndsLine text

structure Computation.Bounded {D : Type} (computation : Computation D) where
  measure : computation.State → ℕ
  bound : ℕ
  lowers : ∀ state action next, computation.step state action = some next →
    measure next < measure state
  enter_le : ∀ state query, measure (computation.enter state query) ≤ bound

/-- The computation of a query goes on until its line is there or it has failed.
`resting` holds between two queries, `busy` within one. -/
structure Computation.Live {D : Type} (computation : Computation D) where
  resting : computation.State → Prop
  busy : computation.State → Prop
  initial : resting computation.initial
  enter : ∀ state query, resting state → busy (computation.enter state query)
  step : ∀ state action next, busy state → computation.step state action = some next → busy next
  line : ∀ state pid text, busy state → computation.line state pid = some text → resting state
  progress : ∀ state pid, busy state → computation.failed state = true ∨
    (∃ text, computation.line state pid = some text) ∨
      ∃ action next, computation.fault action = false ∧
        computation.step state action = some next

structure Computation.Reliable {D : Type} (computation : Computation D) : Prop where
  enter : ∀ state query, computation.failed (computation.enter state query) = false
  step : ∀ state action next, computation.failed state = false →
    computation.fault action = false → computation.step state action = some next →
      computation.failed next = false

variable {D : Type} [Zero D] [NatCast D] [Add D] [Sub D] [Mul D] [Div D]

inductive Direct (D : Type) where
  | idle
  | computing (query : Query D)
  | computed (query : Query D) (area : D)

/-- The single call of `integrateTrap` in `serial.c` and `process.c`. -/
def Direct.step : Direct D → Unit → Option (Direct D)
  | .computing query, _ => some (.computed query query.serialArea)
  | .idle, _ | .computed _ _, _ => none

def directComputation (render : ℕ → Query D → D → List Char)
    (render_ends : ∀ pid query value, EndsLine (render pid query value)) : Computation D where
  State := Direct D
  Action := Unit
  initial := .idle
  enter _ query := .computing query
  step := Direct.step
  fault _ := false
  line
    | .computed query area, pid => some (render pid query area)
    | .idle, _ | .computing _, _ => none
  failed _ := false
  line_ends state pid text printed := by
    cases state with
    | idle | computing => cases printed
    | computed query area =>
        cases printed
        exact render_ends pid query area

def directBounded (render : ℕ → Query D → D → List Char)
    (render_ends : ∀ pid query value, EndsLine (render pid query value)) :
    (directComputation render render_ends).Bounded where
  measure
    | .computing _ => 1
    | .idle | .computed _ _ => 0
  bound := 1
  lowers state action next stepped := by
    cases state with
    | computing query =>
        cases stepped
        exact Nat.zero_lt_one
    | idle | computed => cases stepped
  enter_le _ _ := le_refl 1

def directLive (render : ℕ → Query D → D → List Char)
    (render_ends : ∀ pid query value, EndsLine (render pid query value)) :
    (directComputation render render_ends).Live where
  resting _ := True
  busy
    | .computing _ | .computed _ _ => True
    | .idle => False
  initial := trivial
  enter _ _ _ := trivial
  step state action next busy stepped := by
    cases state with
    | computing query =>
        cases stepped
        trivial
    | idle | computed => cases stepped
  line _ _ _ _ _ := trivial
  progress state pid busy := by
    cases state with
    | computing query => exact .inr (.inr ⟨(), _, rfl, rfl⟩)
    | computed query area => exact .inr (.inl ⟨_, rfl⟩)
    | idle => exact busy.elim

theorem directReliable (render : ℕ → Query D → D → List Char)
    (render_ends : ∀ pid query value, EndsLine (render pid query value)) :
    (directComputation render render_ends).Reliable where
  enter _ _ := rfl
  step _ _ _ _ _ _ := rfl

def serialComputation (format : Format D) : Computation D :=
  directComputation (fun _ => integralLine format) fun _ _ _ => ⟨_, rfl⟩

def processComputation (format : Format D) : Computation D :=
  directComputation (childLine format) fun _ _ _ => ⟨_, rfl⟩

end Ence360.Assignment
