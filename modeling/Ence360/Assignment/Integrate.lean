import Mathlib.Data.Nat.Cast.Defs

/-!
# Trapezoid integration (`assignment/serial.c`, `thread.c`, `processThread.c`)

The code is generic in the arithmetic it is read over. Step counts are `size_t`
values that stay below the given number of steps, so no sum of them wraps.
-/

set_option autoImplicit false

namespace Ence360.Assignment

variable {D : Type} [Zero D] [NatCast D] [Add D] [Sub D] [Mul D] [Div D]

/-- A query that `getValidInput` has accepted. -/
structure Query (D : Type) where
  funcName : String
  func : D → D
  rangeStart : D
  rangeEnd : D
  numSteps : ℕ

/-- `integrateTrap` of `serial.c` and `process.c`. -/
def integrateTrap (func : D → D) (rangeStart rangeEnd : D) (numSteps : ℕ) : D :=
  let rangeSize := rangeEnd - rangeStart
  let dx := rangeSize / (numSteps : D)
  let sum := (List.range numSteps).foldl (fun (sum : D) (i : ℕ) =>
    let smallx := rangeStart + (i : D) * dx
    let bigx := rangeStart + ((i + 1 : ℕ) : D) * dx
    sum + (func smallx + func bigx) / ((2 : ℕ) : D)) 0
  sum * dx

/-- The value of `dx`. -/
def stepWidth (rangeStart rangeEnd : D) (numSteps : ℕ) : D :=
  (rangeEnd - rangeStart) / (numSteps : D)

/-- The pairs `(smallx, bigx)` of the loop, in order. -/
def evaluatedPairs (rangeStart rangeEnd : D) (numSteps : ℕ) : List (D × D) :=
  let dx := stepWidth rangeStart rangeEnd numSteps
  (List.range numSteps).map fun (i : ℕ) =>
    (rangeStart + (i : D) * dx, rangeStart + ((i + 1 : ℕ) : D) * dx)

/-- The loop looks at the function on its pairs only. -/
theorem integrateTrap_eq_foldl_pairs (func : D → D) (rangeStart rangeEnd : D) (numSteps : ℕ) :
    integrateTrap func rangeStart rangeEnd numSteps =
      (evaluatedPairs rangeStart rangeEnd numSteps).foldl
        (fun sum (smallx, bigx) => sum + (func smallx + func bigx) / ((2 : ℕ) : D)) 0 *
        stepWidth rangeStart rangeEnd numSteps := by
  rw [evaluatedPairs, List.foldl_map]
  rfl

def Query.serialArea (query : Query D) : D :=
  integrateTrap query.func query.rangeStart query.rangeEnd query.numSteps

/-- `ThreadArgs_t`, less the pointer to the total. -/
structure ThreadArgs (D : Type) where
  func : D → D
  start : D
  finish : D
  steps : ℕ

/-- What a worker thread adds to the total: its `integrateTrap` runs the serial
loop on its own arguments. -/
def ThreadArgs.area (args : ThreadArgs D) : D :=
  integrateTrap args.func args.start args.finish args.steps

/-- The arguments that turn `i` of the loop over the threads hands to its thread. -/
def threadArgs (threads : ℕ) (query : Query D) (currentStart : D) (i : ℕ) : ThreadArgs D :=
  let totalRange := query.rangeEnd - query.rangeStart
  let baseSteps := query.numSteps / threads
  let remainderSteps := query.numSteps % threads
  let steps := baseSteps + if i < remainderSteps then 1 else 0
  let currentEnd := currentStart + totalRange * (steps : D) / (query.numSteps : D)
  { func := query.func, start := currentStart, finish := currentEnd, steps }

/-- The value of `currentStart` before turn `i`. -/
def currentStart (threads : ℕ) (query : Query D) : ℕ → D
  | 0 => query.rangeStart
  | i + 1 => (threadArgs threads query (currentStart threads query i) i).finish

def partition (threads : ℕ) (query : Query D) : List (ThreadArgs D) :=
  (List.range threads).map fun i => threadArgs threads query (currentStart threads query i) i

end Ence360.Assignment
