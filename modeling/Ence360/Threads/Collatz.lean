import Ence360.Semantics.WhileLoop

/-!
# Collatz sequences (`lab6Threads/collatzSerial.c`)

Unsigned arithmetic of 32 and 64 bits wraps around.
-/

set_option autoImplicit false

namespace Ence360.Threads.Collatz

open Semantics

structure Walk where
  numSteps : UInt64
  num : UInt64

def walkTurn (walk : Walk) : Walk where
  numSteps := walk.numSteps + 1
  num := if walk.num % 2 = 0 then walk.num / 2 else 3 * walk.num + 1

def collatzWalk (fuel : ℕ) (initNum : UInt32) : Option UInt64 := do
  let walk ← whileLoop (fun walk => decide (walk.num ≠ 1)) (fun walk => some (walkTurn walk)) fuel
    { numSteps := 0, num := initNum.toUInt64 }
  return walk.numSteps

/-- The variables of `collatzSweep`, and the starts it has called `collatzWalk` on. -/
structure Sweep where
  i : UInt32
  totalSteps : UInt64
  calls : List UInt32

def sweepTurn (fuel : ℕ) (sweep : Sweep) : Option Sweep := do
  let steps ← collatzWalk fuel sweep.i
  return {
    i := sweep.i + 1
    totalSteps := sweep.totalSteps + steps
    calls := sweep.calls ++ [sweep.i] }

/-- The function prints `maxStart` and the final `totalSteps`. -/
def collatzSweep (fuel : ℕ) (maxStart : UInt32) : Option Sweep :=
  whileLoop (fun sweep => decide (sweep.i ≤ maxStart)) (sweepTurn fuel) fuel
    { i := 1, totalSteps := 0, calls := [] }

end Ence360.Threads.Collatz
