import Ence360.Semantics.WhileLoop

/-!
# The blocks of `matrixMulBlocked` (`lab5Cache/matrixMul.c`)

The loops behind the call of `zeroMatrix`. Their innermost body is unfinished in
the source; what it is to work on, one box of indices a turn, is the result
here. `size_t` has 64 bits and wraps, and every addition goes on record.
-/

set_option autoImplicit false

namespace Ence360.Cache.MatrixBlocked

open Semantics

def min (a b : UInt64) : UInt64 :=
  if a > b then b else a

/-- The indices of one turn: from `i`, `j` and `k` up to their ends. -/
structure Box where
  i : UInt64
  iEnd : UInt64
  j : UInt64
  jEnd : UInt64
  k : UInt64
  kEnd : UInt64
  deriving DecidableEq

structure Log where
  boxes : List Box
  additions : List (UInt64 × UInt64)
  deriving DecidableEq

def Log.add (log : Log) (x y : UInt64) : UInt64 × Log :=
  (x + y, { log with additions := log.additions ++ [(x, y)] })

/-- A turn of a loop, with its `i += block`. -/
def blockTurn (block : UInt64) (body : UInt64 → Log → Option Log) (state : UInt64 × Log) :
    Option (UInt64 × Log) := do
  let log ← body state.1 state.2
  return log.add state.1 block

/-- `for (size_t i = 0; i < n; i += block)`. -/
def blockLoop (fuel : ℕ) (n block : UInt64) (body : UInt64 → Log → Option Log) (log : Log) :
    Option Log := do
  let (_, log) ← whileLoop (fun state => decide (state.1 < n)) (blockTurn block body) fuel (0, log)
  return log

/-- The body of the three loops. -/
def boxBody (n block i j k : UInt64) (log : Log) : Log :=
  let (iSum, log) := log.add i block
  let iEnd := min iSum n
  let (jSum, log) := log.add j block
  let jEnd := min jSum n
  let (kSum, log) := log.add k block
  let kEnd := min kSum n
  { log with boxes := log.boxes ++ [{ i, iEnd, j, jEnd, k, kEnd }] }

def matrixMulBlocked (fuel : ℕ) (n block : UInt64) : Option Log :=
  blockLoop fuel n block (fun i =>
    blockLoop fuel n block (fun j =>
      blockLoop fuel n block fun k log => some (boxBody n block i j k log)))
    { boxes := [], additions := [] }

end Ence360.Cache.MatrixBlocked
