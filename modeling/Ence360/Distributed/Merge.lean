import Ence360.Semantics.CheckedInt
import Ence360.Semantics.TracedArray
import Ence360.Semantics.WhileLoop

/-!
# Merging sorted vectors (`merge` and `checkSorted` of `lab8Distributed/sort.c`)

The index variables are `int`s that count up from zero, so each is a natural
number with a checked increment. A read or write outside a vector has no
defined result.
-/

set_option autoImplicit false

namespace Ence360.Distributed.Merge

open Semantics

/-- A vector whose number of elements is an `int`. -/
structure Vec (α : Type) where
  elems : List α
  length_le : elems.length ≤ 2147483647

structure State (α : Type) where
  i : ℕ
  j : ℕ
  n : ℕ
  arr : TracedArray α

variable {α : Type}

/-- `arr[n++] = value`. -/
def State.push (state : State α) (value : α) : Option (State α) := do
  let arr ← state.arr.write state.n value
  let n ← CheckedInt.increment state.n
  return { state with arr, n }

/-- `arr[n++] = a[i]; i++`. -/
def takeA (a : List α) (state : State α) : Option (State α) := do
  let value ← a[state.i]?
  let pushed ← state.push value
  let i ← CheckedInt.increment state.i
  return { pushed with i }

/-- `arr[n++] = b[j]; j++`. -/
def takeB (b : List α) (state : State α) : Option (State α) := do
  let value ← b[state.j]?
  let pushed ← state.push value
  let j ← CheckedInt.increment state.j
  return { pushed with j }

variable [LinearOrder α]

/-- Add smallest element and increment. -/
def takeSmallest (a b : List α) (state : State α) : Option (State α) := do
  let left ← a[state.i]?
  let right ← b[state.j]?
  if left < right then takeA a state else takeB b state

def merge (fuel : ℕ) (a : List α) (n1 : ℕ) (b : List α) (n2 : ℕ) (arr : List α) :
    Option (TracedArray α) := do
  let start : State α := { i := 0, j := 0, n := 0, arr := .untouched arr }
  let both ← whileLoop (fun state => state.i < n1 && state.j < n2) (takeSmallest a b) fuel start
  let restA ← whileLoop (fun state => decide (state.i < n1)) (takeA a) fuel both
  let restB ← whileLoop (fun state => decide (state.j < n2)) (takeB b) fuel restA
  return restB.arr

/-- The turns of the loop of `checkSorted` from index `i` on. -/
def checkSortedLoop (values : List α) : ℕ → ℕ → Option Bool
  | 0, _ => some true
  | turns + 1, i => do
      let value ← values[i]?
      let next ← values[i + 1]?
      if value > next then return false else checkSortedLoop values turns (i + 1)

/-- Test the result. The loop runs while `i < n - 1`. -/
def checkSorted (values : List α) (n : ℕ) : Option Bool :=
  checkSortedLoop values (n - 1) 0

end Ence360.Distributed.Merge
