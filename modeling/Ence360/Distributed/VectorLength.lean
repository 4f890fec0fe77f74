import Mathlib.Algebra.Ring.Defs
import Ence360.Semantics.CountedLoop

/-!
# Distributed vector length (`lab8Distributed/vector_len.c`)

The arithmetic is exact: the entries come from any commutative semiring. The
random vector is a parameter, and the reduction combines the local results in
any order and with any bracketing, as `MPI_Reduce` may.
-/

set_option autoImplicit false

namespace Ence360.Distributed.VectorLength

open Ence360.Semantics

variable {R : Type} [CommSemiring R]

/-- Allocate a zero vector of length n. -/
def allocVec (n : ℕ) : List R :=
  List.replicate n 0

/-- Fill the first entries of `res` with the drawn values. -/
def randomVec (res drawn : List R) : Option (List R) :=
  countedLoop (fun i res => drawn[i]?.bind (writeAt res i)) drawn.length res

/-- Sum all elements in a vector. -/
def computeSum (values : List R) (count : ℕ) : Option R :=
  countedLoop (fun i sum => values[i]?.map (sum + ·)) count 0

/-- Square all elements in a vector, in place. -/
def square (values : List R) (count : ℕ) : Option (List R) :=
  countedLoop (fun i values => values[i]?.bind fun value => writeAt values i (value * value))
    count values

def elemsProc (totalElems worldSize : ℕ) : ℕ :=
  (totalElems + (worldSize - 1)) / worldSize -- round up

/-- The block of `count` entries that `MPI_Scatter` gives to `rank`. -/
def scatter (sendBuffer : List R) (count rank : ℕ) : List R :=
  (sendBuffer.drop (rank * count)).take count

def localLen (drawn : List R) (worldSize rank : ℕ) : Option R := do
  let count := elemsProc drawn.length worldSize
  let randNums ← randomVec (allocVec (count * worldSize)) drawn
  let squared ← square (scatter randNums count rank) count
  computeSum squared count

/-- An order and a bracketing in which `MPI_Reduce` adds the local results. -/
inductive Reduction where
  | single (rank : ℕ)
  | sum (left right : Reduction)
  deriving DecidableEq, Repr

def Reduction.ranks : Reduction → List ℕ
  | .single rank => [rank]
  | .sum left right => left.ranks ++ right.ranks

def Reduction.reduce (result : ℕ → Option R) : Reduction → Option R
  | .single rank => result rank
  | .sum left right => do
      let leftTotal ← left.reduce result
      let rightTotal ← right.reduce result
      some (leftTotal + rightTotal)

/-- The value of `total` on rank 0, before the square root is printed. -/
def total (drawn : List R) (worldSize : ℕ) (reduction : Reduction) : Option R :=
  reduction.reduce (localLen drawn worldSize)

end Ence360.Distributed.VectorLength
