import Ence360.Semantics.CheckedInt

/-!
# Distributed sort (`lab8Distributed/sort.c`)

The share of the data each rank sorts, and the control flow of the merge tree.
All quantities are C `int`s, so a result is absent where the C program has
undefined behaviour.
-/

set_option autoImplicit false

namespace Ence360.Distributed.Sort

open Ence360.Semantics

structure Share where
  elemsProc : ℤ
  totalAlloc : ℤ
  extra : ℤ
  isLast : Bool
  localSize : ℤ
  deriving DecidableEq, Repr

def share (totalElems worldSize worldRank : ℤ) : Option Share := do
  let others ← CheckedInt.sub worldSize 1
  let rounded ← CheckedInt.add totalElems others
  let elemsProc ← CheckedInt.div rounded worldSize
  let totalAlloc ← CheckedInt.mul elemsProc worldSize
  let extra ← CheckedInt.sub totalAlloc totalElems
  let next ← CheckedInt.add worldRank 1
  let isLast := next == worldSize
  let trimmed ← CheckedInt.sub elemsProc (if isLast then extra else 0)
  -- In the very odd case which we have more processes than elements
  let localSize := if worldRank ≥ totalElems then 0 else trimmed
  some { elemsProc, totalAlloc, extra, isLast, localSize }

def shares (totalElems worldSize : ℤ) : Option (List Share) :=
  (List.range worldSize.toNat).mapM fun worldRank : ℕ => share totalElems worldSize worldRank

def nextPower2Loop (n : ℤ) : ℕ → ℤ → Option ℤ
  | 0, _ => none
  | fuel + 1, x =>
      if x < n then (CheckedInt.mul x 2).bind (nextPower2Loop n fuel) else some x

/-- Round to the next power of 2 up. The 31st doubling of `x` no longer fits, so
the loop never takes more turns than the fuel given here. -/
def nextPower2 (n : ℤ) : Option ℤ :=
  nextPower2Loop n 32 1

/-- The branch one activation of `mergeTree` takes, with its peer. `edge` is the
even side without a partner, `receive` the even side with one, `send` the odd
side; `finished` is the end of the recursion. -/
inductive Branch where
  | finished (step : ℤ)
  | edge (step source : ℤ)
  | receive (step source : ℤ)
  | send (step dest : ℤ)
  deriving DecidableEq, Repr

/-- The branches `mergeTree` takes on `rank`, in order, from `step` on. -/
def mergeTree (worldSize rank : ℤ) : ℕ → ℤ → Option (List Branch)
  | 0, _ => none
  | fuel + 1, step => do
      let limit ← nextPower2 worldSize
      if step > limit then
        some [.finished step]
      else
        let position ← CheckedInt.rem rank step
        let half ← CheckedInt.div step 2
        if position = 0 then
          let source ← CheckedInt.add rank half
          let doubled ← CheckedInt.mul step 2
          let rest ← mergeTree worldSize rank fuel doubled
          if source ≥ worldSize then
            some (.edge step source :: rest)
          else
            some (.receive step source :: rest)
        else
          let dest ← CheckedInt.sub rank half
          some [.send step dest]

end Ence360.Distributed.Sort
