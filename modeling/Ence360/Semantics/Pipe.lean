import Mathlib.Data.Nat.Notation

/-!
# Pipes

One-way byte queues of bounded capacity. The size of each transfer is chosen by
the environment and is an argument here.
-/

set_option autoImplicit false

namespace Ence360.Semantics.Pipe

/-- The limits of the system: a write of at most `atomicSize` items is not split. -/
structure Limits where
  capacity : ℕ
  atomicSize : ℕ
  atomicSize_pos : 0 < atomicSize
  atomicSize_le : atomicSize ≤ capacity

variable {α : Type}

/-- The outcome of giving a blocking write a turn. -/
inductive WriteTurn (α : Type) where
  | returned
  | brokenPipe
  | blocked
  | moved (queue rest : List α)

/-- `rest` is what is still to be written of the `whole` argument of the call. -/
def write (limits : Limits) (readerOpen : Bool) (queue whole rest : List α) (size : ℕ) :
    WriteTurn α :=
  if rest = [] then .returned
  else if readerOpen = false then .brokenPipe
  else if 1 ≤ size ∧ size ≤ rest.length ∧ queue.length + size ≤ limits.capacity ∧
      (whole.length ≤ limits.atomicSize → size = rest.length) then
    .moved (queue ++ rest.take size) (rest.drop size)
  else .blocked

/-- A read of at most `limit` items: what it returns and what stays queued. It
has no turn while it must block. -/
def read (writerOpen : Bool) (queue : List α) (limit size : ℕ) : Option (List α × List α) :=
  if queue = [] then
    if writerOpen then none else some ([], [])
  else if 1 ≤ size ∧ size ≤ queue.length ∧ size ≤ limit then
    some (queue.take size, queue.drop size)
  else none

theorem read_singleton {item : α} {limit size : ℕ} {writerOpen : Bool}
    {result : List α × List α} (turn : read writerOpen [item] limit size = some result) :
    result = ([item], []) := by
  simp only [read, List.cons_ne_nil, if_false, List.length_singleton] at turn
  split at turn
  · next bounds =>
      have one : size = 1 := by omega
      subst one
      simpa using turn.symm
  · cases turn

theorem write_singleton (limits : Limits) (item : α) (size : ℕ) :
    write limits true [] [item] [item] size =
      if size = 1 then .moved [item] [] else .blocked := by
  have positive := limits.atomicSize_pos
  have bounded := limits.atomicSize_le
  by_cases one : size = 1
  · subst one
    have room : 1 ≤ limits.capacity := by omega
    simp [write, room]
  · have impossible : ¬ (1 ≤ size ∧ size ≤ 1) := by omega
    simp [write, one]
    omega

end Ence360.Semantics.Pipe
