import Ence360.Semantics.CheckedInt
import Ence360.Semantics.Heap
import Ence360.Semantics.WhileLoop

/-!
# Linked lists (`lab1Revision/linkedList.c`)

A pointer is an address or `NULL`. The list functions do not look at the values,
so they are read over any type of values; `fibonacci` and `square` compute with
`int32_t`.
-/

set_option autoImplicit false

namespace Ence360.Revision.LinkedList

open Semantics

structure Link (V : Type) where
  next : Option Address
  value : V

section Generic

variable {V : Type}

def setNext (memory : Memory (Link V)) (address : Address) (next : Option Address) :
    Option (Memory (Link V)) := do
  let link ← memory.load address
  memory.store address { link with next }

def setValue (memory : Memory (Link V)) (address : Address) (value : V) :
    Option (Memory (Link V)) := do
  let link ← memory.load address
  memory.store address { link with value }

/-- Append a value to the front of a linked list. -/
def listAppend (x : V) (head : Option Address) (memory : Memory (Link V)) :
    Option (Option Address × Memory (Link V)) := do
  let (newHead, memory) ← memory.malloc
  let memory ← setNext memory newHead head
  let memory ← setValue memory newHead x
  return (some newHead, memory)

/-- The variables of a loop that walks along a list with `l` and builds one at `head`. -/
structure Walk (V : Type) where
  head : Option Address
  l : Option Address
  memory : Memory (Link V)

def reverseTurn (walk : Walk V) : Option (Walk V) := do
  let l ← walk.l
  let link ← walk.memory.load l
  let memory ← setNext walk.memory l walk.head
  return { head := some l, l := link.next, memory }

def listReverse (fuel : ℕ) (list : Option Address) (memory : Memory (Link V)) :
    Option (Option Address × Memory (Link V)) := do
  let walk ← whileLoop (fun walk => walk.l.isSome) reverseTurn fuel
    { head := none, l := list, memory }
  return (walk.head, walk.memory)

def mapTurn (f : V → Option V) (walk : Walk V) : Option (Walk V) := do
  let l ← walk.l
  let link ← walk.memory.load l
  let value ← f link.value
  let (head, memory) ← listAppend value walk.head walk.memory
  let link ← memory.load l
  return { head, l := link.next, memory }

/-- The function has no result where the C function is undefined. -/
def listMap (fuel : ℕ) (list : Option Address) (f : V → Option V) (memory : Memory (Link V)) :
    Option (Option Address × Memory (Link V)) := do
  let walk ← whileLoop (fun walk => walk.l.isSome) (mapTurn f) fuel
    { head := none, l := list, memory }
  listReverse fuel walk.head walk.memory

def freeTurn (walk : Walk V) : Option (Walk V) := do
  let l ← walk.l
  let link ← walk.memory.load l
  return { walk with l := link.next, memory := walk.memory.free l }

/-- After the loop the head is passed to `free` again. -/
def listFree (fuel : ℕ) (list : Option Address) (memory : Memory (Link V)) :
    Option (Memory (Link V)) := do
  let walk ← whileLoop (fun walk => walk.l.isSome) freeTurn fuel
    { head := none, l := list, memory }
  match list with
  | some head => return walk.memory.free head
  | none => return walk.memory

end Generic

section Integers

structure FibState where
  head : Option Address
  prev : ℤ
  latest : ℤ
  i : ℤ
  memory : Memory (Link ℤ)

def fibTurn (state : FibState) : Option FibState := do
  let sum ← CheckedInt.add state.latest state.prev
  let (head, memory) ← listAppend sum state.head state.memory
  let link ← memory.load (← head)
  let i ← CheckedInt.add state.i 1
  return { head, prev := state.latest, latest := link.value, i, memory }

def fibonacci (fuel : ℕ) (n : ℤ) (memory : Memory (Link ℤ)) :
    Option (Option Address × Memory (Link ℤ)) := do
  let (head, memory) ← if n > 0 then listAppend 1 none memory else some (none, memory)
  let (head, memory) ← if n > 1 then listAppend 1 head memory else some (head, memory)
  let state ← whileLoop (fun state => decide (state.i < n)) fibTurn fuel
    { head, prev := 1, latest := 1, i := 2, memory }
  listReverse fuel state.head state.memory

def square (x : ℤ) : Option ℤ :=
  CheckedInt.mul x x

/-- The calls of `main` that build and release the two lists. -/
def buildAndFree (fuel : ℕ) (n : ℤ) (memory : Memory (Link ℤ)) : Option (Memory (Link ℤ)) := do
  let (fib, memory) ← fibonacci fuel n memory
  let (fibSq, memory) ← listMap fuel fib square memory
  let memory ← listFree fuel fibSq memory
  listFree fuel fib memory

end Integers

end Ence360.Revision.LinkedList
