import Mathlib.Data.Nat.Notation
import Mathlib.Logic.Function.Basic
import Mathlib.Tactic.Common

/-!
# Heaps of allocated objects

Objects by address, with the calls of `malloc` and `free` on record. Access to
an address without an object has no defined result. `malloc` hands out the
addresses of a supply chosen by the environment, unused ones only; what the
memory there happens to hold is part of the supply.
-/

set_option autoImplicit false

namespace Ence360.Semantics

abbrev Address := ℕ

inductive HeapEvent where
  | malloc (address : Address)
  | free (address : Address)
  deriving DecidableEq

structure Memory (Object : Type) where
  heap : Address → Option Object
  supply : List (Address × Object)
  trace : List HeapEvent

namespace Memory

variable {Object : Type}

def load (memory : Memory Object) (address : Address) : Option Object :=
  memory.heap address

def store (memory : Memory Object) (address : Address) (object : Object) :
    Option (Memory Object) :=
  if (memory.heap address).isSome then
    some { memory with heap := Function.update memory.heap address (some object) }
  else none

def malloc (memory : Memory Object) : Option (Address × Memory Object) :=
  match memory.supply with
  | [] => none
  | (address, contents) :: supply =>
      if (memory.heap address).isSome then none
      else some (address,
        { heap := Function.update memory.heap address (some contents)
          supply
          trace := memory.trace ++ [.malloc address] })

/-- Also a second call for the same address goes on record. -/
def free (memory : Memory Object) (address : Address) : Memory Object :=
  { memory with
    heap := Function.update memory.heap address none
    trace := memory.trace ++ [.free address] }

/-- The next calls of `malloc` return these addresses, and each is unused. -/
structure Supplies (memory : Memory Object) (addresses : List Address) : Prop where
  starts : addresses <+: memory.supply.map Prod.fst
  unused : ∀ address ∈ addresses, memory.heap address = none
  distinct : addresses.Nodup

theorem Supplies.shorten {memory : Memory Object} {addresses first : List Address}
    (supplies : memory.Supplies addresses) (part : first <+: addresses) :
    memory.Supplies first where
  starts := part.trans supplies.starts
  unused := fun address member => supplies.unused address (part.subset member)
  distinct := supplies.distinct.sublist part.sublist

variable {memory : Memory Object} {address : Address} {object contents : Object}

theorem ne_of_unused {other : Address} (found : memory.heap address = some object)
    (unused : memory.heap other = none) : address ≠ other := by
  intro same
  rw [same, unused] at found
  cases found

theorem store_eq_some (found : memory.heap address = some contents) :
    memory.store address object =
      some { memory with heap := Function.update memory.heap address (some object) } := by
  simp [store, found]

theorem malloc_eq_some {supply : List (Address × Object)}
    (next : memory.supply = (address, contents) :: supply)
    (unused : memory.heap address = none) :
    memory.malloc = some (address,
      { heap := Function.update memory.heap address (some contents)
        supply
        trace := memory.trace ++ [.malloc address] }) := by
  simp [malloc, next, unused]

theorem store_trace {next : Memory Object} (stored : memory.store address object = some next) :
    next.trace = memory.trace := by
  rw [store] at stored
  split at stored
  · cases stored
    rfl
  · cases stored

theorem malloc_trace {next : Memory Object} (returned : memory.malloc = some (address, next)) :
    next.trace = memory.trace ++ [.malloc address] := by
  rw [malloc] at returned
  split at returned
  · cases returned
  · split at returned
    · cases returned
    · cases returned
      rfl

/-- After one call of `malloc` the rest of the addresses is still to come. -/
theorem Supplies.cons_elim {addresses : List Address}
    (supplies : memory.Supplies (address :: addresses)) :
    ∃ contents supply, memory.supply = (address, contents) :: supply ∧
      memory.heap address = none ∧
      ∀ object trace, Supplies
        { heap := Function.update memory.heap address (some object), supply, trace } addresses := by
  obtain ⟨starts, unused, distinct⟩ := supplies
  obtain ⟨notLater, distinctLater⟩ := List.nodup_cons.mp distinct
  cases supplyEq : memory.supply with
  | nil =>
      rw [supplyEq] at starts
      cases List.prefix_nil.mp starts
  | cons first supply =>
      rw [supplyEq, List.map_cons, List.cons_prefix_cons] at starts
      obtain ⟨here, startsLater⟩ := starts
      refine ⟨first.2, supply, by rw [here], unused address List.mem_cons_self, ?_⟩
      intro object trace
      refine ⟨startsLater, fun other member => ?_, distinctLater⟩
      have different : other ≠ address := fun same => notLater (same ▸ member)
      exact (Function.update_of_ne different ..).trans
        (unused other (List.mem_cons_of_mem _ member))

end Memory

end Ence360.Semantics
