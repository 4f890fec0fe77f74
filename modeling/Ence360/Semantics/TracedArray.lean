import Mathlib.Data.List.Basic
import Mathlib.Data.List.TakeDrop

/-!
# Arrays that record their writes

An array together with the indices written to it, in order. A write outside
the array has no defined result.
-/

set_option autoImplicit false

namespace Ence360.Semantics

structure TracedArray (α : Type) where
  values : List α
  writes : List ℕ

namespace TracedArray

variable {α : Type}

def untouched (values : List α) : TracedArray α where
  values := values
  writes := []

def write (array : TracedArray α) (index : ℕ) (value : α) : Option (TracedArray α) :=
  if index < array.values.length then
    some { values := array.values.set index value, writes := array.writes ++ [index] }
  else none

/-- The array after its first entries have been written from left to right, each
once. -/
def filled (original done : List α) : TracedArray α where
  values := done ++ original.drop done.length
  writes := List.range done.length

theorem filled_all {original done : List α} (all : original.length = done.length) :
    filled original done = { values := done, writes := List.range done.length } := by
  rw [filled, ← all, List.drop_length, List.append_nil]

theorem write_filled {original done : List α} (value : α)
    (room : done.length < original.length) :
    (filled original done).write done.length value = some (filled original (done ++ [value])) := by
  have rest : original.drop done.length = original.get ⟨done.length, room⟩ ::
      original.drop (done.length + 1) := List.drop_eq_getElem_cons room
  have inside : done.length < (filled original done).values.length := by
    simp only [filled, List.length_append, List.length_drop]
    omega
  rw [write, if_pos inside]
  simp only [filled, rest, List.set_append_right _ _ (Nat.le_refl _), Nat.sub_self,
    List.set_cons_zero, List.length_append, List.length_singleton, List.range_succ,
    List.append_assoc, List.singleton_append]

end TracedArray

end Ence360.Semantics
