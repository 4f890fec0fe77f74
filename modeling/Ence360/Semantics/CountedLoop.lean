import Mathlib.Data.List.Basic

/-!
# Counted loops over checked arrays

`for (i = 0; i < count; i++)` over a body that may have no defined result, with
the total-correctness rule their proofs go through. An access outside an
array is such a missing result.
-/

set_option autoImplicit false

namespace Ence360.Semantics

/-- The turns `0, ..., count - 1` of the loop body, in order. -/
def countedLoop {State : Type} (body : ℕ → State → Option State) : ℕ → State → Option State
  | 0, state => some state
  | count + 1, state => (countedLoop body count state).bind (body count)

theorem countedLoop_eq {State : Type} (body : ℕ → State → Option State) (reached : ℕ → State)
    (count : ℕ) (turn : ∀ index < count, body index (reached index) = some (reached (index + 1))) :
    countedLoop body count (reached 0) = some (reached count) := by
  induction count with
  | zero => rfl
  | succ count ih =>
      rw [countedLoop, ih fun index below => turn index (Nat.lt_succ_of_lt below)]
      exact turn count (Nat.lt_succ_self count)

/-- The rule for a loop whose states are only known up to an invariant. -/
theorem countedLoop_invariant {State : Type} (body : ℕ → State → Option State)
    (invariant : ℕ → State → Prop) {count : ℕ}
    (turn : ∀ index < count, ∀ state, invariant index state →
      ∃ next, body index state = some next ∧ invariant (index + 1) next)
    {start : State} (initial : invariant 0 start) :
    ∃ finish, countedLoop body count start = some finish ∧ invariant count finish := by
  induction count with
  | zero => exact ⟨start, rfl, initial⟩
  | succ count ih =>
      obtain ⟨reached, ran, holds⟩ := ih fun index below => turn index (Nat.lt_succ_of_lt below)
      obtain ⟨finish, last, kept⟩ := turn count (Nat.lt_succ_self count) reached holds
      exact ⟨finish, by rw [countedLoop, ran]; exact last, kept⟩

/-- `values[index] = value`, defined inside the array only. -/
def writeAt {α : Type} (values : List α) (index : ℕ) (value : α) : Option (List α) :=
  if index < values.length then some (values.set index value) else none

theorem writeAt_eq_some {α : Type} {values : List α} {index : ℕ} (value : α)
    (inside : index < values.length) : writeAt values index value = some (values.set index value) :=
  if_pos inside

end Ence360.Semantics
