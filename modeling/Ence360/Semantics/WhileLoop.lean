import Mathlib.Data.Nat.Init
import Mathlib.Tactic.Common

/-!
# While loops

`while (guard) body` over a body that may have no defined result. The fuel
bounds the number of turns; a loop with a variant runs to its end on any fuel
above it.
-/

set_option autoImplicit false

namespace Ence360.Semantics

variable {State : Type}

def whileLoop (guard : State → Bool) (body : State → Option State) : ℕ → State → Option State
  | 0, _ => none
  | fuel + 1, state =>
      if guard state then (body state).bind (whileLoop guard body fuel) else some state

variable {guard : State → Bool} {body : State → Option State}

theorem whileLoop_of_guard_false {state : State} (fuel : ℕ) (ended : guard state = false) :
    whileLoop guard body (fuel + 1) state = some state := by
  simp [whileLoop, ended]

theorem whileLoop_of_turn {state next : State} (fuel : ℕ) (runs : guard state = true)
    (turn : body state = some next) :
    whileLoop guard body (fuel + 1) state = whileLoop guard body fuel next := by
  simp [whileLoop, runs, turn]

/-- More fuel keeps a result. -/
theorem whileLoop_mono {fuel more : ℕ} (le : fuel ≤ more) {state finish : State}
    (ran : whileLoop guard body fuel state = some finish) :
    whileLoop guard body more state = some finish := by
  induction fuel generalizing more state with
  | zero => cases ran
  | succ fuel ih =>
      obtain ⟨more, rfl⟩ := Nat.exists_eq_add_of_le' (Nat.le_of_lt_succ (Nat.lt_succ_of_le le))
      rw [whileLoop] at ran
      rw [← Nat.add_assoc, whileLoop]
      split at ran
      · next runs =>
          obtain ⟨next, stepped, later⟩ := Option.bind_eq_some_iff.mp ran
          rw [if_pos runs, stepped]
          exact ih (Nat.le_add_left fuel more) later
      · next ended => rw [if_neg ended, ran]

/-- Total correctness: a loop whose turns are defined, keep the invariant and
lower the variant ends in a state with the invariant and a false guard. -/
theorem whileLoop_eq_some (guard : State → Bool) (body : State → Option State)
    (invariant : State → Prop) (variant : State → ℕ)
    (turn : ∀ state, invariant state → guard state = true →
      ∃ next, body state = some next ∧ invariant next ∧ variant next < variant state)
    {start : State} (initial : invariant start) {fuel : ℕ} (enough : variant start < fuel) :
    ∃ finish, whileLoop guard body fuel start = some finish ∧ invariant finish ∧
      guard finish = false := by
  induction fuel generalizing start with
  | zero => exact absurd enough (Nat.not_lt_zero _)
  | succ fuel ih =>
      cases runs : guard start with
      | false => exact ⟨start, whileLoop_of_guard_false fuel runs, initial, runs⟩
      | true =>
          obtain ⟨next, stepped, kept, lower⟩ := turn start initial runs
          rw [whileLoop_of_turn fuel runs stepped]
          exact ih kept (by omega)

/-- The rule for a loop whose states are known turn by turn. -/
theorem whileLoop_eq_reached (reached : ℕ → State) {count : ℕ}
    (runs : ∀ turn < count, guard (reached turn) = true)
    (turns : ∀ turn < count, body (reached turn) = some (reached (turn + 1)))
    (ended : guard (reached count) = false) {fuel : ℕ} (enough : count < fuel) :
    whileLoop guard body fuel (reached 0) = some (reached count) := by
  induction count generalizing reached fuel with
  | zero =>
      obtain ⟨fuel, rfl⟩ := Nat.exists_eq_add_one_of_ne_zero (Nat.ne_of_gt enough)
      exact whileLoop_of_guard_false fuel ended
  | succ count ih =>
      obtain ⟨fuel, rfl⟩ := Nat.exists_eq_add_one_of_ne_zero
        (Nat.ne_of_gt (Nat.zero_lt_of_lt enough))
      rw [whileLoop_of_turn fuel (runs 0 (Nat.succ_pos count)) (turns 0 (Nat.succ_pos count))]
      exact ih (fun turn => reached (turn + 1))
        (fun turn below => runs (turn + 1) (Nat.succ_lt_succ below))
        (fun turn below => turns (turn + 1) (Nat.succ_lt_succ below)) ended
        (Nat.lt_of_succ_lt_succ enough)

/-- Partial correctness: a loop that ends keeps what its turns keep. -/
theorem whileLoop_invariant (invariant : State → Prop)
    (turn : ∀ state next, invariant state → body state = some next → invariant next)
    {fuel : ℕ} {start finish : State} (initial : invariant start)
    (ran : whileLoop guard body fuel start = some finish) : invariant finish := by
  induction fuel generalizing start with
  | zero => cases ran
  | succ fuel ih =>
      rw [whileLoop] at ran
      split at ran
      · obtain ⟨next, stepped, later⟩ := Option.bind_eq_some_iff.mp ran
        exact ih (turn start next initial stepped) later
      · cases ran
        exact initial

/-- A loop whose guard stays true through every defined turn has no result. -/
theorem whileLoop_eq_none (invariant : State → Prop)
    (runs : ∀ state, invariant state → guard state = true)
    (turn : ∀ state next, invariant state → body state = some next → invariant next)
    {start : State} (initial : invariant start) (fuel : ℕ) :
    whileLoop guard body fuel start = none := by
  induction fuel generalizing start with
  | zero => rfl
  | succ fuel ih =>
      rw [whileLoop, if_pos (runs start initial)]
      cases stepped : body start with
      | none => rfl
      | some next => exact ih (turn start next initial stepped)

end Ence360.Semantics
