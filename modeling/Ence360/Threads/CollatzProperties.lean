import Ence360.Threads.Collatz

/-!
# The starts of a sweep

The counter and its bound have the same type. For the largest bound no counter
value ends the loop: after the last start the counter wraps to 0, and a walk
from 0 goes on for ever.
-/

set_option autoImplicit false

namespace Ence360.Threads.Collatz

open Semantics

section Walks

theorem collatzWalk_mono {fuel more : ℕ} (le : fuel ≤ more) {start : UInt32} {steps : UInt64}
    (returned : collatzWalk fuel start = some steps) : collatzWalk more start = some steps := by
  obtain ⟨walk, loop, result⟩ := Option.bind_eq_some_iff.mp returned
  exact Option.bind_eq_some_iff.mpr ⟨walk, whileLoop_mono le loop, result⟩

/-- Zero is even, and half of it is zero again. -/
theorem collatzWalk_zero (fuel : ℕ) : collatzWalk fuel 0 = none := by
  have loop : whileLoop (fun walk : Walk => decide (walk.num ≠ 1))
      (fun walk => some (walkTurn walk)) fuel { numSteps := 0, num := 0 } = none := by
    refine whileLoop_eq_none (fun walk => walk.num = 0) ?_ ?_ rfl fuel
    · intro walk zero
      rw [zero]
      rfl
    · intro walk next zero turn
      cases turn
      rw [walkTurn, zero]
      rfl
  exact Option.bind_eq_none_iff.mpr fun walk ran => nomatch loop.symm.trans ran

/-- The walks from the positive starts up to `last` return. -/
def Returns (last : ℕ) : Prop :=
  ∀ start : UInt32, 1 ≤ start.toNat → start.toNat ≤ last →
    ∃ fuel steps, collatzWalk fuel start = some steps

/-- Finitely many walks return on one common fuel. -/
theorem Returns.common {last : ℕ} (returns : Returns last) :
    ∃ bound, ∀ start : UInt32, 1 ≤ start.toNat → start.toNat ≤ last →
      ∃ steps, collatzWalk bound start = some steps := by
  induction last with
  | zero => exact ⟨0, fun start positive le => absurd positive (by omega)⟩
  | succ last ih =>
      obtain ⟨bound, earlier⟩ := ih fun start positive le => returns start positive (by omega)
      by_cases existsLast : ∃ start : UInt32, start.toNat = last + 1
      · obtain ⟨final, finalEq⟩ := existsLast
        obtain ⟨fuel, steps, returned⟩ := returns final (by omega) (by omega)
        refine ⟨max bound fuel, fun start positive le => ?_⟩
        rcases Nat.lt_or_eq_of_le le with below | same
        · obtain ⟨steps, returned⟩ := earlier start positive (Nat.le_of_lt_succ below)
          exact ⟨steps, collatzWalk_mono (Nat.le_max_left _ _) returned⟩
        · obtain rfl : start = final := UInt32.toNat_inj.mp (same.trans finalEq.symm)
          exact ⟨steps, collatzWalk_mono (Nat.le_max_right _ _) returned⟩
      · refine ⟨bound, fun start positive le => earlier start positive ?_⟩
        have notLast : start.toNat ≠ last + 1 := fun same => existsLast ⟨start, same⟩
        omega

end Walks

section Sweeps

/-- The state of a sweep after so many turns. -/
def reachedSweep (steps : UInt32 → UInt64) : ℕ → Sweep
  | 0 => { i := 1, totalSteps := 0, calls := [] }
  | turn + 1 =>
      let sweep := reachedSweep steps turn
      { i := sweep.i + 1
        totalSteps := sweep.totalSteps + steps sweep.i
        calls := sweep.calls ++ [sweep.i] }

theorem reachedSweep_i (steps : UInt32 → UInt64) {turn : ℕ} (below : turn < 4294967295) :
    (reachedSweep steps turn).i.toNat = turn + 1 := by
  induction turn with
  | zero => rfl
  | succ turn ih =>
      rw [reachedSweep, UInt32.toNat_add, ih (by omega), UInt32.toNat_one]
      exact Nat.mod_eq_of_lt (by omega)

theorem reachedSweep_calls (steps : UInt32 → UInt64) {turn : ℕ} (below : turn ≤ 4294967295) :
    (reachedSweep steps turn).calls.map UInt32.toNat = List.range' 1 turn := by
  induction turn with
  | zero => rfl
  | succ turn ih =>
      rw [reachedSweep, List.map_append, ih (by omega), List.map_singleton,
        reachedSweep_i steps below, List.range'_concat, Nat.one_mul, Nat.add_comm 1 turn]

theorem collatzSweep_eq_some {maxStart : UInt32} (below : maxStart.toNat < 4294967295)
    {steps : UInt32 → UInt64} {fuel : ℕ} (enough : maxStart.toNat < fuel)
    (returns : ∀ start : UInt32, 1 ≤ start.toNat → start.toNat ≤ maxStart.toNat →
      collatzWalk fuel start = some (steps start)) :
    collatzSweep fuel maxStart = some (reachedSweep steps maxStart.toNat) := by
  refine whileLoop_eq_reached (reachedSweep steps) ?_ ?_ ?_ enough
  · intro turn inside
    refine decide_eq_true (UInt32.le_iff_toNat_le.mpr ?_)
    rw [reachedSweep_i steps (by omega)]
    exact inside
  · intro turn inside
    have i := reachedSweep_i steps (show turn < 4294967295 by omega)
    rw [sweepTurn, returns (reachedSweep steps turn).i (by omega) (by omega)]
    rfl
  · refine decide_eq_false fun le => ?_
    rw [UInt32.le_iff_toNat_le, reachedSweep_i steps below] at le
    omega

/-- Every counter value is at most the largest bound. -/
theorem collatzSweep_largest (fuel : ℕ) : collatzSweep fuel 4294967295 = none := by
  refine whileLoop_eq_none (fun _ => True) ?_ (fun _ _ _ _ => trivial) trivial fuel
  intro sweep _
  have bound := sweep.i.toNat_lt
  exact decide_eq_true (UInt32.le_iff_toNat_le.mpr (Nat.le_of_lt_succ bound))

/-- A sweep ends, with one walk from each start in order, exactly for a bound
below the largest one. -/
theorem collatzSweep_visits_iff (maxStart : UInt32) (returns : Returns maxStart.toNat) :
    ((∃ sweep bound, (∀ fuel ≥ bound, collatzSweep fuel maxStart = some sweep) ∧
      sweep.calls.map UInt32.toNat = List.range' 1 maxStart.toNat) ↔
      maxStart.toNat < 4294967295) ∧
    ∀ fuel, collatzWalk fuel 0 = none := by
  refine ⟨⟨?_, ?_⟩, collatzWalk_zero⟩
  · intro visits
    obtain ⟨sweep, bound, ended, _⟩ := visits
    by_contra large
    have bounded := maxStart.toNat_lt
    obtain rfl : maxStart = 4294967295 := UInt32.toNat_inj.mp (by
      change maxStart.toNat = 4294967295
      omega)
    have ran := ended bound (Nat.le_refl bound)
    rw [collatzSweep_largest] at ran
    cases ran
  · intro below
    obtain ⟨bound, returned⟩ := returns.common
    refine ⟨reachedSweep (fun start => (collatzWalk bound start).getD 0) maxStart.toNat,
      max bound (maxStart.toNat + 1), ?_, reachedSweep_calls _ (Nat.le_of_lt below)⟩
    intro fuel enough
    refine collatzSweep_eq_some below (by omega) fun start positive le => ?_
    obtain ⟨count, walked⟩ := returned start positive le
    rw [collatzWalk_mono (by omega) walked, walked, Option.getD_some]

/-- The walks from 1, 2 and 3 take 0, 1 and 7 steps. -/
theorem returns_three : Returns 3 := by
  intro start positive le
  obtain one | two | three : start.toNat = 1 ∨ start.toNat = 2 ∨ start.toNat = 3 := by omega
  · obtain rfl : start = 1 := UInt32.toNat_inj.mp one
    exact ⟨1, 0, by decide⟩
  · obtain rfl : start = 2 := UInt32.toNat_inj.mp two
    exact ⟨2, 1, by decide⟩
  · obtain rfl : start = 3 := UInt32.toNat_inj.mp three
    exact ⟨8, 7, by decide⟩

theorem collatzSweep_visits_iff_three :
    ∃ sweep bound, (∀ fuel ≥ bound, collatzSweep fuel 3 = some sweep) ∧
      sweep.calls.map UInt32.toNat = [1, 2, 3] :=
  (collatzSweep_visits_iff 3 returns_three).1.mpr (by decide)

/-- The sweep up to `UINT32_MAX` never ends. -/
theorem collatzSweep_largest_never_ends :
    ¬ ∃ fuel sweep, collatzSweep fuel 4294967295 = some sweep := by
  intro ends
  obtain ⟨fuel, sweep, ran⟩ := ends
  rw [collatzSweep_largest] at ran
  cases ran

end Sweeps

end Ence360.Threads.Collatz
