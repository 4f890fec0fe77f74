import Ence360.Assignment.Integrate
import Ence360.Semantics.Undefined
import Mathlib

/-!
# The sums of `integrateTrap`

The loop as a sum over the nodes of its range, the ranges and steps of the threads,
and what an undefined summand does to a total.
-/

set_option autoImplicit false

namespace Ence360.Assignment

open Semantics WithUndefined

/-- The number of steps handed to thread `i`. -/
def stepsOf (threads numSteps i : ℕ) : ℕ :=
  numSteps / threads + if i < numSteps % threads then 1 else 0

/-- The number of steps handed out before turn `i`. -/
def firstStep (threads numSteps i : ℕ) : ℕ :=
  i * (numSteps / threads) + min i (numSteps % threads)

theorem firstStep_succ (threads numSteps i : ℕ) :
    firstStep threads numSteps (i + 1) =
      firstStep threads numSteps i + stepsOf threads numSteps i := by
  rw [firstStep, firstStep, stepsOf, Nat.succ_mul]
  split
  · next below => rw [min_eq_left below, min_eq_left below.le]; omega
  · next above =>
      rw [min_eq_right (Nat.not_lt.mp above), min_eq_right (Nat.not_lt.mp above |>.trans i.le_succ)]
      omega

theorem firstStep_threads {threads : ℕ} (numSteps : ℕ) (positive : 0 < threads) :
    firstStep threads numSteps threads = numSteps := by
  rw [firstStep, min_eq_right (Nat.mod_lt numSteps positive).le]
  exact Nat.div_add_mod numSteps threads

theorem stepsOf_pos {threads numSteps : ℕ} (i : ℕ) (positive : 0 < threads)
    (enough : threads ≤ numSteps) : 0 < stepsOf threads numSteps i := by
  have quotient : 0 < numSteps / threads := Nat.div_pos enough positive
  rw [stepsOf]
  omega

theorem stepsOf_last_eq_zero {threads numSteps : ℕ} (few : numSteps < threads) :
    stepsOf threads numSteps (threads - 1) = 0 := by
  rw [stepsOf, Nat.div_eq_of_lt few, Nat.mod_eq_of_lt few, if_neg (by omega)]

section Exact

variable {K : Type} [Field K]

def trapezoid (func : K → K) (start dx : K) (k : ℕ) : K :=
  (func (start + (k : K) * dx) + func (start + ((k + 1 : ℕ) : K) * dx)) / ((2 : ℕ) : K)

private theorem foldl_range_eq_sum (term : ℕ → K) (count : ℕ) :
    (List.range count).foldl (fun sum i => sum + term i) 0 = ∑ i ∈ Finset.range count, term i := by
  induction count with
  | zero => rfl
  | succ count ih =>
      rw [List.range_succ, List.foldl_append, ih, Finset.sum_range_succ]
      rfl

theorem integrateTrap_eq_sum (func : K → K) (rangeStart rangeEnd : K) (numSteps : ℕ) :
    integrateTrap func rangeStart rangeEnd numSteps =
      (∑ k ∈ Finset.range numSteps,
        trapezoid func rangeStart ((rangeEnd - rangeStart) / numSteps) k) *
        ((rangeEnd - rangeStart) / numSteps) := by
  rw [← foldl_range_eq_sum]
  rfl

private theorem steps_partition {args : ThreadArgs K} {threads : ℕ} {query : Query K}
    (member : args ∈ partition threads query) :
    ∃ i < threads, args.steps = stepsOf threads query.numSteps i := by
  obtain ⟨i, below, rfl⟩ := List.mem_map.mp member
  exact ⟨i, List.mem_range.mp below, rfl⟩

variable [CharZero K]

private theorem natCast_ne_zero {value : ℕ} (positive : 0 < value) : (value : K) ≠ 0 := by
  exact_mod_cast positive.ne'

/-- Over exact numbers every thread starts on a node of the serial grid. -/
theorem currentStart_eq (threads : ℕ) (query : Query K) (i : ℕ) :
    currentStart threads query i = query.rangeStart +
      (firstStep threads query.numSteps i : K) *
        ((query.rangeEnd - query.rangeStart) / query.numSteps) := by
  induction i with
  | zero => simp [currentStart, firstStep]
  | succ i ih =>
      have finish : currentStart threads query (i + 1) = currentStart threads query i +
          (query.rangeEnd - query.rangeStart) * (stepsOf threads query.numSteps i : K) /
            query.numSteps := rfl
      rw [finish, ih, firstStep_succ, Nat.cast_add]
      ring

/-- A thread with any steps computes the step width of the whole range. -/
theorem threadArgs_width (threads : ℕ) (query : Query K) {i : ℕ}
    (some : stepsOf threads query.numSteps i ≠ 0) :
    stepWidth (threadArgs threads query (currentStart threads query i) i).start
        (threadArgs threads query (currentStart threads query i) i).finish
        (threadArgs threads query (currentStart threads query i) i).steps =
      stepWidth query.rangeStart query.rangeEnd query.numSteps := by
  have nonzero : (stepsOf threads query.numSteps i : K) ≠ 0 := Nat.cast_ne_zero.mpr some
  change (currentStart threads query i +
      (query.rangeEnd - query.rangeStart) * (stepsOf threads query.numSteps i : K) /
        query.numSteps - currentStart threads query i) /
      (stepsOf threads query.numSteps i : K) = _
  rw [add_sub_cancel_left, mul_div_right_comm, mul_div_assoc, div_self nonzero, mul_one, stepWidth]

theorem area_eq_sum (threads : ℕ) (query : Query K) (i : ℕ) :
    (threadArgs threads query (currentStart threads query i) i).area =
      (∑ j ∈ Finset.range (stepsOf threads query.numSteps i),
        trapezoid query.func query.rangeStart
          ((query.rangeEnd - query.rangeStart) / query.numSteps)
          (firstStep threads query.numSteps i + j)) *
        ((query.rangeEnd - query.rangeStart) / query.numSteps) := by
  rw [ThreadArgs.area, integrateTrap_eq_sum]
  by_cases none : stepsOf threads query.numSteps i = 0
  · have steps : (threadArgs threads query (currentStart threads query i) i).steps = 0 := none
    rw [steps, none]
    simp
  · have width : ((threadArgs threads query (currentStart threads query i) i).finish -
        (threadArgs threads query (currentStart threads query i) i).start) /
          (threadArgs threads query (currentStart threads query i) i).steps =
        (query.rangeEnd - query.rangeStart) / query.numSteps := threadArgs_width threads query none
    rw [width]
    congr 1
    refine Finset.sum_congr rfl fun j _ => ?_
    change trapezoid query.func (currentStart threads query i) _ j = _
    rw [trapezoid, trapezoid, currentStart_eq]
    push_cast
    ring_nf

/-- No trapezoid is missing or repeated: the areas of the first threads are the
serial sum up to the first step of the next thread. -/
theorem sum_areas (threads : ℕ) (query : Query K) (count : ℕ) :
    ((List.range count).map fun i =>
      (threadArgs threads query (currentStart threads query i) i).area).sum =
      (∑ k ∈ Finset.range (firstStep threads query.numSteps count),
        trapezoid query.func query.rangeStart
          ((query.rangeEnd - query.rangeStart) / query.numSteps) k) *
        ((query.rangeEnd - query.rangeStart) / query.numSteps) := by
  induction count with
  | zero => simp [firstStep]
  | succ count ih =>
      rw [List.range_succ, List.map_append, List.sum_append, ih, List.map_singleton,
        List.sum_singleton, area_eq_sum, firstStep_succ, Finset.sum_range_add, add_mul]

theorem sum_partition {threads : ℕ} (query : Query K) (positive : 0 < threads) :
    ((partition threads query).map ThreadArgs.area).sum = query.serialArea := by
  rw [partition, List.map_map, Query.serialArea, integrateTrap_eq_sum]
  exact (sum_areas threads query threads).trans (by rw [firstStep_threads _ positive])

end Exact

/-- A query over exact numbers that passes the test of `getValidInput`. -/
structure AcceptedQuery (K : Type) [LE K] extends Query K where
  ordered : rangeStart ≤ rangeEnd
  positive : 0 < numSteps

section Extended

variable {K : Type} [Field K] [DecidableEq K]

def Query.extended (query : Query K) : Query (WithUndefined K) where
  funcName := query.funcName
  func := map query.func
  rangeStart := of query.rangeStart
  rangeEnd := of query.rangeEnd
  numSteps := query.numSteps

def ThreadArgs.extended (args : ThreadArgs K) : ThreadArgs (WithUndefined K) where
  func := map args.func
  start := of args.start
  finish := of args.finish
  steps := args.steps

theorem integrateTrap_zero (func : WithUndefined K → WithUndefined K)
    (rangeStart rangeEnd : WithUndefined K) :
    integrateTrap func rangeStart rangeEnd 0 = undefined := by
  simp only [integrateTrap]
  rw [natCast_eq, Nat.cast_zero, div_of_zero, mul_undefined]

variable [CharZero K]

theorem integrateTrap_of (func : K → K) (rangeStart rangeEnd : K) {numSteps : ℕ}
    (positive : 0 < numSteps) :
    integrateTrap (map func) (of rangeStart) (of rangeEnd) numSteps =
      of (integrateTrap func rangeStart rangeEnd numSteps) := by
  have two : ((2 : ℕ) : K) ≠ 0 := natCast_ne_zero (by decide)
  -- The loop computes exactly, from any exact partial sum.
  have loop (dx : K) (indices : List ℕ) (sum : K) :
      indices.foldl (fun (sum : WithUndefined K) (i : ℕ) => sum +
        (map func (of rangeStart + (i : WithUndefined K) * of dx) +
          map func (of rangeStart + ((i + 1 : ℕ) : WithUndefined K) * of dx)) /
          ((2 : ℕ) : WithUndefined K)) (of sum) =
        of (indices.foldl (fun (sum : K) (i : ℕ) => sum + (func (rangeStart + (i : K) * dx) +
          func (rangeStart + ((i + 1 : ℕ) : K) * dx)) / ((2 : ℕ) : K)) sum) := by
    induction indices generalizing sum with
    | nil => rfl
    | cons head tail ih =>
        rw [List.foldl_cons, List.foldl_cons, ← ih]
        congr 1
        rw [natCast_eq, natCast_eq, natCast_eq, of_mul, of_mul, of_add, of_add, map_of, map_of,
          of_add, of_div _ two, of_add]
  have width : (of rangeEnd - of rangeStart) / ((numSteps : ℕ) : WithUndefined K) =
      of ((rangeEnd - rangeStart) / numSteps) := by
    rw [natCast_eq, of_sub, of_div _ (natCast_ne_zero positive)]
  simp only [integrateTrap]
  rw [width, zero_eq, loop, of_mul]

private theorem threadArgs_extended (threads : ℕ) (query : Query K) (positive : 0 < query.numSteps)
    (start : K) (i : ℕ) :
    threadArgs threads query.extended (of start) i =
      (threadArgs threads query start i).extended := by
  simp only [threadArgs, ThreadArgs.extended, Query.extended, natCast_eq, of_sub, of_mul,
    of_div _ (natCast_ne_zero positive), of_add]
  rfl

private theorem currentStart_extended (threads : ℕ) (query : Query K)
    (positive : 0 < query.numSteps) (i : ℕ) :
    currentStart threads query.extended i = of (currentStart threads query i) := by
  induction i with
  | zero => rfl
  | succ i ih =>
      rw [currentStart, ih, threadArgs_extended threads query positive]
      rfl

theorem partition_extended (threads : ℕ) (query : Query K) (positive : 0 < query.numSteps) :
    partition threads query.extended = (partition threads query).map ThreadArgs.extended := by
  rw [partition, partition, List.map_map]
  refine List.map_congr_left fun i _ => ?_
  rw [currentStart_extended threads query positive, threadArgs_extended threads query positive]
  rfl

theorem serialArea_extended (query : Query K) (positive : 0 < query.numSteps) :
    query.extended.serialArea = of query.serialArea :=
  integrateTrap_of query.func query.rangeStart query.rangeEnd positive

/-- The threads' areas add up to the serial value exactly when no thread is left
without a step, which would divide zero by zero. -/
theorem sum_partition_extended_iff {threads : ℕ} (query : Query K)
    (positive : 0 < query.numSteps) (some : 0 < threads) :
    ((partition threads query.extended).map ThreadArgs.area).sum = of query.serialArea ↔
      threads ≤ query.numSteps := by
  rw [partition_extended threads query positive, List.map_map]
  constructor
  · intro agrees
    by_contra few
    have idle := stepsOf_last_eq_zero (Nat.not_le.mp few)
    have missing : undefined ∈ (partition threads query).map
        (ThreadArgs.area ∘ ThreadArgs.extended) := by
      refine List.mem_map.mpr ⟨_, List.mem_map.mpr ⟨threads - 1, ?_, rfl⟩, ?_⟩
      · exact List.mem_range.mpr (Nat.sub_one_lt some.ne')
      · have steps : ∀ args : ThreadArgs K, args.steps = 0 → args.extended.area = undefined := by
          intro args none
          rw [ThreadArgs.area, ThreadArgs.extended, none]
          exact integrateTrap_zero _ _ _
        exact steps _ idle
    rw [sum_eq_undefined missing] at agrees
    cases agrees
  · intro enough
    have areasDefined : (partition threads query).map (ThreadArgs.area ∘ ThreadArgs.extended) =
        (partition threads query).map fun args => of args.area := by
      refine List.map_congr_left fun args member => ?_
      obtain ⟨i, _, steps⟩ := steps_partition member
      exact integrateTrap_of _ _ _ (steps ▸ stepsOf_pos i some enough)
    rw [areasDefined, sum_map_of, sum_partition query some]

end Extended

end Ence360.Assignment
