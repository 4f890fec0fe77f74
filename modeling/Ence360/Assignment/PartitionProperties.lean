import Ence360.Assignment.IntegrateProperties

/-!
# The partition of the steps among the threads

The sub-range of a thread is a block of the serial grid, so the blocks of all
threads, one after the other, are the whole grid.
-/

set_option autoImplicit false

namespace Ence360.Assignment

def ThreadArgs.pairs {K : Type} [Field K] (args : ThreadArgs K) : List (K × K) :=
  evaluatedPairs args.start args.finish args.steps

def ThreadArgs.width {K : Type} [Field K] (args : ThreadArgs K) : K :=
  stepWidth args.start args.finish args.steps

/-- The arguments of the threads tile the range of the query. -/
structure Tiles {K : Type} [Field K] (query : Query K) (parts : List (ThreadArgs K)) : Prop where
  steps_sum : (parts.map ThreadArgs.steps).sum = query.numSteps
  balanced : ∀ first ∈ parts, ∀ second ∈ parts, first.steps ≤ second.steps + 1
  first_start : parts.head?.map ThreadArgs.start = some query.rangeStart
  contiguous : parts.IsChain fun left right => left.finish = right.start
  last_finish : parts.getLast?.map ThreadArgs.finish = some query.rangeEnd
  width_eq : ∀ args ∈ parts, args.steps ≠ 0 →
    args.width = stepWidth query.rangeStart query.rangeEnd query.numSteps
  pairs_eq : parts.flatMap ThreadArgs.pairs =
    evaluatedPairs query.rangeStart query.rangeEnd query.numSteps

variable {K : Type} [Field K]

private theorem steps_sum_range (threads numSteps count : ℕ) :
    ((List.range count).map fun i => stepsOf threads numSteps i).sum =
      firstStep threads numSteps count := by
  induction count with
  | zero => simp [firstStep]
  | succ count ih =>
      rw [List.range_succ, List.map_append, List.sum_append, ih, firstStep_succ]
      simp

theorem stepsOf_balanced (threads numSteps i j : ℕ) :
    stepsOf threads numSteps i ≤ stepsOf threads numSteps j + 1 := by
  simp only [stepsOf]
  split <;> split <;> omega

variable (threads : ℕ) (query : Query K)

/-- The arguments of thread `i`. -/
def part (i : ℕ) : ThreadArgs K :=
  threadArgs threads query (currentStart threads query i) i

theorem part_chain (count : ℕ) :
    ((List.range count).map (part threads query)).IsChain
      fun left right => left.finish = right.start := by
  rw [List.isChain_map, List.isChain_range]
  intro i _
  rfl

variable [CharZero K]

/-- The pair of the serial grid with the given number. -/
def gridPair (k : ℕ) : K × K :=
  let dx := stepWidth query.rangeStart query.rangeEnd query.numSteps
  (query.rangeStart + (k : K) * dx, query.rangeStart + ((k + 1 : ℕ) : K) * dx)

theorem part_pairs (i : ℕ) :
    (part threads query i).pairs =
      (List.range (stepsOf threads query.numSteps i)).map fun j =>
        gridPair query (firstStep threads query.numSteps i + j) := by
  by_cases none : stepsOf threads query.numSteps i = 0
  · have steps : (part threads query i).steps = 0 := none
    rw [ThreadArgs.pairs, evaluatedPairs, steps, none]
    rfl
  · have width := threadArgs_width threads query none
    have start : (part threads query i).start = query.rangeStart +
        (firstStep threads query.numSteps i : K) *
          stepWidth query.rangeStart query.rangeEnd query.numSteps :=
      currentStart_eq threads query i
    refine List.map_congr_left fun j _ => ?_
    simp only [part, width] at start ⊢
    simp only [start, gridPair, Nat.cast_add, Nat.cast_one]
    ring_nf

theorem parts_pairs (count : ℕ) :
    ((List.range count).map (part threads query)).flatMap ThreadArgs.pairs =
      (List.range (firstStep threads query.numSteps count)).map (gridPair query) := by
  induction count with
  | zero => simp [firstStep]
  | succ count ih =>
      rw [List.range_succ, List.map_append, List.flatMap_append, ih, List.map_singleton,
        List.flatMap_singleton, part_pairs, firstStep_succ, List.range_add, List.map_append,
        List.map_map]
      rfl

/-- For any number of threads the partition loop cuts the serial grid into
consecutive blocks of nearly equal length. -/
theorem partition_tiles (some : 0 < threads) (positive : 0 < query.numSteps) :
    Tiles query (partition threads query) where
  steps_sum := by
    rw [partition, List.map_map]
    exact (steps_sum_range threads query.numSteps threads).trans
      (firstStep_threads query.numSteps some)
  balanced := by
    intro first firstMem second secondMem
    obtain ⟨i, _, rfl⟩ := List.mem_map.mp firstMem
    obtain ⟨j, _, rfl⟩ := List.mem_map.mp secondMem
    exact stepsOf_balanced threads query.numSteps i j
  first_start := by
    rw [partition, List.head?_map, List.head?_range, if_neg some.ne']
    rfl
  contiguous := part_chain threads query threads
  last_finish := by
    rw [partition, List.getLast?_map, List.getLast?_range, if_neg some.ne']
    have finish : (part threads query (threads - 1)).finish = query.rangeEnd := by
      change currentStart threads query (threads - 1 + 1) = query.rangeEnd
      rw [Nat.sub_add_cancel some, currentStart_eq, firstStep_threads query.numSteps some,
        mul_div_cancel₀ _ (Nat.cast_ne_zero.mpr positive.ne'), add_sub_cancel]
    exact congrArg Option.some finish
  width_eq := by
    intro args member some
    obtain ⟨i, _, rfl⟩ := List.mem_map.mp member
    exact threadArgs_width threads query some
  pairs_eq := by
    have whole := parts_pairs threads query threads
    rw [firstStep_threads query.numSteps some] at whole
    exact whole

theorem partition_tiles_three_seven :
    let query : Query ℚ := ⟨"sin", fun x => x * x, -1, 1, 7⟩
    0 < 3 ∧ 0 < query.numSteps ∧ Tiles query (partition 3 query) := by
  intro query
  exact ⟨by decide, by decide, partition_tiles 3 query (by decide) (by decide)⟩

end Ence360.Assignment
