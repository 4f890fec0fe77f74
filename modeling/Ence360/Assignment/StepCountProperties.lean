import Ence360.Assignment.IntegrateProperties
import Ence360.Quadrature.Grid

/-!
# Two numbers of steps

The loop computes the trapezoid sum of the library, so that its bounds for monotone
and for affine functions hold of the program.
-/

set_option autoImplicit false

namespace Ence360.Assignment

open Quadrature

/-- The loop computes the trapezoid sum. -/
theorem integrateTrap_eq_trapezoidSum {K : Type} [Field K] (func : K → K) (rangeStart rangeEnd : K)
    (numSteps : ℕ) :
    integrateTrap func rangeStart rangeEnd numSteps =
      trapezoidSum func rangeStart rangeEnd numSteps := by
  rw [integrateTrap_eq_sum, trapezoidSum, width]
  refine congrArg (· * _) (Finset.sum_congr rfl fun k _ => ?_)
  rw [trapezoid, node, node, width, Nat.cast_ofNat]

variable {K : Type} [Field K] [LinearOrder K] [IsStrictOrderedRing K]
variable {func : K → K} {rangeStart rangeEnd : K} {numSteps otherSteps : ℕ}

private theorem step_counts_agree_of_monotone (ordered : rangeStart ≤ rangeEnd)
    (mono : MonotoneOn func (Set.Icc rangeStart rangeEnd)) (some : 0 < numSteps)
    (others : 0 < otherSteps) :
    |integrateTrap func rangeStart rangeEnd numSteps -
        integrateTrap func rangeStart rangeEnd otherSteps| ≤
      |func rangeEnd - func rangeStart| * (rangeEnd - rangeStart) *
        (1 / numSteps + 1 / otherSteps) := by
  have growth : func rangeStart ≤ func rangeEnd :=
    mono (Set.left_mem_Icc.mpr ordered) (Set.right_mem_Icc.mpr ordered) ordered
  rw [integrateTrap_eq_trapezoidSum, integrateTrap_eq_trapezoidSum,
    abs_of_nonneg (sub_nonneg.mpr growth)]
  exact abs_trapezoidSum_sub_le ordered mono some others

private theorem step_counts_agree_of_antitone (ordered : rangeStart ≤ rangeEnd)
    (anti : AntitoneOn func (Set.Icc rangeStart rangeEnd)) (some : 0 < numSteps)
    (others : 0 < otherSteps) :
    |integrateTrap func rangeStart rangeEnd numSteps -
        integrateTrap func rangeStart rangeEnd otherSteps| ≤
      |func rangeEnd - func rangeStart| * (rangeEnd - rangeStart) *
        (1 / numSteps + 1 / otherSteps) := by
  -- The negated function is monotone, and negation goes through the sum.
  have negated := step_counts_agree_of_monotone ordered anti.neg some others
  have negate (steps : ℕ) : integrateTrap (fun x => -func x) rangeStart rangeEnd steps =
      -integrateTrap func rangeStart rangeEnd steps := by
    rw [integrateTrap_eq_trapezoidSum, trapezoidSum_neg, integrateTrap_eq_trapezoidSum]
  rw [negate, negate, neg_sub_neg, neg_sub_neg, abs_sub_comm,
    abs_sub_comm (func rangeStart)] at negated
  exact negated

/-- Two step counts give nearby values for a function that is monotone on the
range, and every step count is exact for an affine function. -/
theorem step_counts_agree (ordered : rangeStart ≤ rangeEnd) (some : 0 < numSteps)
    (others : 0 < otherSteps) :
    (MonotoneOn func (Set.Icc rangeStart rangeEnd) ∨
        AntitoneOn func (Set.Icc rangeStart rangeEnd) →
      |integrateTrap func rangeStart rangeEnd numSteps -
          integrateTrap func rangeStart rangeEnd otherSteps| ≤
        |func rangeEnd - func rangeStart| * (rangeEnd - rangeStart) *
          (1 / numSteps + 1 / otherSteps)) ∧
    ((∃ slope offset, ∀ x, func x = slope * x + offset) →
      integrateTrap func rangeStart rangeEnd numSteps =
        (rangeEnd - rangeStart) * (func rangeStart + func rangeEnd) / 2) := by
  constructor
  · intro either
    rcases either with mono | anti
    · exact step_counts_agree_of_monotone ordered mono some others
    · exact step_counts_agree_of_antitone ordered anti some others
  · intro affine
    obtain ⟨slope, offset, value⟩ := affine
    obtain rfl : func = fun x => slope * x + offset := funext value
    rw [integrateTrap_eq_trapezoidSum]
    exact trapezoidSum_affine rangeStart rangeEnd slope offset some

theorem step_counts_agree_two_three :
    |integrateTrap (fun x : ℚ => 3 * x + 1) 0 1 2 - integrateTrap (fun x : ℚ => 3 * x + 1) 0 1 3| ≤
        |(3 * 1 + 1) - (3 * 0 + 1)| * (1 - 0) * (1 / (2 : ℕ) + 1 / (3 : ℕ)) ∧
      integrateTrap (fun x : ℚ => 3 * x + 1) 0 1 2 = (1 - 0) * ((3 * 0 + 1) + (3 * 1 + 1)) / 2 := by
  have agree := @step_counts_agree ℚ _ _ _ (fun x => 3 * x + 1) 0 1 2 3 (by decide) (by decide)
    (by decide)
  refine ⟨agree.1 (.inl fun x _ y _ below => ?_), agree.2 ⟨3, 1, fun _ => rfl⟩⟩
  linarith

end Ence360.Assignment
