import Ence360.Assignment.QueryFunction
import Ence360.Assignment.StepCountProperties
import Ence360.Quadrature.IntegralError
import Mathlib.Analysis.SpecificLimits.Basic

/-!
# The error of `integrateTrap`

How far the value is from the integral for each function that a query can name, and
that it tends to the integral as the steps get more.
-/

set_option autoImplicit false

namespace Ence360.Assignment

open Filter QueryReader Quadrature Topology

variable {rangeStart rangeEnd : ℝ}

private theorem smooth_error_le {func first second : ℝ → ℝ} (ordered : rangeStart ≤ rangeEnd)
    {numSteps : ℕ} (positive : 0 < numSteps) (hasFirst : ∀ x, HasDerivAt func (first x) x)
    (hasSecond : ∀ x, HasDerivAt first (second x) x) (bounded : ∀ x, |second x| ≤ 1) :
    |integrateTrap func rangeStart rangeEnd numSteps - ∫ x in rangeStart..rangeEnd, func x| ≤
      (rangeEnd - rangeStart) ^ 3 / (12 * numSteps ^ 2) := by
  have error := abs_trapezoidSum_sub_integral_le (a := rangeStart) (b := rangeEnd) positive
    hasFirst hasSecond bounded
  rw [abs_of_nonneg (sub_nonneg.mpr ordered), mul_one] at error
  rw [integrateTrap_eq_trapezoidSum]
  exact error

theorem integrateTrap_error_le (func : MathFunc) (ordered : rangeStart ≤ rangeEnd)
    {numSteps : ℕ} (positive : 0 < numSteps) :
    |integrateTrap func.eval rangeStart rangeEnd numSteps -
        ∫ x in rangeStart..rangeEnd, func.eval x| ≤
      errorBound func rangeStart rangeEnd numSteps := by
  cases func with
  | sin =>
      refine smooth_error_le ordered positive Real.hasDerivAt_sin Real.hasDerivAt_cos fun x => ?_
      rw [abs_neg]
      exact Real.abs_sin_le_one x
  | gaussian =>
      exact smooth_error_le ordered positive hasDerivAt_gaussian hasDerivAt_gaussian_slope
        abs_gaussian_curvature_le
  | chargeDecay =>
      have error := abs_trapezoidSum_sub_integral_le_of_unimodal ordered chargeDecay_rises
        chargeDecay_falls chargeDecay_bounds positive
      rw [integrateTrap_eq_trapezoidSum]
      refine error.trans_eq ?_
      rw [width, errorBound]
      ring

theorem tendsto_errorBound (func : MathFunc) (rangeStart rangeEnd : ℝ) :
    Tendsto (errorBound func rangeStart rangeEnd) atTop (𝓝 0) := by
  have linear (factor : ℝ) : Tendsto (fun numSteps : ℕ => factor / numSteps) atTop (𝓝 0) :=
    tendsto_const_div_atTop_nhds_zero_nat factor
  have quadratic : Tendsto
      (fun numSteps : ℕ => (rangeEnd - rangeStart) ^ 3 / (12 * (numSteps : ℝ) ^ 2))
      atTop (𝓝 0) := by
    have product := (linear ((rangeEnd - rangeStart) ^ 3 / 12)).mul (linear 1)
    rw [mul_zero] at product
    refine product.congr fun numSteps => ?_
    ring
  cases func with
  | sin => exact quadratic
  | gaussian => exact quadratic
  | chargeDecay => exact linear _

/-- The value reported for a query function is within the error bound of the
integral, and converges to it as the number of steps grows. -/
theorem integrateTrap_accurate (func : MathFunc) (ordered : rangeStart ≤ rangeEnd) :
    (∀ numSteps : ℕ, 0 < numSteps →
      |integrateTrap func.eval rangeStart rangeEnd numSteps -
          ∫ x in rangeStart..rangeEnd, func.eval x| ≤
        errorBound func rangeStart rangeEnd numSteps) ∧
    Tendsto (fun numSteps => integrateTrap func.eval rangeStart rangeEnd numSteps) atTop
      (𝓝 (∫ x in rangeStart..rangeEnd, func.eval x)) := by
  refine ⟨fun numSteps positive => integrateTrap_error_le func ordered positive, ?_⟩
  rw [tendsto_iff_norm_sub_tendsto_zero]
  refine squeeze_zero' (Eventually.of_forall fun _ => norm_nonneg _) ?_
    (tendsto_errorBound func rangeStart rangeEnd)
  filter_upwards [eventually_gt_atTop 0] with numSteps positive
  exact integrateTrap_error_le func ordered positive

theorem integrateTrap_accurate_decay :
    |integrateTrap chargeDecay 0 2 4 - ∫ x in (0 : ℝ)..2, chargeDecay x| ≤
      2 * (2 - 0) / (4 : ℕ) :=
  (integrateTrap_accurate .chargeDecay zero_le_two).1 4 (by decide)

end Ence360.Assignment
