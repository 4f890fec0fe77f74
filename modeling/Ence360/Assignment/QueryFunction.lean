import Ence360.Assignment.QueryReader
import Mathlib

/-!
# The functions of a query (`gaussian` and `chargeDecay`)

The C functions read over the real numbers, and how they vary: the first two
have a second derivative of at most one, the third rises up to its jump at one
and falls after it.
-/

set_option autoImplicit false

namespace Ence360.Assignment

open Real

/-- The constant the files define where `math.h` does not. -/
noncomputable def mPi : ℝ :=
  3.14159265358979323846

noncomputable def gaussian (x : ℝ) : ℝ :=
  exp (-(x * x) / 2) / sqrt (2 * mPi)

noncomputable def chargeDecay (x : ℝ) : ℝ :=
  if x < 0 then 0
  else if x < 1 then 1 - exp (-5 * x)
  else exp (-(x - 1))

noncomputable def QueryReader.MathFunc.eval : QueryReader.MathFunc → ℝ → ℝ
  | .sin => Real.sin
  | .gaussian => Assignment.gaussian
  | .chargeDecay => Assignment.chargeDecay

/-- The distance from the integral that `numSteps` steps guarantee. -/
noncomputable def errorBound (func : QueryReader.MathFunc) (rangeStart rangeEnd : ℝ)
    (numSteps : ℕ) : ℝ :=
  match func with
  | .sin | .gaussian => (rangeEnd - rangeStart) ^ 3 / (12 * numSteps ^ 2)
  | .chargeDecay => 2 * (rangeEnd - rangeStart) / numSteps

section Gaussian

theorem one_le_sqrt_two_mPi : 1 ≤ sqrt (2 * mPi) := by
  rw [one_le_sqrt, mPi]
  norm_num

theorem hasDerivAt_gaussian (x : ℝ) : HasDerivAt gaussian (-x * gaussian x) x := by
  have square : HasDerivAt (fun y : ℝ => -(y * y) / 2) (-(1 * x + x * 1) / 2) x :=
    ((hasDerivAt_id x).mul (hasDerivAt_id x)).neg.div_const 2
  have slope : HasDerivAt gaussian
      (exp (-(x * x) / 2) * (-(1 * x + x * 1) / 2) / sqrt (2 * mPi)) x :=
    square.exp.div_const (sqrt (2 * mPi))
  refine slope.congr_deriv ?_
  rw [gaussian]
  ring

theorem hasDerivAt_gaussian_slope (x : ℝ) :
    HasDerivAt (fun y => -y * gaussian y) ((x * x - 1) * gaussian x) x := by
  have product : HasDerivAt (fun y => -y * gaussian y)
      (-1 * gaussian x + -x * (-x * gaussian x)) x :=
    (hasDerivAt_neg x).mul (hasDerivAt_gaussian x)
  refine product.congr_deriv ?_
  ring

/-- The exponential outgrows the polynomial factor of the second derivative. -/
theorem abs_square_sub_one_le_exp (x : ℝ) : |x * x - 1| ≤ exp (x * x / 2) := by
  have half : 0 ≤ x * x / 2 := div_nonneg (mul_self_nonneg x) zero_le_two
  have growth := quadratic_le_exp_of_nonneg half
  have square := sq_nonneg (x * x / 2 - 1)
  rw [abs_le]
  constructor
  · nlinarith
  · nlinarith

theorem abs_gaussian_curvature_le (x : ℝ) : |(x * x - 1) * gaussian x| ≤ 1 := by
  have root := one_le_sqrt_two_mPi
  have rootPos : 0 < sqrt (2 * mPi) := one_pos.trans_le root
  have inverse : exp (-(x * x) / 2) = (exp (x * x / 2))⁻¹ := by
    rw [← exp_neg]
    congr 1
    ring
  have factor : |x * x - 1| * exp (-(x * x) / 2) ≤ 1 := by
    rw [inverse, ← div_eq_mul_inv, div_le_one (exp_pos _)]
    exact abs_square_sub_one_le_exp x
  rw [gaussian, abs_mul, abs_of_pos (div_pos (exp_pos _) rootPos), ← mul_div_assoc,
    div_le_one rootPos]
  exact factor.trans root

end Gaussian

section ChargeDecay

theorem chargeDecay_bounds (x : ℝ) : 0 ≤ chargeDecay x ∧ chargeDecay x ≤ 1 := by
  rw [chargeDecay]
  split_ifs with negative below
  · exact ⟨le_rfl, zero_le_one⟩
  · have small : exp (-5 * x) ≤ 1 := exp_le_one_iff.mpr (by linarith)
    have pos := exp_pos (-5 * x)
    exact ⟨by linarith, by linarith⟩
  · exact ⟨(exp_pos _).le, exp_le_one_iff.mpr (by linarith)⟩

theorem chargeDecay_one : chargeDecay 1 = 1 := by
  norm_num [chargeDecay]

theorem chargeDecay_rises : MonotoneOn chargeDecay (Set.Iic 1) := by
  intro x _ y before below
  rcases (Set.mem_Iic.mp before).lt_or_eq with inside | last
  · -- Both points lie before the jump.
    have first : x < 1 := below.trans_lt inside
    rw [chargeDecay, chargeDecay]
    split_ifs with leftNegative rightNegative
    · exact le_rfl
    · have small : exp (-5 * y) ≤ 1 := exp_le_one_iff.mpr (by linarith)
      linarith
    · linarith
    · have decrease : exp (-5 * y) ≤ exp (-5 * x) := exp_le_exp.mpr (by linarith)
      linarith
  · rw [last, chargeDecay_one]
    exact (chargeDecay_bounds x).2

theorem chargeDecay_falls : AntitoneOn chargeDecay (Set.Ici 1) := by
  have late : ∀ x ∈ Set.Ici (1 : ℝ), chargeDecay x = exp (-(x - 1)) := by
    intro x after
    have reached : (1 : ℝ) ≤ x := after
    rw [chargeDecay, if_neg (by linarith), if_neg (by linarith)]
  intro x left y right below
  rw [late x left, late y right]
  exact exp_le_exp.mpr (by linarith)

end ChargeDecay

end Ence360.Assignment
