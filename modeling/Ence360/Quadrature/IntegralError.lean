import Ence360.Quadrature.Grid
import Mathlib.MeasureTheory.Integral.IntervalIntegral.TrapezoidalRule
import Mathlib.MeasureTheory.Function.LocallyIntegrable

/-!
# The distance of a trapezoid sum from the integral

For a function with a bounded second derivative the distance is quadratic in
the step width. For a function that rises and then falls it is linear, also
where the function jumps.
-/

set_option autoImplicit false

namespace Ence360.Quadrature

open MeasureTheory

variable {f : ℝ → ℝ} {a b : ℝ} {n : ℕ}

theorem trapezoidSum_eq_trapezoidal_integral (positive : 0 < n) :
    trapezoidSum f a b n = trapezoidal_integral f n a b := by
  have last : a + n * width a b n = b := node_last a b positive
  have cells := sum_trapezoidal_integral_adjacent_intervals (f := f) (a := a)
    (h := width a b n) positive
  rw [last] at cells
  rw [← cells, trapezoidSum, Finset.sum_mul]
  refine Finset.sum_congr rfl fun k _ => ?_
  rw [trapezoidal_integral_one, node, node, Nat.cast_add, Nat.cast_one]
  ring

section SecondDerivative

variable {first second : ℝ → ℝ}

theorem abs_trapezoidSum_sub_integral_le {bound : ℝ} (positive : 0 < n)
    (hasFirst : ∀ x, HasDerivAt f (first x) x) (hasSecond : ∀ x, HasDerivAt first (second x) x)
    (bounded : ∀ x, |second x| ≤ bound) :
    |trapezoidSum f a b n - ∫ x in a..b, f x| ≤ |b - a| ^ 3 * bound / (12 * n ^ 2) := by
  rw [trapezoidSum_eq_trapezoidal_integral positive]
  rcases eq_or_ne a b with same | different
  · subst same
    simp
  · have unique : UniqueDiffOn ℝ (Set.uIcc a b) := uniqueDiffOn_uIcc different
    have firstWithin : ∀ x ∈ Set.uIcc a b, derivWithin f (Set.uIcc a b) x = first x :=
      fun x inside => (hasFirst x).hasDerivWithinAt.derivWithin (unique x inside)
    have secondWithin : ∀ x, |iteratedDerivWithin 2 f (Set.uIcc a b) x| ≤ bound := by
      intro x
      rw [iteratedDerivWithin_succ, iteratedDerivWithin_one]
      by_cases inside : x ∈ Set.uIcc a b
      · rw [derivWithin_congr firstWithin (firstWithin x inside),
          (hasSecond x).hasDerivWithinAt.derivWithin (unique x inside)]
        exact bounded x
      · rw [derivWithin_zero_of_notMem_closure (by rwa [Set.uIcc, closure_Icc]), abs_zero]
        exact (abs_nonneg _).trans (bounded x)
    refine trapezoidal_error_le ?_ ?_ secondWithin positive
    · exact fun x _ => (hasFirst x).differentiableAt.differentiableWithinAt
    · have smooth : DifferentiableOn ℝ first (Set.uIcc a b) :=
        fun x _ => (hasSecond x).differentiableAt.differentiableWithinAt
      exact smooth.congr firstWithin

end SecondDerivative

section Monotone

theorem sum_integral_cells (ordered : a ≤ b) (positive : 0 < n)
    (integrable : IntervalIntegrable f volume a b) :
    ∑ k ∈ Finset.range n, ∫ x in node a b n k..node a b n (k + 1), f x = ∫ x in a..b, f x := by
  have cells := intervalIntegral.sum_integral_adjacent_intervals (f := f) (μ := volume)
    (a := node a b n) (n := n) fun k below => ?_
  · rw [cells, node_zero, node_last a b positive]
  · refine integrable.mono_set ?_
    have left := node_mem ordered positive below.le
    have right := node_mem ordered positive (Nat.succ_le_of_lt below)
    rw [← Set.uIcc_of_le ordered] at left right
    exact Set.uIcc_subset_uIcc left right

theorem cell_subset (ordered : a ≤ b) (positive : 0 < n) {k : ℕ} (below : k < n) :
    Set.Icc (node a b n k) (node a b n (k + 1)) ⊆ Set.Icc a b :=
  Set.Icc_subset_Icc (node_mem ordered positive below.le).1
    (node_mem ordered positive (Nat.succ_le_of_lt below)).2

variable (ordered : a ≤ b) (mono : MonotoneOn f (Set.Icc a b)) (positive : 0 < n)
include ordered mono positive

theorem intervalIntegrable_cell {k : ℕ} (below : k < n) :
    IntervalIntegrable f volume (node a b n k) (node a b n (k + 1)) := by
  refine (mono.mono ?_).intervalIntegrable
  rw [Set.uIcc_of_le (node_mono ordered n k.le_succ)]
  exact cell_subset ordered positive below

theorem leftSum_le_integral : leftSum f a b n ≤ ∫ x in a..b, f x := by
  have integrable : IntervalIntegrable f volume a b :=
    MonotoneOn.intervalIntegrable (by rwa [Set.uIcc_of_le ordered])
  rw [← sum_integral_cells ordered positive integrable, leftSum, Finset.sum_mul]
  refine Finset.sum_le_sum fun k member => ?_
  have below := Finset.mem_range.mp member
  calc f (node a b n k) * width a b n
      = ∫ _ in node a b n k..node a b n (k + 1), f (node a b n k) := by
        rw [intervalIntegral.integral_const, smul_eq_mul, node_succ_sub, mul_comm]
    _ ≤ ∫ x in node a b n k..node a b n (k + 1), f x := by
        refine intervalIntegral.integral_mono_on (node_mono ordered n k.le_succ)
          intervalIntegrable_const (intervalIntegrable_cell ordered mono positive below) ?_
        intro x inside
        exact mono (node_mem ordered positive below.le)
          (cell_subset ordered positive below inside) inside.1

theorem integral_le_rightSum : ∫ x in a..b, f x ≤ rightSum f a b n := by
  have integrable : IntervalIntegrable f volume a b :=
    MonotoneOn.intervalIntegrable (by rwa [Set.uIcc_of_le ordered])
  rw [← sum_integral_cells ordered positive integrable, rightSum, Finset.sum_mul]
  refine Finset.sum_le_sum fun k member => ?_
  have below := Finset.mem_range.mp member
  calc ∫ x in node a b n k..node a b n (k + 1), f x
      ≤ ∫ _ in node a b n k..node a b n (k + 1), f (node a b n (k + 1)) := by
        refine intervalIntegral.integral_mono_on (node_mono ordered n k.le_succ)
          (intervalIntegrable_cell ordered mono positive below) intervalIntegrable_const ?_
        intro x inside
        exact mono (cell_subset ordered positive below inside)
          (node_mem ordered positive (Nat.succ_le_of_lt below)) inside.2
    _ = f (node a b n (k + 1)) * width a b n := by
        rw [intervalIntegral.integral_const, smul_eq_mul, node_succ_sub, mul_comm]

theorem abs_trapezoidSum_sub_integral_le_of_monotone :
    |trapezoidSum f a b n - ∫ x in a..b, f x| ≤ (f b - f a) * width a b n := by
  have gap := rightSum_sub_leftSum f a b positive
  have lowSum := leftSum_le_trapezoidSum ordered mono positive
  have highSum := trapezoidSum_le_rightSum ordered mono positive
  have lowIntegral := leftSum_le_integral ordered mono positive
  have highIntegral := integral_le_rightSum ordered mono positive
  rw [← gap]
  exact abs_sub_le_iff.mpr ⟨by linarith, by linarith⟩

end Monotone

section Unimodal

/-- A function that rises up to `peak` and falls after it is the difference of two
monotone functions, each constant on one side of the peak. -/
theorem abs_trapezoidSum_sub_integral_le_of_unimodal {peak low high : ℝ} (ordered : a ≤ b)
    (rises : MonotoneOn f (Set.Iic peak)) (falls : AntitoneOn f (Set.Ici peak))
    (bounds : ∀ x, low ≤ f x ∧ f x ≤ high) (positive : 0 < n) :
    |trapezoidSum f a b n - ∫ x in a..b, f x| ≤ 2 * (high - low) * width a b n := by
  let rise : ℝ → ℝ := fun x => f (min x peak)
  let fall : ℝ → ℝ := fun x => f peak - f (max x peak)
  have riseMono : Monotone rise := fun x y below =>
    rises (min_le_right x peak) (min_le_right y peak) (min_le_min_right peak below)
  have fallMono : Monotone fall := fun x y below =>
    sub_le_sub_left
      (falls (le_max_right x peak) (le_max_right y peak) (max_le_max_right peak below)) _
  have split : f = fun x => rise x - fall x := by
    funext x
    rcases le_total x peak with before | after
    · simp [rise, fall, min_eq_left before, max_eq_right before]
    · simp [rise, fall, min_eq_right after, max_eq_left after]
  have integral : ∫ x in a..b, f x = (∫ x in a..b, rise x) - ∫ x in a..b, fall x := by
    conv_lhs => rw [split]
    exact intervalIntegral.integral_sub riseMono.intervalIntegrable fallMono.intervalIntegrable
  have sum : trapezoidSum f a b n = trapezoidSum rise a b n - trapezoidSum fall a b n := by
    conv_lhs => rw [split]
    exact trapezoidSum_sub rise a b fall n
  have riseError := abs_trapezoidSum_sub_integral_le_of_monotone ordered
    (riseMono.monotoneOn (Set.Icc a b)) positive
  have fallError := abs_trapezoidSum_sub_integral_le_of_monotone ordered
    (fallMono.monotoneOn (Set.Icc a b)) positive
  have riseGrowth : rise b - rise a ≤ high - low :=
    sub_le_sub (bounds (min b peak)).2 (bounds (min a peak)).1
  have fallGrowth : fall b - fall a ≤ high - low := by
    have upper := (bounds (max a peak)).2
    have lower := (bounds (max b peak)).1
    simp only [fall]
    linarith
  have widthNonneg := width_nonneg ordered n
  rw [integral, sum, sub_sub_sub_comm]
  calc |trapezoidSum rise a b n - (∫ x in a..b, rise x) -
        (trapezoidSum fall a b n - ∫ x in a..b, fall x)|
      ≤ |trapezoidSum rise a b n - ∫ x in a..b, rise x| +
        |trapezoidSum fall a b n - ∫ x in a..b, fall x| := abs_sub _ _
    _ ≤ (rise b - rise a) * width a b n + (fall b - fall a) * width a b n :=
        add_le_add riseError fallError
    _ ≤ (high - low) * width a b n + (high - low) * width a b n :=
        add_le_add (mul_le_mul_of_nonneg_right riseGrowth widthNonneg)
          (mul_le_mul_of_nonneg_right fallGrowth widthNonneg)
    _ = 2 * (high - low) * width a b n := by ring

end Unimodal

end Ence360.Quadrature
