import Mathlib.Algebra.BigOperators.Field
import Mathlib.Algebra.BigOperators.Intervals
import Mathlib.Algebra.BigOperators.Ring.Finset
import Mathlib.Algebra.Order.BigOperators.Group.Finset
import Mathlib.Algebra.Order.Field.Basic
import Mathlib.Order.Interval.Set.Defs
import Mathlib.Tactic.FieldSimp
import Mathlib.Tactic.Linarith
import Mathlib.Tactic.Positivity
import Mathlib.Tactic.Ring

/-!
# Sums on an equidistant grid

The left, right and trapezoid sums of a function. For a monotone function the
trapezoid sum lies between the other two, and refining the grid moves these
towards each other.
-/

set_option autoImplicit false

namespace Ence360.Quadrature

section Field

variable {K : Type} [Field K]

def width (a b : K) (n : ℕ) : K :=
  (b - a) / n

def node (a b : K) (n k : ℕ) : K :=
  a + k * width a b n

def leftSum (f : K → K) (a b : K) (n : ℕ) : K :=
  (∑ k ∈ Finset.range n, f (node a b n k)) * width a b n

def rightSum (f : K → K) (a b : K) (n : ℕ) : K :=
  (∑ k ∈ Finset.range n, f (node a b n (k + 1))) * width a b n

def trapezoidSum (f : K → K) (a b : K) (n : ℕ) : K :=
  (∑ k ∈ Finset.range n, (f (node a b n k) + f (node a b n (k + 1))) / (2 : ℕ)) * width a b n

variable (f : K → K) (a b : K)

@[simp]
theorem node_zero (n : ℕ) : node a b n 0 = a := by
  simp [node]

theorem node_succ_sub (n k : ℕ) : node a b n (k + 1) - node a b n k = width a b n := by
  rw [node, node, Nat.cast_add, Nat.cast_one]
  ring

theorem trapezoidSum_eq (n : ℕ) :
    trapezoidSum f a b n = (leftSum f a b n + rightSum f a b n) / 2 := by
  rw [trapezoidSum, leftSum, rightSum, ← Finset.sum_div, Finset.sum_add_distrib, Nat.cast_ofNat]
  ring

theorem trapezoidSum_neg (n : ℕ) : trapezoidSum (fun x => -f x) a b n = -trapezoidSum f a b n := by
  rw [trapezoidSum, trapezoidSum, ← neg_mul, ← Finset.sum_neg_distrib]
  congr 1
  exact Finset.sum_congr rfl fun k _ => by ring

theorem trapezoidSum_sub (g : K → K) (n : ℕ) :
    trapezoidSum (fun x => f x - g x) a b n = trapezoidSum f a b n - trapezoidSum g a b n := by
  rw [trapezoidSum, trapezoidSum, trapezoidSum, ← sub_mul, ← Finset.sum_sub_distrib]
  congr 1
  exact Finset.sum_congr rfl fun k _ => by ring

variable [CharZero K] {n : ℕ}

theorem node_last (positive : 0 < n) : node a b n n = b := by
  have nonzero : (n : K) ≠ 0 := Nat.cast_ne_zero.mpr positive.ne'
  rw [node, width, mul_div_cancel₀ _ nonzero, add_sub_cancel]

/-- The two sums differ in their first and last term only. -/
theorem rightSum_sub_leftSum (positive : 0 < n) :
    rightSum f a b n - leftSum f a b n = (f b - f a) * width a b n := by
  rw [rightSum, leftSum, ← sub_mul, ← Finset.sum_sub_distrib,
    Finset.sum_range_sub fun k => f (node a b n k), node_zero, node_last a b positive]

theorem width_mul (m : ℕ) (positive : 0 < m) : m * width a b (n * m) = width a b n := by
  have nonzero : (m : K) ≠ 0 := Nat.cast_ne_zero.mpr positive.ne'
  rw [width, width, Nat.cast_mul, ← div_div, mul_div_cancel₀ _ nonzero]

theorem node_mul (m k : ℕ) (positive : 0 < m) : node a b (n * m) (k * m) = node a b n k := by
  rw [node, node, Nat.cast_mul, mul_assoc, width_mul a b m positive]

/-- The trapezoid sum is exact for affine functions. -/
theorem trapezoidSum_affine (slope offset : K) (positive : 0 < n) :
    trapezoidSum (fun x => slope * x + offset) a b n =
      (b - a) * ((slope * a + offset) + (slope * b + offset)) / 2 := by
  have partialSum (count : ℕ) :
      ∑ k ∈ Finset.range count, ((slope * node a b n k + offset) +
          (slope * node a b n (k + 1) + offset)) / 2 =
        count * ((slope * a + offset) + (slope * node a b n count + offset)) / 2 := by
    induction count with
    | zero => simp
    | succ count ih =>
        rw [Finset.sum_range_succ, ih]
        simp only [node, Nat.cast_add, Nat.cast_one]
        ring
  have nonzero : (n : K) ≠ 0 := Nat.cast_ne_zero.mpr positive.ne'
  rw [trapezoidSum, Nat.cast_ofNat, partialSum, node_last a b positive, width]
  field_simp

end Field

section Monotone

variable {K : Type} [Field K] [LinearOrder K] [IsStrictOrderedRing K]
variable {f : K → K} {a b : K} {n m : ℕ}

theorem width_nonneg (ordered : a ≤ b) (n : ℕ) : 0 ≤ width a b n :=
  div_nonneg (sub_nonneg.mpr ordered) n.cast_nonneg

theorem node_mono (ordered : a ≤ b) (n : ℕ) : Monotone (node a b n) := by
  intro k l below
  have step : (k : K) * width a b n ≤ l * width a b n :=
    mul_le_mul_of_nonneg_right (Nat.cast_le.mpr below) (width_nonneg ordered n)
  simpa [node] using step

theorem node_mem (ordered : a ≤ b) (positive : 0 < n) {k : ℕ} (inside : k ≤ n) :
    node a b n k ∈ Set.Icc a b := by
  have low := node_mono ordered n (Nat.zero_le k)
  have high := node_mono ordered n inside
  rw [node_zero] at low
  rw [node_last a b positive] at high
  exact ⟨low, high⟩

theorem monotone_on_nodes (ordered : a ≤ b) (mono : MonotoneOn f (Set.Icc a b))
    (positive : 0 < n) {k l : ℕ} (below : k ≤ l) (inside : l ≤ n) :
    f (node a b n k) ≤ f (node a b n l) :=
  mono (node_mem ordered positive (below.trans inside)) (node_mem ordered positive inside)
    (node_mono ordered n below)

theorem leftSum_le_rightSum (ordered : a ≤ b) (mono : MonotoneOn f (Set.Icc a b))
    (positive : 0 < n) : leftSum f a b n ≤ rightSum f a b n := by
  refine mul_le_mul_of_nonneg_right (Finset.sum_le_sum fun k below => ?_) (width_nonneg ordered n)
  exact monotone_on_nodes ordered mono positive k.le_succ (Finset.mem_range.mp below)

theorem leftSum_le_trapezoidSum (ordered : a ≤ b) (mono : MonotoneOn f (Set.Icc a b))
    (positive : 0 < n) : leftSum f a b n ≤ trapezoidSum f a b n := by
  have order := leftSum_le_rightSum ordered mono positive
  rw [trapezoidSum_eq]
  linarith

theorem trapezoidSum_le_rightSum (ordered : a ≤ b) (mono : MonotoneOn f (Set.Icc a b))
    (positive : 0 < n) : trapezoidSum f a b n ≤ rightSum f a b n := by
  have order := leftSum_le_rightSum ordered mono positive
  rw [trapezoidSum_eq]
  linarith

omit [LinearOrder K] [IsStrictOrderedRing K] in
/-- A sum over a grid that is finer by the factor `m`, block by block. -/
private theorem sum_range_mul (g : ℕ → K) (n m : ℕ) :
    ∑ i ∈ Finset.range (n * m), g i =
      ∑ k ∈ Finset.range n, ∑ r ∈ Finset.range m, g (k * m + r) := by
  induction n with
  | zero => simp
  | succ n ih => rw [Nat.succ_mul, Finset.sum_range_add, ih, Finset.sum_range_succ]

private theorem block_inside {k r : ℕ} (block : k < n) (offset : r ≤ m) : k * m + r ≤ n * m :=
  calc k * m + r ≤ k * m + m := Nat.add_le_add_left offset _
    _ = (k + 1) * m := (Nat.succ_mul k m).symm
    _ ≤ n * m := Nat.mul_le_mul_right m block

/-- Refining the grid raises the left sum of a monotone function. -/
theorem leftSum_le_refined (ordered : a ≤ b) (mono : MonotoneOn f (Set.Icc a b))
    (nPos : 0 < n) (mPos : 0 < m) : leftSum f a b n ≤ leftSum f a b (n * m) := by
  rw [leftSum, leftSum, ← width_mul a b m mPos, ← mul_assoc, sum_range_mul]
  refine mul_le_mul_of_nonneg_right ?_ (width_nonneg ordered _)
  rw [Finset.sum_mul]
  refine Finset.sum_le_sum fun k block => ?_
  have blockLt := Finset.mem_range.mp block
  calc f (node a b n k) * m = ∑ _r ∈ Finset.range m, f (node a b n k) := by
        rw [Finset.sum_const, Finset.card_range, nsmul_eq_mul, mul_comm]
    _ ≤ ∑ r ∈ Finset.range m, f (node a b (n * m) (k * m + r)) := by
        refine Finset.sum_le_sum fun r offset => ?_
        rw [← node_mul a b m k mPos]
        exact monotone_on_nodes ordered mono (Nat.mul_pos nPos mPos) (Nat.le_add_right _ _)
          (block_inside blockLt (Finset.mem_range.mp offset).le)

theorem refined_le_rightSum (ordered : a ≤ b) (mono : MonotoneOn f (Set.Icc a b))
    (nPos : 0 < n) (mPos : 0 < m) : rightSum f a b (n * m) ≤ rightSum f a b n := by
  rw [rightSum, rightSum, ← width_mul (n := n) a b m mPos, ← mul_assoc, sum_range_mul]
  refine mul_le_mul_of_nonneg_right ?_ (width_nonneg ordered _)
  rw [Finset.sum_mul]
  refine Finset.sum_le_sum fun k block => ?_
  have blockLt := Finset.mem_range.mp block
  calc ∑ r ∈ Finset.range m, f (node a b (n * m) (k * m + r + 1))
      ≤ ∑ _r ∈ Finset.range m, f (node a b n (k + 1)) := by
        refine Finset.sum_le_sum fun r offset => ?_
        have offsetLt := Finset.mem_range.mp offset
        rw [← node_mul a b m (k + 1) mPos]
        refine monotone_on_nodes ordered mono (Nat.mul_pos nPos mPos) ?_
          (Nat.mul_le_mul_right m blockLt)
        rw [Nat.succ_mul]
        omega
    _ = f (node a b n (k + 1)) * m := by
        rw [Finset.sum_const, Finset.card_range, nsmul_eq_mul, mul_comm]

/-- On any two grids a left sum is below a right sum, through their common refinement. -/
theorem leftSum_le_rightSum_of_grids (ordered : a ≤ b) (mono : MonotoneOn f (Set.Icc a b))
    (nPos : 0 < n) (mPos : 0 < m) : leftSum f a b n ≤ rightSum f a b m :=
  calc leftSum f a b n ≤ leftSum f a b (n * m) := leftSum_le_refined ordered mono nPos mPos
    _ ≤ rightSum f a b (n * m) := leftSum_le_rightSum ordered mono (Nat.mul_pos nPos mPos)
    _ = rightSum f a b (m * n) := by rw [Nat.mul_comm]
    _ ≤ rightSum f a b m := refined_le_rightSum ordered mono mPos nPos

theorem trapezoidSum_sub_le (ordered : a ≤ b) (mono : MonotoneOn f (Set.Icc a b))
    (nPos : 0 < n) (mPos : 0 < m) :
    trapezoidSum f a b n - trapezoidSum f a b m ≤
      (f b - f a) * (b - a) * (1 / n + 1 / m) := by
  have high := trapezoidSum_le_rightSum ordered mono nPos
  have low := leftSum_le_trapezoidSum ordered mono mPos
  have cross := leftSum_le_rightSum_of_grids ordered mono nPos mPos
  have gapn := rightSum_sub_leftSum f a b nPos
  have gapm := rightSum_sub_leftSum f a b mPos
  calc trapezoidSum f a b n - trapezoidSum f a b m
      ≤ (rightSum f a b n - leftSum f a b n) + (rightSum f a b m - leftSum f a b m) := by linarith
    _ = (f b - f a) * (b - a) * (1 / n + 1 / m) := by
        rw [gapn, gapm, width, width]
        ring

/-- Two trapezoid sums of a monotone function are as close as their step widths allow. -/
theorem abs_trapezoidSum_sub_le (ordered : a ≤ b) (mono : MonotoneOn f (Set.Icc a b))
    (nPos : 0 < n) (mPos : 0 < m) :
    |trapezoidSum f a b n - trapezoidSum f a b m| ≤
      (f b - f a) * (b - a) * (1 / n + 1 / m) := by
  have forward := trapezoidSum_sub_le ordered mono nPos mPos
  have backward := trapezoidSum_sub_le ordered mono mPos nPos
  rw [add_comm (1 / (m : K))] at backward
  exact abs_sub_le_iff.mpr ⟨forward, backward⟩

end Monotone

end Ence360.Quadrature
