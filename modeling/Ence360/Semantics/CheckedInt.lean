import Mathlib.Algebra.Order.Group.Int
import Mathlib.Tactic.NormNum

/-!
# Checked 32-bit signed arithmetic

The C type `int`. An operation whose mathematical result does not fit, or a
division by zero, has no defined result.
-/

set_option autoImplicit false

namespace Ence360.Semantics.CheckedInt

/-- The values of a 32-bit `int`. -/
def Fits (value : ℤ) : Prop :=
  -2147483648 ≤ value ∧ value ≤ 2147483647

instance (value : ℤ) : Decidable (Fits value) :=
  inferInstanceAs (Decidable (_ ∧ _))

def check (value : ℤ) : Option ℤ :=
  if Fits value then some value else none

def add (left right : ℤ) : Option ℤ := check (left + right)

def sub (left right : ℤ) : Option ℤ := check (left - right)

def mul (left right : ℤ) : Option ℤ := check (left * right)

/-- Division truncates toward zero. -/
def div (left right : ℤ) : Option ℤ :=
  if right = 0 then none else check (left.tdiv right)

/-- The remainder has the sign of the dividend. -/
def rem (left right : ℤ) : Option ℤ :=
  if right = 0 then none else check (left.tmod right)

/-- `index++` for a variable that counts up from zero. -/
def increment (index : ℕ) : Option ℕ :=
  if index < 2147483647 then some (index + 1) else none

theorem increment_eq_some {index : ℕ} (below : index < 2147483647) :
    increment index = some (index + 1) :=
  if_pos below

theorem check_eq_some {value : ℤ} (low : -2147483648 ≤ value) (high : value ≤ 2147483647) :
    check value = some value :=
  if_pos ⟨low, high⟩

theorem check_eq_some_iff {value result : ℤ} :
    check value = some result ↔ Fits value ∧ value = result := by
  unfold check
  split
  · next fits => simp [fits]
  · next fits => simp [fits]

theorem add_eq_some {left right : ℤ} (low : -2147483648 ≤ left + right)
    (high : left + right ≤ 2147483647) : add left right = some (left + right) :=
  check_eq_some low high

theorem sub_eq_some {left right : ℤ} (low : -2147483648 ≤ left - right)
    (high : left - right ≤ 2147483647) : sub left right = some (left - right) :=
  check_eq_some low high

theorem mul_eq_some {left right : ℤ} (low : -2147483648 ≤ left * right)
    (high : left * right ≤ 2147483647) : mul left right = some (left * right) :=
  check_eq_some low high

theorem div_eq_some {left right : ℤ} (nonneg : 0 ≤ left) (high : left ≤ 2147483647)
    (positive : 0 < right) : div left right = some (left / right) := by
  have quotientNonneg : 0 ≤ left / right := Int.ediv_nonneg nonneg positive.le
  have quotientLe : left / right ≤ left := Int.ediv_le_self _ nonneg
  rw [div, if_neg positive.ne', Int.tdiv_eq_ediv_of_nonneg nonneg]
  exact check_eq_some (by omega) (by omega)

theorem rem_eq_some {left right : ℤ} (nonneg : 0 ≤ left) (high : left ≤ 2147483647)
    (positive : 0 < right) : rem left right = some (left % right) := by
  have remainderNonneg : 0 ≤ left % right := Int.emod_nonneg _ positive.ne'
  have quotientNonneg : 0 ≤ right * (left / right) :=
    mul_nonneg positive.le (Int.ediv_nonneg nonneg positive.le)
  have division := Int.emod_add_mul_ediv left right
  rw [rem, if_neg positive.ne', Int.tmod_eq_emod_of_nonneg nonneg]
  exact check_eq_some (by omega) (by omega)

end Ence360.Semantics.CheckedInt
