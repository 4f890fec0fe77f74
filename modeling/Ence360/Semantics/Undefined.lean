import Mathlib.Algebra.Field.Defs
import Mathlib.Algebra.Group.Nat.Hom
import Mathlib.Tactic.Common

/-!
# A field with an undefined value

Exact numbers extended with one absorbing value, the result of a division by
zero, as `NaN` is in floating-point arithmetic.
-/

set_option autoImplicit false

namespace Ence360.Semantics

inductive WithUndefined (K : Type) where
  | undefined
  | of (value : K)
  deriving DecidableEq, Repr

namespace WithUndefined

variable {K : Type}

def map (function : K → K) : WithUndefined K → WithUndefined K
  | undefined => undefined
  | of value => of (function value)

def map₂ (operation : K → K → K) : WithUndefined K → WithUndefined K → WithUndefined K
  | of left, of right => of (operation left right)
  | _, _ => undefined

@[simp] theorem map_of (function : K → K) (value : K) :
    map function (of value) = of (function value) := rfl

section Operations

variable [Field K]

instance : NatCast (WithUndefined K) := ⟨fun value => of value⟩
instance : Zero (WithUndefined K) := ⟨of 0⟩
instance : Add (WithUndefined K) := ⟨map₂ (· + ·)⟩
instance : Sub (WithUndefined K) := ⟨map₂ (· - ·)⟩
instance : Mul (WithUndefined K) := ⟨map₂ (· * ·)⟩
instance [DecidableEq K] : Div (WithUndefined K) :=
  ⟨fun left right => if right = of 0 then undefined else map₂ (· / ·) left right⟩

theorem natCast_eq (value : ℕ) : (value : WithUndefined K) = of (value : K) := rfl

theorem zero_eq : (0 : WithUndefined K) = of 0 := rfl

@[simp] theorem of_add (left right : K) : of left + of right = of (left + right) := rfl

@[simp] theorem of_sub (left right : K) : of left - of right = of (left - right) := rfl

@[simp] theorem of_mul (left right : K) : of left * of right = of (left * right) := rfl

@[simp] theorem add_undefined (left : WithUndefined K) : left + undefined = undefined := by
  cases left <;> rfl

@[simp] theorem undefined_add (right : WithUndefined K) : undefined + right = undefined := rfl

@[simp] theorem mul_undefined (left : WithUndefined K) : left * undefined = undefined := by
  cases left <;> rfl

theorem of_div [DecidableEq K] (left : K) {right : K} (nonzero : right ≠ 0) :
    of left / of right = of (left / right) :=
  if_neg fun same => nonzero (of.inj same)

theorem div_of_zero [DecidableEq K] (left : WithUndefined K) : left / of (0 : K) = undefined :=
  if_pos rfl

instance : AddCommMonoid (WithUndefined K) where
  add_assoc first second third := by
    cases first <;> cases second <;> cases third <;> simp [add_assoc]
  zero_add value := by
    cases value <;> simp [zero_eq]
  add_zero value := by
    cases value <;> simp [zero_eq]
  add_comm first second := by
    cases first <;> cases second <;> simp [add_comm]
  nsmul := nsmulRec

theorem sum_map_of {ι : Type} (items : List ι) (value : ι → K) :
    (items.map fun item => of (value item)).sum = of (items.map value).sum := by
  induction items with
  | nil => rfl
  | cons head tail ih => simp [ih]

theorem sum_eq_undefined {items : List (WithUndefined K)} (member : undefined ∈ items) :
    items.sum = undefined := by
  induction items with
  | nil => cases member
  | cons head tail ih =>
      rcases List.mem_cons.mp member with rfl | member
      · simp
      · simp [ih member]

end Operations

end WithUndefined

end Ence360.Semantics
