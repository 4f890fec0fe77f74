import Mathlib.Data.Nat.ModEq
import Mathlib.Logic.Function.Basic
import Mathlib.Tactic.Common

/-!
# Rings

A queue in the cells of an array, used round and round. Positions are counted
from the start; the machine keeps them modulo `2 ^ 32`, which is sound when the
capacity divides that number.
-/

set_option autoImplicit false

namespace Ence360.Semantics.Ring

variable {α : Type} {capacity first : ℕ} {cells : ℕ → α} {items : List α} {item : α}

/-- The cells from position `first` on hold `items`. -/
structure Holds (capacity : ℕ) (cells : ℕ → α) (first : ℕ) (items : List α) : Prop where
  fits : items.length ≤ capacity
  stored : ∀ k item, items[k]? = some item → cells ((first + k) % capacity) = item

theorem Holds.nil (capacity : ℕ) (cells : ℕ → α) (first : ℕ) : Holds capacity cells first [] :=
  ⟨Nat.zero_le _, fun _ _ lookup => by cases lookup⟩

theorem mod_ne_of_lt {k : ℕ} (less : k < items.length) (room : items.length < capacity) :
    (first + k) % capacity ≠ (first + items.length) % capacity := by
  intro same
  have congruent : k % capacity = items.length % capacity := Nat.ModEq.add_left_cancel' first same
  rw [Nat.mod_eq_of_lt (by omega), Nat.mod_eq_of_lt room] at congruent
  omega

theorem Holds.push (holds : Holds capacity cells first items) (room : items.length < capacity)
    (item : α) :
    Holds capacity (Function.update cells ((first + items.length) % capacity) item) first
      (items ++ [item]) := by
  refine ⟨by rw [List.length_append]; exact room, ?_⟩
  intro k found lookup
  rcases Nat.lt_or_ge k items.length with inside | outside
  · rw [List.getElem?_append_left inside] at lookup
    rw [Function.update_of_ne (mod_ne_of_lt inside room)]
    exact holds.stored k found lookup
  · rw [List.getElem?_append_right outside, List.getElem?_singleton] at lookup
    split at lookup
    · next equal =>
        have last : k = items.length := by omega
        subst last
        rw [Function.update_self]
        exact Option.some.inj lookup
    · cases lookup

theorem Holds.front (holds : Holds capacity cells first (item :: items)) :
    cells (first % capacity) = item :=
  holds.stored 0 item rfl

theorem Holds.pop (holds : Holds capacity cells first (item :: items)) :
    Holds capacity cells (first + 1) items := by
  refine ⟨Nat.le_of_succ_le holds.fits, ?_⟩
  intro k found lookup
  rw [Nat.add_assoc, Nat.add_comm 1 k]
  exact holds.stored (k + 1) found lookup

/-- What was pushed last is given up. -/
theorem Holds.of_append {more : List α} (holds : Holds capacity cells first (items ++ more)) :
    Holds capacity cells first items := by
  refine ⟨?_, fun k item found => holds.stored k item ?_⟩
  · have fits := holds.fits
    rw [List.length_append] at fits
    omega
  · rw [List.getElem?_append_left (List.getElem?_eq_some_iff.mp found).1]
    exact found

/-- Positions as the machine counts them. -/
def counter (position : ℕ) : UInt32 :=
  UInt32.ofNat position

theorem counter_add (position other : ℕ) :
    counter position + counter other = counter (position + other) :=
  (UInt32.ofNat_add position other).symm

theorem counter_succ (position : ℕ) : counter position + 1 = counter (position + 1) :=
  counter_add position 1

theorem counter_pred (position : ℕ) : counter (position + 1) - 1 = counter position := by
  rw [← counter_succ, UInt32.add_sub_cancel]

theorem counter_inj {position other : ℕ} (near : position ≤ other)
    (close : other < position + 2 ^ 32) :
    counter position = counter other ↔ position = other := by
  constructor
  · intro same
    have values := congrArg UInt32.toNat same
    simp only [counter, UInt32.toNat_ofNat'] at values
    omega
  · rintro rfl
    rfl

theorem counter_sub {position length : ℕ} (small : length < 2 ^ 32) :
    (counter (position + length) - counter position).toNat = length := by
  rw [Nat.add_comm, ← counter_add, UInt32.add_sub_cancel]
  exact UInt32.toNat_ofNat_of_lt small

theorem counter_mod {position : ℕ} (divides : capacity ∣ 2 ^ 32) (small : capacity < 2 ^ 32) :
    (counter position % counter capacity).toNat = position % capacity := by
  simp only [counter, UInt32.toNat_mod, UInt32.toNat_ofNat', Nat.mod_eq_of_lt small]
  exact Nat.mod_mod_of_dvd position divides

end Ence360.Semantics.Ring
