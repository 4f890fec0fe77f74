import Mathlib.Algebra.BigOperators.Group.List.Basic
import Mathlib.Algebra.Order.Group.Nat
import Mathlib.Tactic.Common

/-!
# Lists indexed by the parties of a system

Inversion of lookups after one entry is replaced or added, and the effect of a
replacement on a sum over all entries.
-/

set_option autoImplicit false

namespace Ence360.Semantics.IndexedList

variable {α : Type} {items : List α} {index other : ℕ} {item found : α}

theorem getElem?_set_cases (lookup : (items.set index item)[other]? = some found) :
    (other = index ∧ found = item) ∨ (other ≠ index ∧ items[other]? = some found) := by
  rw [List.getElem?_set] at lookup
  split at lookup
  · next same =>
      split at lookup
      · exact .inl ⟨same.symm, (Option.some.inj lookup).symm⟩
      · cases lookup
  · next different => exact .inr ⟨fun same => different same.symm, lookup⟩

theorem getElem?_concat_cases (lookup : (items ++ [item])[index]? = some found) :
    items[index]? = some found ∨ (index = items.length ∧ found = item) := by
  rcases Nat.lt_or_ge index items.length with inside | outside
  · exact .inl (by rwa [List.getElem?_append_left inside] at lookup)
  · rw [List.getElem?_append_right outside, List.getElem?_singleton] at lookup
    split at lookup
    · next equal => exact .inr ⟨by omega, (Option.some.inj lookup).symm⟩
    · cases lookup

theorem map_set_of_eq {β : Type} {weight : α → β} {replaced : α}
    (lookup : items[index]? = some item) (same : weight replaced = weight item) :
    (items.set index replaced).map weight = items.map weight := by
  induction items generalizing index with
  | nil => rfl
  | cons head tail ih =>
      cases index with
      | zero =>
          simp only [List.getElem?_cons_zero, Option.some.injEq] at lookup
          subst lookup
          simp [same]
      | succ index =>
          simp only [List.getElem?_cons_succ] at lookup
          rw [List.set_cons_succ, List.map_cons, List.map_cons, ih lookup]

theorem sum_map_set {M : Type} [AddCommMonoid M] {weight : α → M} {replaced : α}
    (lookup : items[index]? = some item) :
    ((items.set index replaced).map weight).sum + weight item =
      (items.map weight).sum + weight replaced := by
  induction items generalizing index with
  | nil => simp at lookup
  | cons head tail ih =>
      cases index with
      | zero =>
          simp only [List.getElem?_cons_zero, Option.some.injEq] at lookup
          subst lookup
          rw [List.set_cons_zero, List.map_cons, List.map_cons, List.sum_cons, List.sum_cons,
            add_right_comm, add_comm (weight replaced), add_right_comm]
      | succ index =>
          simp only [List.getElem?_cons_succ] at lookup
          rw [List.set_cons_succ, List.map_cons, List.map_cons, List.sum_cons, List.sum_cons,
            add_assoc, ih lookup, add_assoc]

theorem sum_map_eraseIdx {M : Type} [AddCommMonoid M] {weight : α → M}
    (lookup : items[index]? = some item) :
    ((items.eraseIdx index).map weight).sum + weight item = (items.map weight).sum := by
  induction items generalizing index with
  | nil => simp at lookup
  | cons head tail ih =>
      cases index with
      | zero =>
          simp only [List.getElem?_cons_zero, Option.some.injEq] at lookup
          subst lookup
          rw [List.eraseIdx_cons_zero, List.map_cons, List.sum_cons, add_comm]
      | succ index =>
          simp only [List.getElem?_cons_succ] at lookup
          rw [List.eraseIdx_cons_succ, List.map_cons, List.map_cons, List.sum_cons,
            List.sum_cons, add_assoc, ih lookup]

theorem length_eraseIdx_add_one (lookup : items[index]? = some item) :
    (items.eraseIdx index).length + 1 = items.length := by
  have inside := (List.getElem?_eq_some_iff.mp lookup).1
  rw [List.length_eraseIdx_of_lt inside]
  omega

theorem mem_set_cases {replaced : α} (member : found ∈ items.set index replaced) :
    found = replaced ∨ found ∈ items :=
  (List.mem_or_eq_of_mem_set member).symm

end Ence360.Semantics.IndexedList
