import Mathlib.Algebra.BigOperators.Group.List.Basic
import Mathlib.Tactic.Ring
import Ence360.Distributed.VectorLength

/-!
# The vector length does not depend on the number of ranks

Each loop has its closed form; the blocks of the scatter then partition the
padded vector, whose padding contributes zero.
-/

set_option autoImplicit false

namespace Ence360.Distributed.VectorLength

open Ence360.Semantics

variable {R : Type} [CommSemiring R]

/-- After `i` turns the first `i` entries are drawn and the others still zero. -/
theorem randomVec_allocVec (drawn : List R) (size : ℕ) (room : drawn.length ≤ size) :
    randomVec (allocVec size) drawn =
      some (drawn ++ List.replicate (size - drawn.length) 0) := by
  have filled := countedLoop_eq (fun i res => drawn[i]?.bind (writeAt res i))
    (fun i => drawn.take i ++ List.replicate (size - i) (0 : R)) drawn.length (by
      intro i below
      have remaining : size - i = (size - (i + 1)) + 1 := by omega
      have written : (drawn.take i).length = i := List.length_take_of_le below.le
      have inside : i < (drawn.take i ++ List.replicate (size - i) (0 : R)).length := by
        rw [List.length_append, written, List.length_replicate]
        omega
      rw [List.getElem?_eq_getElem below, Option.bind_some, writeAt_eq_some _ inside, remaining,
        List.replicate_succ, List.set_append_right _ _ written.le, written, Nat.sub_self,
        List.set_cons_zero, List.take_succ_eq_append_getElem below, List.append_assoc,
        List.singleton_append])
  simpa [randomVec, allocVec] using filled

/-- After `i` turns the first `i` entries are squared and the others untouched. -/
theorem square_length (values : List R) :
    square values values.length = some (values.map fun value => value * value) := by
  have squared := countedLoop_eq
    (fun i values => values[i]?.bind fun value : R => writeAt values i (value * value))
    (fun i => (values.take i).map (fun value => value * value) ++ values.drop i)
    values.length (by
      intro i below
      have written : ((values.take i).map fun value => value * value).length = i := by
        rw [List.length_map, List.length_take_of_le below.le]
      rw [List.drop_eq_getElem_cons below]
      have inside : i < ((values.take i).map (fun value => value * value) ++
          values[i] :: values.drop (i + 1)).length := by
        rw [List.length_append, written, List.length_cons]
        omega
      rw [List.getElem?_append_right written.le, written, Nat.sub_self, List.getElem?_cons_zero,
        Option.bind_some, writeAt_eq_some _ inside, List.set_append_right _ _ written.le, written,
        Nat.sub_self, List.set_cons_zero, List.take_succ_eq_append_getElem below, List.map_append,
        List.append_assoc, List.map_singleton, List.singleton_append])
  simpa [square] using squared

theorem computeSum_length (values : List R) :
    computeSum values values.length = some values.sum := by
  have summed := countedLoop_eq (fun i sum => values[i]?.map (sum + ·))
    (fun i => (values.take i).sum) values.length (by
      intro i below
      rw [List.getElem?_eq_getElem below, List.take_succ_eq_append_getElem below,
        List.sum_append, List.sum_singleton, Option.map_some])
  simpa [computeSum] using summed

theorem length_le_elemsProc_mul (totalElems : ℕ) {worldSize : ℕ} (positive : 1 ≤ worldSize) :
    totalElems ≤ elemsProc totalElems worldSize * worldSize := by
  have division := Nat.div_add_mod (totalElems + (worldSize - 1)) worldSize
  have remainder := Nat.mod_lt (totalElems + (worldSize - 1)) (by omega : worldSize > 0)
  rw [elemsProc, mul_comm]
  omega

theorem sum_scatter (values : List R) (count ranks : ℕ) :
    ((List.range ranks).map fun rank => (scatter values count rank).sum).sum =
      (values.take (ranks * count)).sum := by
  induction ranks with
  | zero => simp
  | succ ranks ih =>
      rw [List.range_succ, List.map_append, List.sum_append, ih, List.map_singleton,
        List.sum_singleton, scatter, ← List.sum_append, ← List.take_add, Nat.succ_mul]

theorem map_scatter {S T : Type} (function : S → T) (values : List S) (count rank : ℕ) :
    (scatter values count rank).map function = scatter (values.map function) count rank := by
  rw [scatter, List.map_take, List.map_drop, scatter]

def padded (drawn : List R) (worldSize : ℕ) : List R :=
  drawn ++ List.replicate (elemsProc drawn.length worldSize * worldSize - drawn.length) 0

theorem localLen_eq (drawn : List R) {worldSize rank : ℕ} (rankLt : rank < worldSize) :
    localLen drawn worldSize rank = some (scatter
      ((padded drawn worldSize).map fun value => value * value)
      (elemsProc drawn.length worldSize) rank).sum := by
  have room := length_le_elemsProc_mul drawn.length (by omega : 1 ≤ worldSize)
  have blockEnd : (rank + 1) * elemsProc drawn.length worldSize ≤
      elemsProc drawn.length worldSize * worldSize := by
    rw [mul_comm]
    exact Nat.mul_le_mul_left _ rankLt
  have blockLength : (scatter (padded drawn worldSize)
      (elemsProc drawn.length worldSize) rank).length = elemsProc drawn.length worldSize := by
    rw [Nat.succ_mul] at blockEnd
    simp only [scatter, padded, List.length_take, List.length_drop, List.length_append,
      List.length_replicate]
    omega
  have squared := square_length (scatter (padded drawn worldSize)
    (elemsProc drawn.length worldSize) rank)
  have summed := computeSum_length ((scatter (padded drawn worldSize)
    (elemsProc drawn.length worldSize) rank).map fun value => value * value)
  rw [List.length_map, blockLength] at summed
  rw [blockLength] at squared
  simp only [localLen, randomVec_allocVec drawn _ room, Option.bind_eq_bind, Option.bind_some]
  rw [← padded, squared, Option.bind_some, summed, map_scatter]

theorem reduce_eq_sum {result : ℕ → Option R} {value : ℕ → R} (reduction : Reduction)
    (defined : ∀ rank ∈ reduction.ranks, result rank = some (value rank)) :
    reduction.reduce result = some (reduction.ranks.map value).sum := by
  induction reduction with
  | single rank =>
      simpa [Reduction.reduce, Reduction.ranks] using defined rank (by simp [Reduction.ranks])
  | sum left right leftIH rightIH =>
      have leftSum := leftIH fun rank member =>
        defined rank (List.mem_append_left _ member)
      have rightSum := rightIH fun rank member =>
        defined rank (List.mem_append_right _ member)
      simp [Reduction.reduce, Reduction.ranks, leftSum, rightSum]

theorem total_eq (drawn : List R) {worldSize : ℕ} (positive : 1 ≤ worldSize)
    {reduction : Reduction} (everyRank : reduction.ranks.Perm (List.range worldSize)) :
    total drawn worldSize reduction = some (drawn.map fun value => value * value).sum := by
  have room := length_le_elemsProc_mul drawn.length positive
  have locals := reduce_eq_sum reduction fun rank member =>
    localLen_eq drawn (List.mem_range.mp (everyRank.mem_iff.mp member))
  have size : ((padded drawn worldSize).map fun value => value * value).length =
      worldSize * elemsProc drawn.length worldSize := by
    rw [List.length_map, padded, List.length_append, List.length_replicate,
      mul_comm worldSize]
    omega
  rw [total, locals, (everyRank.map _).sum_eq, sum_scatter, ← size, List.take_length]
  simp [padded]

/-- Any two worlds reduce to the sum of the squares, in any orders of addition. -/
theorem total_eq_sum_squares (drawn : List R) {worldSize otherSize : ℕ}
    (positive : 1 ≤ worldSize) (otherPositive : 1 ≤ otherSize) {reduction other : Reduction}
    (everyRank : reduction.ranks.Perm (List.range worldSize))
    (everyOther : other.ranks.Perm (List.range otherSize)) :
    total drawn worldSize reduction = some (drawn.map fun value => value ^ 2).sum ∧
      total drawn worldSize reduction = total drawn otherSize other := by
  simp only [total_eq drawn positive everyRank, total_eq drawn otherPositive everyOther, sq,
    and_self]

theorem total_eq_sum_squares_five_one :
    total [3, (4 : ℕ)] 5 (.sum (.sum (.single 4) (.single 1))
      (.sum (.single 0) (.sum (.single 3) (.single 2)))) = some 25 ∧
    total [3, (4 : ℕ)] 5 (.sum (.sum (.single 4) (.single 1))
      (.sum (.single 0) (.sum (.single 3) (.single 2)))) =
        total [3, (4 : ℕ)] 1 (.single 0) :=
  total_eq_sum_squares [3, 4] (by decide) (by decide) (by decide) (by decide)

end Ence360.Distributed.VectorLength
