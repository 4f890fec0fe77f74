import Ence360.Cache.Matrix
import Ence360.Semantics.RowMajor
import Mathlib.Algebra.BigOperators.Fin
import Mathlib.Data.Matrix.Mul

/-!
# The flat arrays as matrices

What the loops write, read back as a matrix, is the product or the transpose, so
the laws are those of matrix algebra.
-/

set_option autoImplicit false

namespace Ence360.Cache.Matrix

open Semantics

/-- A row-major array of the right length. -/
structure Square (R : Type) (n : ℕ) where
  values : List R
  length_eq : values.length = n * n

variable {R : Type} {n : ℕ}

/-- The array filled row by row. -/
def Square.ofEntries (n : ℕ) (entry : ℕ → ℕ → R) : Square R n where
  values := rowMajor n entry (n * n)
  length_eq := rowMajor_length n entry (n * n)

/-- The array a loop over all entries leaves behind. -/
def Square.written (a : Square R n) : TracedArray R where
  values := a.values
  writes := List.range (n * n)

theorem entryLoop_spec (entry : ℕ → ℕ → R)
    (body : ℕ → ℕ → TracedArray R → Option (TracedArray R))
    (turn : ∀ i < n, ∀ j < n, ∀ array, body i j array = array.write (i * n + j) (entry i j))
    (res : Square R n) :
    countedLoop (fun i => countedLoop (body i) n) n (.untouched res.values) =
      some (Square.ofEntries n entry).written := by
  have all : res.values.length = (rowMajor n entry (n * n)).length := by
    rw [res.length_eq, rowMajor_length]
  rw [rowMajorLoop_eq_some entry body turn res.length_eq, TracedArray.filled_all all,
    rowMajor_length]
  rfl

variable [CommRing R]

/-- The flat array as a matrix. -/
def Square.toMatrix (a : Square R n) : Matrix (Fin n) (Fin n) R :=
  .of fun i j => a.values.getD (i * n + j) 0

theorem Square.read_eq_some (a : Square R n) {i j : ℕ} (row : i < n) (col : j < n) :
    a.values[i * n + j]? = some (a.values.getD (i * n + j) 0) := by
  have inside : i * n + j < a.values.length := by
    rw [a.length_eq]
    exact rowMajor_index_lt row col
  rw [List.getD_eq_getElem?_getD, List.getElem?_eq_getElem inside, Option.getD_some]

theorem Square.values_eq {a b : Square R n} (same : a.toMatrix = b.toMatrix) :
    a.values = b.values := by
  apply List.ext_getElem?
  intro index
  rcases Nat.lt_or_ge index (n * n) with inside | outside
  · have positive : 0 < n := Nat.pos_of_mul_pos_left (Nat.zero_lt_of_lt inside)
    have row : index / n < n := Nat.div_lt_of_lt_mul inside
    have col : index % n < n := Nat.mod_lt index positive
    have entry := congrFun (congrFun same ⟨index / n, row⟩) ⟨index % n, col⟩
    rw [← Nat.div_add_mod' index n, a.read_eq_some row col, b.read_eq_some row col]
    exact congrArg some entry
  · rw [List.getElem?_eq_none (a.length_eq ▸ outside),
      List.getElem?_eq_none (b.length_eq ▸ outside)]

theorem Square.toMatrix_ofEntries (entry : ℕ → ℕ → R) (i j : Fin n) :
    (ofEntries n entry).toMatrix i j = entry i j := by
  have found := rowMajor_getElem? entry i.isLt j.isLt
  simp [toMatrix, ofEntries, List.getD_eq_getElem?_getD, found]

theorem matrixTranspose_spec (res a : Square R n) :
    ∃ result : Square R n, matrixTranspose (.untouched res.values) a.values n =
        some result.written ∧ result.toMatrix = a.toMatrix.transpose := by
  refine ⟨.ofEntries n fun i j => a.values.getD (j * n + i) 0, ?_, ?_⟩
  · refine entryLoop_spec _ _ (fun i row j col array => ?_) res
    simp only [a.read_eq_some col row, Option.bind_eq_bind, Option.bind_some]
  · ext i j
    rw [Square.toMatrix_ofEntries]
    rfl

/-- The innermost loop adds up the dot product of a row and a column. -/
theorem dotLoop_eq_some (a b : Square R n) {i j : ℕ} (row : i < n) (col : j < n) :
    countedLoop (fun k r => do
      let left ← a.values[i * n + k]?
      let right ← b.values[k * n + j]?
      return r + left * right) n 0 =
    some (∑ k ∈ Finset.range n, a.values.getD (i * n + k) 0 * b.values.getD (k * n + j) 0) := by
  refine countedLoop_eq _ (fun count =>
    ∑ k ∈ Finset.range count, a.values.getD (i * n + k) 0 * b.values.getD (k * n + j) 0) n ?_
  intro k below
  simp only [a.read_eq_some row below, b.read_eq_some below col, Finset.sum_range_succ,
    Option.bind_eq_bind, Option.bind_some]
  rfl

theorem matrixMulBasic_spec (res a b : Square R n) :
    ∃ result : Square R n, matrixMulBasic (.untouched res.values) a.values b.values n =
        some result.written ∧ result.toMatrix = a.toMatrix * b.toMatrix := by
  refine ⟨.ofEntries n fun i j =>
    ∑ k ∈ Finset.range n, a.values.getD (i * n + k) 0 * b.values.getD (k * n + j) 0, ?_, ?_⟩
  · refine entryLoop_spec _ _ (fun i row j col array => ?_) res
    rw [dotLoop_eq_some a b row col]
    rfl
  · ext i j
    rw [Square.toMatrix_ofEntries, Matrix.mul_apply, Finset.sum_range]
    rfl

/-- The product is the one of matrix algebra, with every entry written once, and
the laws of transposition hold for the arrays. -/
theorem matrixMulBasic_matrixTranspose_laws (a b : Square R n) :
    (∀ res : Square R n, ∃ product,
      matrixMulBasic (.untouched res.values) a.values b.values n = some product ∧
      product.writes = List.range (n * n) ∧ product.values.length = n * n ∧
      ∀ i < n, ∀ j < n, product.values[i * n + j]? = some
        (∑ k ∈ Finset.range n, a.values.getD (i * n + k) 0 * b.values.getD (k * n + j) 0)) ∧
    (∀ res back : Square R n, ∃ once twice,
      matrixTranspose (.untouched res.values) a.values n = some once ∧
      matrixTranspose (.untouched back.values) once.values n = some twice ∧
      twice.values = a.values) ∧
    ∀ res resT resA resB resBA : Square R n, ∃ product left aT bT right,
      matrixMulBasic (.untouched res.values) a.values b.values n = some product ∧
      matrixTranspose (.untouched resT.values) product.values n = some left ∧
      matrixTranspose (.untouched resA.values) a.values n = some aT ∧
      matrixTranspose (.untouched resB.values) b.values n = some bT ∧
      matrixMulBasic (.untouched resBA.values) bT.values aT.values n = some right ∧
      left.values = right.values := by
  refine ⟨?_, ?_, ?_⟩
  · intro res
    obtain ⟨product, ran, entries⟩ := matrixMulBasic_spec res a b
    refine ⟨product.written, ran, rfl, product.length_eq, ?_⟩
    intro i row j col
    have entry : product.values[i * n + j]? = some (product.toMatrix ⟨i, row⟩ ⟨j, col⟩) :=
      product.read_eq_some row col
    rw [entries, Matrix.mul_apply] at entry
    rw [Finset.sum_range]
    exact entry
  · intro res back
    obtain ⟨once, ranOnce, entriesOnce⟩ := matrixTranspose_spec res a
    obtain ⟨twice, ranTwice, entriesTwice⟩ := matrixTranspose_spec back once
    refine ⟨once.written, twice.written, ranOnce, ranTwice, Square.values_eq ?_⟩
    rw [entriesTwice, entriesOnce, Matrix.transpose_transpose]
  · intro res resT resA resB resBA
    obtain ⟨product, ranProduct, entriesProduct⟩ := matrixMulBasic_spec res a b
    obtain ⟨left, ranLeft, entriesLeft⟩ := matrixTranspose_spec resT product
    obtain ⟨aT, ranA, entriesA⟩ := matrixTranspose_spec resA a
    obtain ⟨bT, ranB, entriesB⟩ := matrixTranspose_spec resB b
    obtain ⟨right, ranRight, entriesRight⟩ := matrixMulBasic_spec resBA bT aT
    refine ⟨product.written, left.written, aT.written, bT.written, right.written,
      ranProduct, ranLeft, ranA, ranB, ranRight, Square.values_eq ?_⟩
    rw [entriesLeft, entriesRight, entriesProduct, entriesA, entriesB, Matrix.transpose_mul]

end Ence360.Cache.Matrix
