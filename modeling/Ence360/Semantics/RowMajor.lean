import Ence360.Semantics.CountedLoop
import Ence360.Semantics.TracedArray

/-!
# Row-major loops

Two nested loops that write entry `(i, j)` of a table to the flat index
`i * cols + j` write the array from left to right.
-/

set_option autoImplicit false

namespace Ence360.Semantics

variable {α : Type}

/-- The first entries of a table with the given number of columns, row by row. -/
def rowMajor (cols : ℕ) (entry : ℕ → ℕ → α) (count : ℕ) : List α :=
  (List.range count).map fun index => entry (index / cols) (index % cols)

theorem rowMajor_index_lt {rows cols i j : ℕ} (row : i < rows) (col : j < cols) :
    i * cols + j < rows * cols :=
  calc i * cols + j < i * cols + cols := Nat.add_lt_add_left col _
    _ = (i + 1) * cols := (Nat.succ_mul i cols).symm
    _ ≤ rows * cols := Nat.mul_le_mul_right cols row

theorem rowMajor_index_div {cols i j : ℕ} (col : j < cols) : (i * cols + j) / cols = i := by
  rw [Nat.mul_comm, Nat.mul_add_div (Nat.zero_lt_of_lt col), Nat.div_eq_of_lt col, Nat.add_zero]

theorem rowMajor_index_mod {cols i j : ℕ} (col : j < cols) : (i * cols + j) % cols = j := by
  rw [Nat.mul_comm, Nat.mul_add_mod, Nat.mod_eq_of_lt col]

theorem rowMajor_length (cols : ℕ) (entry : ℕ → ℕ → α) (count : ℕ) :
    (rowMajor cols entry count).length = count := by
  simp [rowMajor]

theorem rowMajor_succ {cols i j : ℕ} (entry : ℕ → ℕ → α) (col : j < cols) :
    rowMajor cols entry (i * cols + j + 1) =
      rowMajor cols entry (i * cols + j) ++ [entry i j] := by
  simp [rowMajor, List.range_succ, rowMajor_index_div col, rowMajor_index_mod col]

theorem rowMajor_getElem? {rows cols i j : ℕ} (entry : ℕ → ℕ → α) (row : i < rows)
    (col : j < cols) :
    (rowMajor cols entry (rows * cols))[i * cols + j]? = some (entry i j) := by
  simp [rowMajor, rowMajor_index_lt row col, rowMajor_index_div col, rowMajor_index_mod col]

/-- The rule for a table computed entry by entry: each index is written once. -/
theorem rowMajorLoop_eq_some {rows cols : ℕ} (entry : ℕ → ℕ → α)
    (body : ℕ → ℕ → TracedArray α → Option (TracedArray α))
    (turn : ∀ i < rows, ∀ j < cols, ∀ array,
      body i j array = array.write (i * cols + j) (entry i j))
    {original : List α} (room : original.length = rows * cols) :
    countedLoop (fun i => countedLoop (body i) cols) rows (.untouched original) =
      some (.filled original (rowMajor cols entry (rows * cols))) := by
  have start := countedLoop_eq (fun i => countedLoop (body i) cols)
    (fun i => .filled original (rowMajor cols entry (i * cols))) rows
  rw [Nat.zero_mul] at start
  refine start fun i row => ?_
  have inner := countedLoop_eq (body i)
    (fun j => .filled original (rowMajor cols entry (i * cols + j))) cols
  rw [← Nat.succ_mul] at inner
  refine inner fun j col => ?_
  have inside : (rowMajor cols entry (i * cols + j)).length < original.length := by
    rw [rowMajor_length, room]
    exact rowMajor_index_lt row col
  have written := TracedArray.write_filled (entry i j) inside
  rw [rowMajor_length] at written
  rw [turn i row j col, written, ← Nat.add_assoc, rowMajor_succ entry col]

end Ence360.Semantics
