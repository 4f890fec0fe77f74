import Mathlib

/-!
# Strides

The multiples of a stride below a bound cut the interval below that bound into
cells; the last cell may be shorter. Two such cuts give one of the product.
-/

set_option autoImplicit false

namespace Ence360.Semantics

/-- Non-empty cells that cover a set without overlap. -/
structure Tiling {α : Type} (cells : List (Set α)) (whole : Set α) : Prop where
  nonempty : ∀ cell ∈ cells, cell.Nonempty
  disjoint : cells.Pairwise Disjoint
  covers : ∀ x, x ∈ whole ↔ ∃ cell ∈ cells, x ∈ cell

section Product

variable {α β : Type} {rows : List (Set α)} {cols : List (Set β)} {left : Set α} {right : Set β}

def productCells (rows : List (Set α)) (cols : List (Set β)) : List (Set (α × β)) :=
  rows.flatMap fun row => cols.map fun col => row ×ˢ col

theorem mem_productCells {cell : Set (α × β)} :
    cell ∈ productCells rows cols ↔ ∃ row ∈ rows, ∃ col ∈ cols, row ×ˢ col = cell := by
  simp only [productCells, List.mem_flatMap, List.mem_map]

theorem Tiling.product (tilesRows : Tiling rows left) (tilesCols : Tiling cols right) :
    Tiling (productCells rows cols) (left ×ˢ right) where
  nonempty := by
    intro cell member
    obtain ⟨row, rowMem, col, colMem, rfl⟩ := mem_productCells.mp member
    exact (tilesRows.nonempty row rowMem).prod (tilesCols.nonempty col colMem)
  disjoint := by
    rw [productCells, List.pairwise_flatMap]
    constructor
    · intro row _
      rw [List.pairwise_map]
      exact tilesCols.disjoint.imp fun apart => Set.disjoint_prod.mpr (.inr apart)
    · refine tilesRows.disjoint.imp ?_
      intro first second apart cell cellMem other otherMem
      obtain ⟨_, _, rfl⟩ := List.mem_map.mp cellMem
      obtain ⟨_, _, rfl⟩ := List.mem_map.mp otherMem
      exact Set.disjoint_prod.mpr (.inl apart)
  covers := by
    intro point
    rw [Set.mem_prod, tilesRows.covers, tilesCols.covers]
    constructor
    · intro both
      obtain ⟨⟨row, rowMem, inRow⟩, col, colMem, inCol⟩ := both
      exact ⟨row ×ˢ col, mem_productCells.mpr ⟨row, rowMem, col, colMem, rfl⟩, inRow, inCol⟩
    · intro covered
      obtain ⟨cell, member, inside⟩ := covered
      obtain ⟨row, rowMem, col, colMem, rfl⟩ := mem_productCells.mp member
      exact ⟨⟨row, rowMem, inside.1⟩, col, colMem, inside.2⟩

end Product

section Cells

/-- The number of multiples of the stride below the bound. -/
def strideCount (bound stride : ℕ) : ℕ :=
  (bound + stride - 1) / stride

def strideCell (bound stride turn : ℕ) : Set ℕ :=
  Set.Ico (turn * stride) (min (turn * stride + stride) bound)

def strideCells (bound stride : ℕ) : List (Set ℕ) :=
  (List.range (strideCount bound stride)).map (strideCell bound stride)

variable {bound stride : ℕ} (positive : 0 < stride)

/-- A later cell starts behind an earlier one. -/
theorem strideCell_disjoint {first second : ℕ} (earlier : first < second) :
    Disjoint (strideCell bound stride first) (strideCell bound stride second) := by
  have behind : first * stride + stride ≤ second * stride := by
    rw [← Nat.succ_mul]
    exact Nat.mul_le_mul_right stride earlier
  rw [Set.disjoint_left]
  intro x inFirst inSecond
  have before := inFirst.2
  have after := inSecond.1
  omega

include positive

theorem lt_strideCount_iff {turn : ℕ} :
    turn < strideCount bound stride ↔ turn * stride < bound := by
  rw [strideCount, Nat.lt_iff_add_one_le, Nat.le_div_iff_mul_le positive, Nat.succ_mul]
  omega

theorem strideCount_le : strideCount bound stride ≤ bound := by
  by_contra more
  have below := (lt_strideCount_iff positive).mp (Nat.lt_of_not_le more)
  have grows := Nat.le_mul_of_pos_right bound positive
  omega

theorem le_strideCount_mul : bound ≤ strideCount bound stride * stride := by
  by_contra below
  exact Nat.lt_irrefl _ ((lt_strideCount_iff positive).mpr (Nat.lt_of_not_le below))

theorem strideCount_mul_lt : strideCount bound stride * stride < bound + stride := by
  have rounded := Nat.div_mul_le_self (bound + stride - 1) stride
  rw [← strideCount] at rounded
  omega

theorem strideCells_tiling : Tiling (strideCells bound stride) (Set.Iio bound) where
  nonempty := by
    intro cell member
    obtain ⟨turn, inRange, rfl⟩ := List.mem_map.mp member
    have below := (lt_strideCount_iff positive).mp (List.mem_range.mp inRange)
    exact ⟨turn * stride, Nat.le_refl _, lt_min (Nat.lt_add_of_pos_right positive) below⟩
  disjoint := by
    rw [strideCells, List.pairwise_map]
    exact List.pairwise_lt_range.imp strideCell_disjoint
  covers := by
    intro x
    constructor
    · intro below
      -- The cell of a number is given by its quotient.
      have division := Nat.div_add_mod' x stride
      have remainder := Nat.mod_lt x positive
      have turn : x / stride * stride < bound := Nat.lt_of_le_of_lt (by omega) below
      refine ⟨strideCell bound stride (x / stride), List.mem_map_of_mem ?_, ?_⟩
      · exact List.mem_range.mpr ((lt_strideCount_iff positive).mpr turn)
      · exact ⟨by omega, lt_min (by omega) below⟩
    · intro covered
      obtain ⟨cell, member, inside⟩ := covered
      obtain ⟨turn, _, rfl⟩ := List.mem_map.mp member
      exact lt_of_lt_of_le inside.2 (min_le_right _ _)

end Cells

end Ence360.Semantics
