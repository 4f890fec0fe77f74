import Mathlib.Data.List.Basic
import Mathlib.Logic.Function.Basic
import Mathlib.Tactic.Common

/-!
# File descriptors

The descriptor table of one process. A new descriptor is the lowest free one;
since only finitely many are open, there is one.
-/

set_option autoImplicit false

namespace Ence360.Semantics

structure DescriptorTable (File : Type) where
  file : ℕ → Option File
  bound : ℕ
  closed : ∀ fd, bound ≤ fd → file fd = none

namespace DescriptorTable

variable {File Other : Type}

def map (rename : File → Other) (table : DescriptorTable File) : DescriptorTable Other where
  file fd := (table.file fd).map rename
  bound := table.bound
  closed fd high := by rw [table.closed fd high, Option.map_none]

def set (table : DescriptorTable File) (fd : ℕ) (entry : Option File) : DescriptorTable File where
  file := Function.update table.file fd entry
  bound := max table.bound (fd + 1)
  closed other high := by
    have different : other ≠ fd := by omega
    rw [Function.update_of_ne different]
    exact table.closed other (by omega)

@[simp] theorem set_file (table : DescriptorTable File) (fd : ℕ) (entry : Option File) :
    (table.set fd entry).file = Function.update table.file fd entry := rfl

def lowestFree (table : DescriptorTable File) : ℕ :=
  ((List.range table.bound).find? fun fd => (table.file fd).isNone).getD table.bound

/-- A pipe takes two descriptors, the first for its read end. -/
def pipe (table : DescriptorTable File) (readEnd writeEnd : File) :
    ℕ × ℕ × DescriptorTable File :=
  let outp := table.lowestFree
  let opened := table.set outp (some readEnd)
  let inp := opened.lowestFree
  (outp, inp, opened.set inp (some writeEnd))

def close (table : DescriptorTable File) (fd : ℕ) : DescriptorTable File :=
  table.set fd none

/-- An open `old` becomes `new` as well, whatever `new` was before. -/
def dup2 (table : DescriptorTable File) (old new : ℕ) : DescriptorTable File :=
  match table.file old with
  | none => table
  | some file => table.set new (some file)

theorem lowestFree_free (table : DescriptorTable File) : table.file table.lowestFree = none := by
  rw [lowestFree]
  cases found : (List.range table.bound).find? fun fd => (table.file fd).isNone with
  | none => exact table.closed table.bound (Nat.le_refl _)
  | some fd => simpa using List.find?_some found

theorem dup2_of_open {table : DescriptorTable File} {old : ℕ} {file : File}
    (opened : table.file old = some file) (new : ℕ) :
    table.dup2 old new = table.set new (some file) := by
  rw [dup2, opened]

/-- The two new descriptors were free and differ. -/
theorem pipe_spec (table : DescriptorTable File) (readEnd writeEnd : File) :
    ∃ outp inp opened, table.pipe readEnd writeEnd = (outp, inp, opened) ∧
      table.file outp = none ∧ table.file inp = none ∧ outp ≠ inp ∧
      opened.file = Function.update (Function.update table.file outp (some readEnd)) inp
        (some writeEnd) := by
  have free := (table.set table.lowestFree (some readEnd)).lowestFree_free
  have different : table.lowestFree ≠ (table.set table.lowestFree (some readEnd)).lowestFree := by
    intro same
    rw [← same, set_file, Function.update_self] at free
    cases free
  refine ⟨_, _, _, rfl, table.lowestFree_free, ?_, different, rfl⟩
  rwa [set_file, Function.update_of_ne different.symm] at free

section Lowest

variable {table : DescriptorTable File} {fd : ℕ}

/-- `open` and `dup` take the lowest free descriptor. -/
def allocate (table : DescriptorTable File) (file : File) : DescriptorTable File :=
  table.set table.lowestFree (some file)

def dup (table : DescriptorTable File) (old : ℕ) : DescriptorTable File :=
  match table.file old with
  | none => table
  | some file => table.allocate file

theorem lowestFree_le (free : table.file fd = none) : table.lowestFree ≤ fd := by
  by_contra before
  have before : fd < table.lowestFree := by omega
  rw [lowestFree] at before
  cases found : (List.range table.bound).find? fun fd => (table.file fd).isNone with
  | none =>
      rw [found, Option.getD_none] at before
      have absent := List.find?_eq_none.mp found fd (List.mem_range.mpr before)
      rw [free] at absent
      exact absent rfl
  | some first =>
      rw [found, Option.getD_some] at before
      obtain ⟨-, index, inside, rfl, earlier⟩ := List.find?_eq_some_iff_getElem.mp found
      rw [List.getElem_range] at before
      have absent := earlier fd before
      rw [List.getElem_range, free] at absent
      cases absent

theorem lowestFree_eq (free : table.file fd = none)
    (below : ∀ lower < fd, table.file lower ≠ none) : table.lowestFree = fd := by
  have notBelow : ¬ table.lowestFree < fd := fun lower => below _ lower table.lowestFree_free
  have notAbove := lowestFree_le free
  omega

/-- The descriptor is given to `file` when it is the lowest free one. -/
theorem allocate_file {file : File} (free : table.file fd = none)
    (below : ∀ lower < fd, table.file lower ≠ none) :
    (table.allocate file).file = Function.update table.file fd (some file) := by
  rw [allocate, set_file, lowestFree_eq free below]

theorem dup_file {old : ℕ} {file : File} (opened : table.file old = some file)
    (free : table.file fd = none) (below : ∀ lower < fd, table.file lower ≠ none) :
    (table.dup old).file = Function.update table.file fd (some file) := by
  rw [dup, opened]
  exact allocate_file free below

theorem close_file (table : DescriptorTable File) (fd : ℕ) :
    (table.close fd).file = Function.update table.file fd none := rfl

end Lowest

end DescriptorTable

end Ence360.Semantics
