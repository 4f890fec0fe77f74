import Mathlib.Algebra.BigOperators.Ring.List
import Mathlib.Tactic.Linarith
import Mathlib.Tactic.Ring
import Ence360.Distributed.Sort

/-!
# The shares of the distributed sort

Rounding the share up leaves a surplus that is taken from the last rank alone.
The shares always add up; they are all valid exactly when that surplus fits
into one rank.
-/

set_option autoImplicit false

namespace Ence360.Distributed.Sort

open Ence360.Semantics

/-- The rounded-up quotient, as a function of the two inputs. -/
def roundedShare (totalElems worldSize : ℤ) : ℤ :=
  (totalElems + (worldSize - 1)) / worldSize

/-- What `main` leaves in `localSize` on one rank. -/
def localShare (totalElems worldSize worldRank : ℤ) : ℤ :=
  if totalElems ≤ worldRank then 0
  else roundedShare totalElems worldSize -
    if worldRank + 1 = worldSize then
      roundedShare totalElems worldSize * worldSize - totalElems
    else 0

def shareAt (totalElems worldSize worldRank : ℤ) : Share where
  elemsProc := roundedShare totalElems worldSize
  totalAlloc := roundedShare totalElems worldSize * worldSize
  extra := roundedShare totalElems worldSize * worldSize - totalElems
  isLast := worldRank + 1 == worldSize
  localSize := localShare totalElems worldSize worldRank

/-- Every rank sorts only real elements, and the ranks together sort all of them. -/
def ValidShares (totalElems worldSize : ℤ) : Prop :=
  ∃ all, shares totalElems worldSize = some all ∧
    (∀ (rank : ℕ) (mine : Share), all[rank]? = some mine →
      0 ≤ mine.localSize ∧ mine.localSize ≤ mine.elemsProc ∧
        (0 < mine.localSize → rank * mine.elemsProc + mine.localSize ≤ totalElems)) ∧
    (all.map (·.localSize)).sum = totalElems

private theorem mapM_eq_some_map {α β : Type} {items : List α} {compute : α → Option β}
    {result : α → β} (computed : ∀ item ∈ items, compute item = some (result item)) :
    items.mapM compute = some (items.map result) := by
  induction items with
  | nil => rfl
  | cons head tail ih =>
      have first := computed head (.head _)
      have rest := ih fun item member => computed item (.tail _ member)
      simp [List.mapM_cons, first, rest]

private theorem isSome_of_mapM_isSome {α β : Type} {items : List α} {compute : α → Option β}
    (computed : (items.mapM compute).isSome) (item : α) (member : item ∈ items) :
    (compute item).isSome := by
  induction items with
  | nil => cases member
  | cons head tail ih =>
      obtain ⟨results, found⟩ := Option.isSome_iff_exists.mp computed
      simp only [List.mapM_cons, Option.bind_eq_bind, Option.bind_eq_some_iff] at found
      obtain ⟨first, headFound, rest, tailFound, _⟩ := found
      rcases List.mem_cons.mp member with rfl | member
      · simp [headFound]
      · exact ih (by simp [tailFound]) member

theorem roundedShare_bounds {totalElems worldSize : ℤ} (positive : 1 ≤ worldSize) :
    totalElems ≤ roundedShare totalElems worldSize * worldSize ∧
      roundedShare totalElems worldSize * worldSize ≤ totalElems + (worldSize - 1) := by
  have division := Int.emod_add_mul_ediv (totalElems + (worldSize - 1)) worldSize
  have low := Int.emod_nonneg (totalElems + (worldSize - 1)) (by omega : worldSize ≠ 0)
  have high := Int.emod_lt_of_pos (totalElems + (worldSize - 1)) (by omega : 0 < worldSize)
  rw [roundedShare, mul_comm]
  constructor <;> omega

theorem roundedShare_nonneg {totalElems worldSize : ℤ} (nonneg : 0 ≤ totalElems)
    (positive : 1 ≤ worldSize) : 0 ≤ roundedShare totalElems worldSize :=
  Int.ediv_nonneg (by omega) (by omega)

section Defined

variable {totalElems worldSize : ℤ} (nonneg : 0 ≤ totalElems) (positive : 1 ≤ worldSize)
  (sizeFits : worldSize ≤ 2147483647) (sumFits : totalElems + (worldSize - 1) ≤ 2147483647)

include nonneg positive sizeFits sumFits

/-- Once the rounded-up sum fits, nothing else in the computation can overflow. -/
theorem share_eq {worldRank : ℤ} (rankNonneg : 0 ≤ worldRank) (rankLt : worldRank < worldSize) :
    share totalElems worldSize worldRank = some (shareAt totalElems worldSize worldRank) := by
  have bounds := @roundedShare_bounds totalElems worldSize positive
  have shareNonneg := roundedShare_nonneg nonneg positive
  have shareLe : roundedShare totalElems worldSize ≤
      roundedShare totalElems worldSize * worldSize :=
    le_mul_of_one_le_right shareNonneg positive
  have others : CheckedInt.sub worldSize 1 = some (worldSize - 1) :=
    CheckedInt.sub_eq_some (by omega) (by omega)
  have rounded : CheckedInt.add totalElems (worldSize - 1) = some (totalElems + (worldSize - 1)) :=
    CheckedInt.add_eq_some (by omega) (by omega)
  have quotient : CheckedInt.div (totalElems + (worldSize - 1)) worldSize =
      some (roundedShare totalElems worldSize) :=
    CheckedInt.div_eq_some (by omega) (by omega) (by omega)
  have total : CheckedInt.mul (roundedShare totalElems worldSize) worldSize =
      some (roundedShare totalElems worldSize * worldSize) :=
    CheckedInt.mul_eq_some (by omega) (by omega)
  have surplus : CheckedInt.sub (roundedShare totalElems worldSize * worldSize) totalElems =
      some (roundedShare totalElems worldSize * worldSize - totalElems) :=
    CheckedInt.sub_eq_some (by omega) (by omega)
  have next : CheckedInt.add worldRank 1 = some (worldRank + 1) :=
    CheckedInt.add_eq_some (by omega) (by omega)
  have trimmed : CheckedInt.sub (roundedShare totalElems worldSize)
      (if worldRank + 1 = worldSize then
        roundedShare totalElems worldSize * worldSize - totalElems else 0) =
      some (roundedShare totalElems worldSize - if worldRank + 1 = worldSize then
        roundedShare totalElems worldSize * worldSize - totalElems else 0) := by
    split <;> exact CheckedInt.sub_eq_some (by omega) (by omega)
  simp only [share, others, rounded, quotient, total, surplus, next, trimmed, Option.bind_eq_bind,
    Option.bind_some, ge_iff_le, beq_iff_eq, shareAt, localShare]

theorem shares_eq : shares totalElems worldSize =
    some ((List.range worldSize.toNat).map fun rank : ℕ => shareAt totalElems worldSize rank) := by
  apply mapM_eq_some_map
  intro rank member
  have rankLt := List.mem_range.mp member
  exact share_eq nonneg positive sizeFits sumFits (by omega) (by omega)

end Defined

theorem roundedShare_eq_one {totalElems worldSize : ℤ} (anyElement : 0 < totalElems)
    (fewer : totalElems < worldSize) : roundedShare totalElems worldSize = 1 := by
  have bounds := @roundedShare_bounds totalElems worldSize (by omega)
  have low : 0 < roundedShare totalElems worldSize := by
    by_contra notPositive
    nlinarith
  have high : roundedShare totalElems worldSize < 2 := by
    by_contra notSmall
    nlinarith
  omega

theorem roundedShare_eq {worldSize : ℤ} (positive : 1 ≤ worldSize) (totalElems : ℤ) :
    roundedShare totalElems worldSize =
      totalElems / worldSize + if totalElems % worldSize = 0 then 0 else 1 := by
  have division := Int.emod_add_mul_ediv totalElems worldSize
  have low := Int.emod_nonneg totalElems (by omega : worldSize ≠ 0)
  have high := Int.emod_lt_of_pos totalElems (by omega : 0 < worldSize)
  have shifted : totalElems + (worldSize - 1) =
      (totalElems % worldSize + (worldSize - 1)) + worldSize * (totalElems / worldSize) := by
    omega
  rw [roundedShare, shifted, Int.add_mul_ediv_left _ _ (by omega)]
  split
  · next exactly =>
      rw [exactly, Int.ediv_eq_zero_of_lt (by omega) (by omega)]
      omega
  · next inexact =>
      have carry : (totalElems % worldSize + (worldSize - 1)) / worldSize = 1 := by
        rw [Int.ediv_eq_iff_of_pos (by omega)]
        constructor <;> omega
      omega

theorem sum_localShare_below {totalElems worldSize : ℤ} (nonneg : 0 ≤ totalElems)
    (count : ℕ) (before : count < worldSize) :
    ((List.range count).map fun rank : ℕ => localShare totalElems worldSize rank).sum =
      roundedShare totalElems worldSize * min (count : ℤ) totalElems := by
  induction count with
  | zero => simp [nonneg]
  | succ count ih =>
      rw [List.range_succ, List.map_append, List.sum_append, ih (by omega)]
      have notLast : (count : ℤ) + 1 ≠ worldSize := by omega
      simp only [List.map_cons, List.map_nil, List.sum_cons, List.sum_nil, localShare,
        if_neg notLast]
      split
      · next beyond =>
          rw [min_eq_right (by omega), min_eq_right (by omega)]
          ring
      · next within =>
          rw [min_eq_left (by omega), min_eq_left (by omega)]
          push_cast
          ring

/-- The sizes add up on every input, also where one of them is negative. -/
theorem sum_localShare {totalElems worldSize : ℤ} (nonneg : 0 ≤ totalElems)
    (positive : 1 ≤ worldSize) :
    ((List.range worldSize.toNat).map fun rank : ℕ =>
      localShare totalElems worldSize rank).sum = totalElems := by
  obtain ⟨count, size⟩ : ∃ count : ℕ, worldSize = count + 1 := ⟨worldSize.toNat - 1, by omega⟩
  have ranks : worldSize.toNat = count + 1 := by omega
  rw [ranks, List.range_succ, List.map_append, List.sum_append,
    sum_localShare_below nonneg count (by omega)]
  simp only [List.map_cons, List.map_nil, List.sum_cons, List.sum_nil, localShare,
    if_pos size.symm, add_zero]
  split
  · next fewer =>
      rw [min_eq_right (by omega)]
      rcases nonneg.eq_or_lt with rfl | anyElement
      · simp
      · rw [roundedShare_eq_one anyElement (by omega)]
        ring
  · next enough =>
      rw [min_eq_left (by omega), size]
      ring

theorem fits_of_shares_isSome {totalElems worldSize : ℤ} (positive : 1 ≤ worldSize)
    (defined : (shares totalElems worldSize).isSome) :
    worldSize ≤ 2147483647 ∧ totalElems + (worldSize - 1) ≤ 2147483647 := by
  have last := isSome_of_mapM_isSome defined (worldSize.toNat - 1)
    (List.mem_range.mpr (by omega))
  obtain ⟨mine, found⟩ := Option.isSome_iff_exists.mp last
  simp only [share, Option.bind_eq_bind, Option.bind_eq_some_iff] at found
  obtain ⟨others, less, rounded, sum, _, _, _, _, _, _, next, increment, _⟩ := found
  obtain ⟨_, rfl⟩ := CheckedInt.check_eq_some_iff.mp less
  obtain ⟨⟨_, sumFits⟩, _⟩ := CheckedInt.check_eq_some_iff.mp sum
  obtain ⟨⟨_, nextFits⟩, _⟩ := CheckedInt.check_eq_some_iff.mp increment
  have cast : ((worldSize.toNat - 1 : ℕ) : ℤ) = worldSize - 1 := by omega
  exact ⟨by omega, sumFits⟩

/-- The surplus fits into the last rank, or the last rank has no element anyway. -/
def SurplusFits (totalElems worldSize : ℤ) : Prop :=
  totalElems < worldSize ∨ roundedShare totalElems worldSize * (worldSize - 1) ≤ totalElems

theorem localShare_valid {totalElems worldSize worldRank : ℤ} (nonneg : 0 ≤ totalElems)
    (rankNonneg : 0 ≤ worldRank) (rankLt : worldRank < worldSize)
    (surplus : SurplusFits totalElems worldSize) :
    0 ≤ localShare totalElems worldSize worldRank ∧
      localShare totalElems worldSize worldRank ≤ roundedShare totalElems worldSize ∧
      (0 < localShare totalElems worldSize worldRank →
        worldRank * roundedShare totalElems worldSize +
          localShare totalElems worldSize worldRank ≤ totalElems) := by
  have positive : 1 ≤ worldSize := by omega
  have bounds := @roundedShare_bounds totalElems worldSize positive
  have shareNonneg := roundedShare_nonneg nonneg positive
  have product : roundedShare totalElems worldSize * (worldSize - 1) =
      roundedShare totalElems worldSize * worldSize - roundedShare totalElems worldSize := by
    ring
  unfold localShare
  by_cases beyond : totalElems ≤ worldRank
  · simp only [if_pos beyond]
    exact ⟨le_rfl, shareNonneg, fun absurd => (lt_irrefl _ absurd).elim⟩
  · rcases surplus with fewer | fits
    · have one := roundedShare_eq_one (by omega) fewer
      rw [if_neg beyond, if_neg (by omega : ¬ worldRank + 1 = worldSize), one]
      exact ⟨by omega, by omega, fun _ => by omega⟩
    · rw [if_neg beyond]
      split
      · next last =>
          refine ⟨by omega, by omega, fun _ => ?_⟩
          have rank : worldRank = worldSize - 1 := by omega
          rw [rank, mul_comm, product]
          omega
      · next notLast =>
          refine ⟨by omega, by omega, fun _ => ?_⟩
          have room : roundedShare totalElems worldSize * (worldRank + 1) ≤
              roundedShare totalElems worldSize * (worldSize - 1) :=
            mul_le_mul_of_nonneg_left (by omega) shareNonneg
          calc worldRank * roundedShare totalElems worldSize +
                (roundedShare totalElems worldSize - 0)
              = roundedShare totalElems worldSize * (worldRank + 1) := by ring
            _ ≤ totalElems := room.trans fits

theorem surplusFits_iff {totalElems worldSize : ℤ} (nonneg : 0 ≤ totalElems)
    (positive : 1 ≤ worldSize) : SurplusFits totalElems worldSize ↔
      totalElems ≤ worldSize ∨ worldSize ∣ totalElems ∨
        worldSize ≤ totalElems / worldSize + totalElems % worldSize + 1 := by
  have division := Int.emod_add_mul_ediv totalElems worldSize
  have quotientNonneg := Int.ediv_nonneg nonneg (by omega : 0 ≤ worldSize)
  have product : totalElems / worldSize * (worldSize - 1) =
      worldSize * (totalElems / worldSize) - totalElems / worldSize := by ring
  have carried : (totalElems / worldSize + 1) * (worldSize - 1) =
      worldSize * (totalElems / worldSize) - totalElems / worldSize + (worldSize - 1) := by ring
  rw [SurplusFits, roundedShare_eq positive]
  by_cases exactly : totalElems % worldSize = 0
  · have divides : worldSize ∣ totalElems := Int.dvd_of_emod_eq_zero exactly
    simp only [exactly, if_true, add_zero, product, divides, true_or, or_true, iff_true]
    exact .inr (by omega)
  · have notDivides : ¬ worldSize ∣ totalElems := fun divides =>
      exactly (Int.emod_eq_zero_of_dvd divides)
    have notEqual : totalElems ≠ worldSize := fun equal => notDivides (equal ▸ dvd_refl _)
    simp only [if_neg exactly, carried, notDivides, false_or]
    constructor
    · intro either
      rcases either with fewer | fits
      · exact .inl fewer.le
      · exact .inr (by omega)
    · intro either
      rcases either with fewer | fits
      · exact .inl (by omega)
      · exact .inr (by omega)

/-- The shares of `sort.c` are valid exactly for the pairs where rounding up
leaves no more surplus than one share. -/
theorem validShares_iff {totalElems worldSize : ℤ} (nonneg : 0 ≤ totalElems)
    (positive : 1 ≤ worldSize) (defined : (shares totalElems worldSize).isSome) :
    ValidShares totalElems worldSize ↔
      totalElems ≤ worldSize ∨ worldSize ∣ totalElems ∨
        worldSize ≤ totalElems / worldSize + totalElems % worldSize + 1 := by
  obtain ⟨sizeFits, sumFits⟩ := fits_of_shares_isSome positive defined
  have all := shares_eq nonneg positive sizeFits sumFits
  rw [← surplusFits_iff nonneg positive]
  constructor
  · intro given
    obtain ⟨found, computed, valid, _⟩ := given
    rw [all, Option.some.injEq] at computed
    subst computed
    have last := valid (worldSize.toNat - 1) (shareAt totalElems worldSize (worldSize - 1)) (by
      rw [List.getElem?_map, List.getElem?_range (by omega)]
      simp only [Option.map_some, Option.some.injEq]
      congr 1
      omega)
    by_cases fewer : totalElems < worldSize
    · exact .inl fewer
    · right
      have low := last.1
      rw [shareAt, localShare, if_neg (by omega), if_pos (by omega)] at low
      linarith [mul_sub (roundedShare totalElems worldSize) worldSize 1]
  · intro surplus
    refine ⟨_, all, ?_, ?_⟩
    · intro rank mine found
      rw [List.getElem?_map, Option.map_eq_some_iff] at found
      obtain ⟨position, inRange, rfl⟩ := found
      obtain ⟨rankLt, rfl⟩ := List.getElem?_eq_some_iff.mp inRange
      simp only [List.length_range] at rankLt
      simp only [List.getElem_range, shareAt]
      exact localShare_valid nonneg (by omega) (by omega) surplus
    · rw [List.map_map]
      exact sum_localShare nonneg positive

theorem validShares_six_four : ValidShares 6 4 :=
  (validShares_iff (by decide) (by decide) (by decide)).mpr (by decide)

/-- Five elements on four ranks: the last rank is given `-1` elements to sort. -/
theorem not_validShares_five_four : ¬ ValidShares 5 4 := by
  intro found
  obtain ⟨all, computed, valid, _⟩ := found
  have last := valid 3 ⟨2, 8, 3, true, -1⟩ (by
    rw [← Option.some.inj ((by decide : shares 5 4 = some [⟨2, 8, 3, false, 2⟩, ⟨2, 8, 3, false, 2⟩,
      ⟨2, 8, 3, false, 2⟩, ⟨2, 8, 3, true, -1⟩]).symm.trans computed)]
    rfl)
  exact absurd last.1 (by decide)

end Ence360.Distributed.Sort
