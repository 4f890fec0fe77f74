import Ence360.Cache.MatrixBlocked
import Ence360.Semantics.Stride

/-!
# The boxes of the blocked loops

Each loop makes one turn for every multiple of `block` below `n`. In one
dimension the turns cut the indices into cells, and the boxes are the products
of three such cells.
-/

set_option autoImplicit false

namespace Ence360.Cache.MatrixBlocked

open Semantics

section Logs

def Log.append (log out : Log) : Log where
  boxes := log.boxes ++ out.boxes
  additions := log.additions ++ out.additions

/-- The index of a turn. -/
def start (block : UInt64) (turn : ℕ) : UInt64 :=
  UInt64.ofNat (turn * block.toNat)

theorem start_succ (block : UInt64) (turn : ℕ) :
    start block (turn + 1) = start block turn + block := by
  rw [start, Nat.succ_mul, UInt64.ofNat_add, UInt64.ofNat_toNat, start]

/-- What the first turns of a loop add to the log, when its body adds `out i`. -/
def turnsLog (block : UInt64) (out : UInt64 → Log) (turns : ℕ) : Log where
  boxes := (List.range turns).flatMap fun turn => (out (start block turn)).boxes
  additions := (List.range turns).flatMap fun turn =>
    (out (start block turn)).additions ++ [(start block turn, block)]

theorem append_turnsLog_succ (log : Log) (block : UInt64) (out : UInt64 → Log) (turns : ℕ) :
    ((log.append (turnsLog block out turns)).append (out (start block turns))).add
      (start block turns) block =
      (start block (turns + 1), log.append (turnsLog block out (turns + 1))) := by
  simp [Log.add, Log.append, turnsLog, start_succ, List.range_succ, List.flatMap_append]

theorem turnsLog_additions {property : UInt64 × UInt64 → Prop} {block : UInt64}
    {out : UInt64 → Log} {turns : ℕ}
    (inner : ∀ turn < turns, ∀ addition ∈ (out (start block turn)).additions, property addition)
    (advance : ∀ turn < turns, property (start block turn, block)) :
    ∀ addition ∈ (turnsLog block out turns).additions, property addition := by
  intro addition member
  obtain ⟨turn, inRange, member⟩ := List.mem_flatMap.mp member
  have below := List.mem_range.mp inRange
  rcases List.mem_append.mp member with within | last
  · exact inner turn below addition within
  · cases List.mem_singleton.mp last
    exact advance turn below

def boxAt (n block i j k : UInt64) : Box where
  i := i
  iEnd := min (i + block) n
  j := j
  jEnd := min (j + block) n
  k := k
  kEnd := min (k + block) n

/-- What the body of the three loops adds to the log. -/
def boxLog (n block i j k : UInt64) : Log where
  boxes := [boxAt n block i j k]
  additions := [(i, block), (j, block), (k, block)]

theorem boxBody_eq (n block i j k : UInt64) (log : Log) :
    boxBody n block i j k log = log.append (boxLog n block i j k) := by
  simp [boxBody, Log.add, Log.append, boxLog, boxAt]

/-- What the three loops add to the log. -/
def blockedLog (n block : UInt64) : Log :=
  let count := strideCount n.toNat block.toNat
  turnsLog block (fun i =>
    turnsLog block (fun j =>
      turnsLog block (fun k => boxLog n block i j k) count) count) count

end Logs

section Loop

variable {n block : UInt64} (small : n.toNat < 2 ^ 63) (positive : 0 < block.toNat)
  (bounded : block.toNat < 2 ^ 63)
include small positive bounded

/-- No index wraps, the one after the last turn included. -/
theorem start_toNat {turn : ℕ} (within : turn ≤ strideCount n.toNat block.toNat) :
    (start block turn).toNat = turn * block.toNat := by
  have last := @strideCount_mul_lt n.toNat _ positive
  have scaled := Nat.mul_le_mul_right block.toNat within
  rw [start, UInt64.toNat_ofNat']
  exact Nat.mod_eq_of_lt (by omega)

theorem blockLoop_eq_some {fuel : ℕ} (enough : n.toNat < fuel) {out : UInt64 → Log}
    {body : UInt64 → Log → Option Log}
    (adds : ∀ i log, body i log = some (log.append (out i))) (log : Log) :
    blockLoop fuel n block body log =
      some (log.append (turnsLog block out (strideCount n.toNat block.toNat))) := by
  have few := @strideCount_le n.toNat _ positive
  have loop : whileLoop (fun state => decide (state.1 < n)) (blockTurn block body) fuel
      (start block 0, log.append (turnsLog block out 0)) = _ :=
    whileLoop_eq_reached (fun turn => (start block turn, log.append (turnsLog block out turn)))
      (fun turn below => by
        refine decide_eq_true (UInt64.lt_iff_toNat_lt.mpr ?_)
        rw [start_toNat small positive bounded (Nat.le_of_lt below)]
        exact (lt_strideCount_iff positive).mp below)
      (fun turn _ => by
        rw [blockTurn, adds, ← append_turnsLog_succ]
        rfl)
      (by
        refine decide_eq_false fun below => ?_
        rw [UInt64.lt_iff_toNat_lt, start_toNat small positive bounded (Nat.le_refl _)] at below
        exact Nat.not_lt_of_le (le_strideCount_mul positive) below)
      (Nat.lt_of_le_of_lt few enough)
  have initial : (start block 0, log.append (turnsLog block out 0)) = (0, log) := by
    simp [start, Log.append, turnsLog]
  rw [initial] at loop
  rw [blockLoop, loop]
  rfl

theorem matrixMulBlocked_eq_some {fuel : ℕ} (enough : n.toNat < fuel) :
    matrixMulBlocked fuel n block = some (blockedLog n block) := by
  have innermost := fun i j => blockLoop_eq_some small positive bounded enough
    fun k log => congrArg some (boxBody_eq n block i j k log)
  have middle := fun i => blockLoop_eq_some small positive bounded enough (innermost i)
  rw [matrixMulBlocked, blockLoop_eq_some small positive bounded enough middle]
  simp [Log.append, blockedLog]

theorem start_add_lt {turn : ℕ} (below : turn < strideCount n.toNat block.toNat) :
    (start block turn).toNat + block.toNat < 2 ^ 64 := by
  have inside := (lt_strideCount_iff positive).mp below
  rw [start_toNat small positive bounded (Nat.le_of_lt below)]
  omega

theorem blockedLog_additions :
    ∀ addition ∈ (blockedLog n block).additions,
      addition.1.toNat + addition.2.toNat < 2 ^ 64 := by
  have advance : ∀ turn < strideCount n.toNat block.toNat,
      (start block turn).toNat + block.toNat < 2 ^ 64 :=
    fun turn below => start_add_lt small positive bounded below
  refine turnsLog_additions (fun t tBelow => ?_) advance
  refine turnsLog_additions (fun u uBelow => ?_) advance
  refine turnsLog_additions (fun v vBelow => ?_) advance
  intro addition member
  simp only [boxLog, List.mem_cons, List.not_mem_nil, or_false] at member
  rcases member with rfl | rfl | rfl
  · exact advance t tBelow
  · exact advance u uBelow
  · exact advance v vBelow

end Loop

section Boxes

/-- The triples of indices in a box. -/
def Box.points (box : Box) : Set (ℕ × ℕ × ℕ) :=
  Set.Ico box.i.toNat box.iEnd.toNat ×ˢ
    Set.Ico box.j.toNat box.jEnd.toNat ×ˢ Set.Ico box.k.toNat box.kEnd.toNat

theorem min_toNat (a b : UInt64) : (min a b).toNat = Min.min a.toNat b.toNat := by
  rw [min]
  split
  · next greater => exact (min_eq_right (Nat.le_of_lt greater)).symm
  · next notGreater => exact (min_eq_left (Nat.le_of_not_lt notGreater)).symm

theorem turnsLog_points (block : UInt64) (out : UInt64 → Log) (turns : ℕ) :
    (turnsLog block out turns).boxes.map Box.points =
      (List.range turns).flatMap fun turn => (out (start block turn)).boxes.map Box.points :=
  List.map_flatMap

variable {n block : UInt64} (small : n.toNat < 2 ^ 63) (positive : 0 < block.toNat)
  (bounded : block.toNat < 2 ^ 63)
include small positive bounded

theorem interval_eq_strideCell {turn : ℕ} (below : turn < strideCount n.toNat block.toNat) :
    Set.Ico (start block turn).toNat (min (start block turn + block) n).toNat =
      strideCell n.toNat block.toNat turn := by
  rw [min_toNat, ← start_succ, start_toNat small positive bounded (Nat.le_of_lt below),
    start_toNat small positive bounded below, Nat.succ_mul]
  rfl

theorem boxLog_points {t u v : ℕ} (tBelow : t < strideCount n.toNat block.toNat)
    (uBelow : u < strideCount n.toNat block.toNat)
    (vBelow : v < strideCount n.toNat block.toNat) :
    (boxLog n block (start block t) (start block u) (start block v)).boxes.map Box.points =
      [strideCell n.toNat block.toNat t ×ˢ
        strideCell n.toNat block.toNat u ×ˢ strideCell n.toNat block.toNat v] := by
  rw [← interval_eq_strideCell small positive bounded tBelow,
    ← interval_eq_strideCell small positive bounded uBelow,
    ← interval_eq_strideCell small positive bounded vBelow]
  rfl

/-- The boxes are the products of three cells, in the order of the loops. -/
theorem blockedLog_points :
    (blockedLog n block).boxes.map Box.points =
      productCells (strideCells n.toNat block.toNat)
        (productCells (strideCells n.toNat block.toNat) (strideCells n.toNat block.toNat)) := by
  rw [blockedLog, turnsLog_points, productCells, strideCells, List.flatMap_map]
  refine List.flatMap_congr fun t tMem => ?_
  rw [turnsLog_points, productCells, List.map_flatMap, List.flatMap_map]
  refine List.flatMap_congr fun u uMem => ?_
  rw [turnsLog_points, List.map_map, List.map_map, ← List.flatMap_pure_eq_map]
  refine List.flatMap_congr fun v vMem => ?_
  exact boxLog_points small positive bounded (List.mem_range.mp tMem) (List.mem_range.mp uMem)
    (List.mem_range.mp vMem)

end Boxes

/-- The boxes of the blocked loops cut the cube of indices into disjoint parts,
for a block size that need not divide `n`, and no addition wraps. -/
theorem matrixMulBlocked_covers (n block : UInt64) (small : n.toNat < 2 ^ 63)
    (positive : 1 ≤ block.toNat) (bounded : block.toNat < 2 ^ 63) :
    ∃ log, (∀ fuel, n.toNat < fuel → matrixMulBlocked fuel n block = some log) ∧
      log.boxes.Pairwise (fun first second => Disjoint first.points second.points) ∧
      (∀ box ∈ log.boxes, box.points.Nonempty) ∧
      (∀ x y z : ℕ, (x < n.toNat ∧ y < n.toNat ∧ z < n.toNat) ↔
        ∃ box ∈ log.boxes, (x, y, z) ∈ box.points) ∧
      ∀ addition ∈ log.additions, addition.1.toNat + addition.2.toNat < 2 ^ 64 := by
  have line := @strideCells_tiling n.toNat _ positive
  have tiling := line.product (line.product line)
  rw [← blockedLog_points small positive bounded] at tiling
  obtain ⟨nonempty, disjoint, covers⟩ := tiling
  refine ⟨blockedLog n block, ?_, List.pairwise_map.mp disjoint, ?_, ?_, ?_⟩
  · intro fuel enough
    exact matrixMulBlocked_eq_some small positive bounded enough
  · intro box member
    exact nonempty _ (List.mem_map_of_mem member)
  · intro x y z
    refine (covers (x, y, z)).trans ?_
    constructor
    · intro covered
      obtain ⟨cell, member, inside⟩ := covered
      obtain ⟨box, boxMem, rfl⟩ := List.mem_map.mp member
      exact ⟨box, boxMem, inside⟩
    · intro covered
      obtain ⟨box, member, inside⟩ := covered
      exact ⟨box.points, List.mem_map_of_mem member, inside⟩
  · exact blockedLog_additions small positive bounded

theorem matrixMulBlocked_covers_seven_three :
    ∃ log, (∀ fuel, 7 < fuel → matrixMulBlocked fuel 7 3 = some log) ∧
      log.boxes.Pairwise (fun first second => Disjoint first.points second.points) ∧
      (∀ box ∈ log.boxes, box.points.Nonempty) ∧
      (∀ x y z : ℕ, (x < 7 ∧ y < 7 ∧ z < 7) ↔ ∃ box ∈ log.boxes, (x, y, z) ∈ box.points) ∧
      ∀ addition ∈ log.additions, addition.1.toNat + addition.2.toNat < 2 ^ 64 :=
  matrixMulBlocked_covers 7 3 (by decide) (by decide) (by decide)

end Ence360.Cache.MatrixBlocked
