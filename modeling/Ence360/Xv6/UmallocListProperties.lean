import Ence360.Xv6.Umalloc

/-!
# The free list

The free blocks form a ring in the order of their addresses, and between two of
them there is always memory that is not free.
-/

set_option autoImplicit false

namespace Ence360.Xv6.Umalloc

open Semantics

section Blocks

variable {low base : ℕ} {blocks left right : List (ℕ × ℕ)} {block other : ℕ × ℕ}

/-- Blocks in the order of their addresses, none of them next to another. -/
def Above : ℕ → List (ℕ × ℕ) → Prop
  | _, [] => True
  | low, block :: blocks => low < block.1 ∧ 0 < block.2 ∧ Above (block.1 + block.2) blocks

/-- The end of the last block. -/
def endOf : ℕ → List (ℕ × ℕ) → ℕ
  | low, [] => low
  | _, block :: blocks => endOf (block.1 + block.2) blocks

def Apart (block other : ℕ × ℕ) : Prop :=
  block.1 + block.2 ≤ other.1 ∨ other.1 + other.2 ≤ block.1

theorem above_append :
    Above low (left ++ right) ↔ Above low left ∧ Above (endOf low left) right := by
  induction left generalizing low with
  | nil => simp [Above, endOf]
  | cons block left ih => simp [Above, endOf, ih, and_assoc]

theorem Above.mono {lower : ℕ} (above : Above low blocks) (le : lower ≤ low) :
    Above lower blocks := by
  cases blocks with
  | nil => trivial
  | cons block blocks => exact ⟨Nat.lt_of_le_of_lt le above.1, above.2⟩

theorem Above.mem (above : Above low blocks) (member : block ∈ blocks) :
    low < block.1 ∧ 0 < block.2 := by
  induction blocks generalizing low with
  | nil => cases member
  | cons first blocks ih =>
      obtain ⟨lower, positive, rest⟩ := above
      rcases List.mem_cons.mp member with rfl | member
      · exact ⟨lower, positive⟩
      · have later := ih rest member
        omega

theorem Above.pairwise (above : Above low blocks) :
    blocks.Pairwise fun block other => block.1 + block.2 < other.1 := by
  induction blocks generalizing low with
  | nil => exact .nil
  | cons first blocks ih =>
      refine List.pairwise_cons.mpr ⟨fun other member => ?_, ih above.2.2⟩
      exact (above.2.2.mem member).1

theorem Above.sorted (above : Above low blocks) :
    (low :: blocks.map Prod.fst).Pairwise (· < ·) := by
  induction blocks generalizing low with
  | nil => exact List.pairwise_singleton _ _
  | cons first blocks ih =>
      have sorted := ih above.2.2
      refine List.pairwise_cons.mpr ⟨?_, ?_⟩
      · intro address member
        obtain ⟨block, among, rfl⟩ := List.mem_map.mp member
        exact (above.mem among).1
      · refine List.pairwise_cons.mpr ⟨?_, (List.pairwise_cons.mp sorted).2⟩
        intro address member
        have later := (List.pairwise_cons.mp sorted).1 address member
        omega

theorem Above.nodup (above : Above low blocks) : (low :: blocks.map Prod.fst).Nodup :=
  above.sorted.imp fun lt => Nat.ne_of_lt lt

theorem Above.length_le {top : ℕ} (above : Above low blocks) (lowest : low ≤ top)
    (ends : ∀ block ∈ blocks, block.1 + block.2 ≤ top) : blocks.length + low ≤ top := by
  induction blocks generalizing low with
  | nil =>
      rw [List.length_nil]
      omega
  | cons first blocks ih =>
      obtain ⟨lower, positive, rest⟩ := above
      obtain ⟨firstEnd, ends⟩ := List.forall_mem_cons.mp ends
      have shorter := ih rest firstEnd ends
      rw [List.length_cons]
      omega

/-- A block that is apart from all free ones has its place among them. -/
theorem Above.split (above : Above low blocks)
    (apart : ∀ block ∈ blocks, Apart block other) :
    ∃ left right, blocks = left ++ right ∧ (∀ block ∈ left, block.1 + block.2 ≤ other.1) ∧
      ∀ block ∈ right, other.1 + other.2 ≤ block.1 := by
  induction blocks generalizing low with
  | nil => exact ⟨[], [], rfl, by simp, by simp⟩
  | cons first blocks ih =>
      rcases apart first List.mem_cons_self with before | after
      · obtain ⟨left, right, rfl, lefts, rights⟩ :=
          ih above.2.2 fun block member => apart block (List.mem_cons_of_mem _ member)
        exact ⟨first :: left, right, rfl, List.forall_mem_cons.mpr ⟨before, lefts⟩, rights⟩
      · refine ⟨[], first :: blocks, rfl, by simp, List.forall_mem_cons.mpr ⟨after, ?_⟩⟩
        intro block member
        have later := (above.2.2.mem member).1
        omega

end Blocks

section Rings

variable {next : ℕ → ℕ} {first last target node : ℕ} {nodes : List ℕ}

/-- In a sorted path every link but the last goes up. -/
theorem path_up (path : Path next first nodes last) (sorted : (first :: nodes).Pairwise (· < ·))
    (member : node ∈ first :: nodes) (other : node ≠ last) :
    next node ∈ nodes ∧ node < next node := by
  induction nodes generalizing first with
  | nil =>
      rw [List.mem_singleton.mp member] at other
      exact absurd path other
  | cons second nodes ih =>
      obtain ⟨link, rest⟩ := path
      obtain ⟨lower, sorted⟩ := List.pairwise_cons.mp sorted
      rcases List.mem_cons.mp member with rfl | member
      · rw [link]
        exact ⟨List.mem_cons_self, lower second List.mem_cons_self⟩
      · obtain ⟨inside, up⟩ := ih rest sorted member
        exact ⟨List.mem_cons_of_mem _ inside, up⟩

theorem leads_up (leads : Leads next first nodes target)
    (sorted : (first :: nodes).Pairwise (· < ·)) (member : node ∈ first :: nodes) :
    (next node ∈ nodes ∧ node < next node) ∨ next node = target := by
  induction nodes generalizing first with
  | nil =>
      rw [List.mem_singleton.mp member]
      exact .inr leads
  | cons second nodes ih =>
      obtain ⟨link, rest⟩ := leads
      obtain ⟨lower, sorted⟩ := List.pairwise_cons.mp sorted
      rcases List.mem_cons.mp member with rfl | member
      · rw [link]
        exact .inl ⟨List.mem_cons_self, lower second List.mem_cons_self⟩
      · refine (ih rest sorted member).imp_left fun up => ?_
        exact ⟨List.mem_cons_of_mem _ up.1, up.2⟩

end Rings

section List

structure FreeList (base : ℕ) (heap : Heap) (blocks : List (ℕ × ℕ)) : Prop where
  ring : IsRing (fun p => (heap.header p).ptr) base (blocks.map Prod.fst)
  above : Above base blocks
  baseSize : (heap.header base).size = 0
  sizes : ∀ block ∈ blocks, (heap.header block.1).size = block.2
  freep : heap.freep ∈ base :: blocks.map Prod.fst

variable {base p : ℕ} {heap heap' : Heap} {blocks left right : List (ℕ × ℕ)} {block : ℕ × ℕ}

theorem FreeList.congr (list : FreeList base heap blocks)
    (same : ∀ node ∈ base :: blocks.map Prod.fst, heap'.header node = heap.header node)
    (freep : heap'.freep = heap.freep) : FreeList base heap' blocks := by
  obtain ⟨sameBase, sameBlocks⟩ := List.forall_mem_cons.mp same
  refine ⟨?_, list.above, ?_, ?_, ?_⟩
  · refine Leads.congr list.ring (congrArg Header.ptr sameBase) ?_
    exact fun node member => congrArg Header.ptr (sameBlocks node member)
  · rw [sameBase]
    exact list.baseSize
  · intro block member
    rw [sameBlocks block.1 (List.mem_map_of_mem member)]
    exact list.sizes block member
  · rw [freep]
    exact list.freep

/-- Where the list splits around a block that is not in it. -/
structure Gap (base : ℕ) (heap : Heap) (left right : List (ℕ × ℕ)) (p : ℕ) (block : ℕ × ℕ) :
    Prop where
  list : FreeList base heap (left ++ right)
  path : Path (fun p => (heap.header p).ptr) base (left.map Prod.fst) p
  leads : Leads (fun p => (heap.header p).ptr) p (right.map Prod.fst) base
  low : base < block.1
  positive : 0 < block.2
  lefts : ∀ other ∈ left, other.1 + other.2 ≤ block.1
  rights : ∀ other ∈ right, block.1 + block.2 ≤ other.1

theorem FreeList.gap (list : FreeList base heap blocks) (low : base < block.1)
    (positive : 0 < block.2) (apart : ∀ other ∈ blocks, Apart other block) :
    ∃ left right p, blocks = left ++ right ∧ Gap base heap left right p block := by
  obtain ⟨left, right, rfl, lefts, rights⟩ := list.above.split apart
  have ring := list.ring
  rw [List.map_append] at ring
  obtain ⟨p, path, leads⟩ := leads_append.mp ring
  exact ⟨left, right, p, rfl, list, path, leads, low, positive, lefts, rights⟩

/-- The addresses before the gap are below the block. -/
theorem Gap.before (gap : Gap base heap left right p block) {node : ℕ}
    (member : node ∈ base :: left.map Prod.fst) : node < block.1 := by
  rcases List.mem_cons.mp member with rfl | member
  · exact gap.low
  · obtain ⟨other, among, rfl⟩ := List.mem_map.mp member
    have positive := (gap.list.above.mem (List.mem_append_left right among)).2
    have ends := gap.lefts other among
    omega

theorem Gap.after (gap : Gap base heap left right p block) {node : ℕ}
    (member : node ∈ right.map Prod.fst) : block.1 < node := by
  obtain ⟨other, among, rfl⟩ := List.mem_map.mp member
  have starts := gap.rights other among
  have positive := gap.positive
  omega

/-- The loop of `free` stops at the last address before the block, and only there. -/
theorem Gap.stops_iff (gap : Gap base heap left right p block) {node : ℕ}
    (member : node ∈ base :: (left ++ right).map Prod.fst) :
    stops heap block.1 node = true ↔ node = p := by
  have sorted := gap.list.above.sorted
  rw [List.map_append, ← List.cons_append] at sorted member
  obtain ⟨leftSorted, rightSorted, across⟩ := List.pairwise_append.mp sorted
  have pMember := gap.path.last_mem
  have pSorted : (p :: right.map Prod.fst).Pairwise (· < ·) :=
    List.pairwise_cons.mpr ⟨across p pMember, rightSorted⟩
  have low := gap.low
  simp only [stops, decide_eq_true_eq]
  constructor
  · intro stopped
    by_contra other
    rcases List.mem_append.mp member with earlier | later
    · obtain ⟨inside, up⟩ := path_up gap.path leftSorted earlier other
      have below := gap.before (List.mem_cons_of_mem _ inside)
      omega
    · have above := gap.after later
      rcases leads_up gap.leads pSorted (List.mem_cons_of_mem _ later) with up | back
      · omega
      · omega
  · rintro rfl
    have below := gap.before pMember
    rcases leads_up gap.leads pSorted List.mem_cons_self with ⟨inside, up⟩ | back
    · have above := gap.after inside
      omega
    · have notBelow : base ≤ node := by
        rcases List.mem_cons.mp pMember with same | member
        · omega
        · exact Nat.le_of_lt ((List.pairwise_cons.mp leftSorted).1 node member)
      omega

theorem Gap.seek (gap : Gap base heap left right p block) {fuel : ℕ}
    (enough : (left ++ right).length < fuel) :
    seek (fun p => (heap.header p).ptr) (stops heap block.1) fuel heap.freep = some p := by
  refine gap.list.ring.seek gap.list.freep ?_ (fun node member => gap.stops_iff member)
    (by rwa [List.length_map])
  have member := gap.path.last_mem
  rw [List.map_append]
  rw [List.mem_cons] at member ⊢
  exact member.imp_right (List.mem_append_left _)

end List

end Ence360.Xv6.Umalloc
