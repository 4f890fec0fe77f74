import Ence360.Xv6.UmallocListProperties

/-!
# Blocks that are given back

`free` puts a block into its place in the list and joins it with the free memory on
both sides of it.
-/

set_option autoImplicit false

namespace Ence360.Xv6.Umalloc

open Semantics

section Units

/-- The block that the unit is in is one of `blocks`. -/
def Covered (blocks : List (ℕ × ℕ)) (unit : ℕ) : Prop :=
  ∃ block ∈ blocks, block.1 ≤ unit ∧ unit < block.1 + block.2

variable {unit : ℕ} {block : ℕ × ℕ} {blocks others : List (ℕ × ℕ)}

@[simp] theorem covered_nil : ¬ Covered [] unit := by
  simp [Covered]

@[simp] theorem covered_cons : Covered (block :: blocks) unit ↔
    (block.1 ≤ unit ∧ unit < block.1 + block.2) ∨ Covered blocks unit := by
  simp [Covered]

@[simp] theorem covered_append : Covered (blocks ++ others) unit ↔
    Covered blocks unit ∨ Covered others unit := by
  simp [Covered, or_and_right, exists_or]

theorem covered_start (positive : 0 < block.2) (member : block ∈ blocks) :
    Covered blocks block.1 :=
  ⟨block, member, Nat.le_refl _, by omega⟩

/-- Blocks that cover no more than others reach no further. -/
theorem end_le_of_covered {top : ℕ} (member : block ∈ blocks) (positive : 0 < block.2)
    (covers : ∀ unit, Covered blocks unit → Covered others unit)
    (ends : ∀ other ∈ others, other.1 + other.2 ≤ top) : block.1 + block.2 ≤ top := by
  have last : Covered blocks (block.1 + block.2 - 1) := ⟨block, member, by omega, by omega⟩
  obtain ⟨other, among, -, above⟩ := covers _ last
  have bound := ends other among
  omega

/-- Free memory that is not interrupted is one block. -/
theorem Above.within {low : ℕ} (above : Above low blocks) (positive : 0 < block.2)
    (covers : ∀ unit, Covered [block] unit → Covered blocks unit) :
    ∃ whole ∈ blocks, block.2 ≤ whole.2 := by
  obtain ⟨whole, member, starts, reaches⟩ := covers block.1 (covered_start positive (.head _))
  refine ⟨whole, member, ?_⟩
  by_contra short
  have next : Covered [block] (whole.1 + whole.2) :=
    ⟨block, .head _, by omega, by omega⟩
  obtain ⟨other, among, otherStarts, otherReaches⟩ := covers _ next
  obtain ⟨before, after, rfl⟩ := List.append_of_mem member
  obtain ⟨-, later, earlier⟩ := List.pairwise_append.mp above.pairwise
  rcases List.mem_append.mp among with sooner | among
  · have ends := earlier other sooner whole List.mem_cons_self
    omega
  · rcases List.mem_cons.mp among with rfl | among
    · omega
    · have begins := (List.pairwise_cons.mp later).1 other among
      omega

end Units

section Join

/-- The header of `p` once the list goes on at `q`, which is joined with `p` when it
is next to it. -/
def joined (heap : Heap) (p q : ℕ) : Header :=
  if p + (heap.header p).size = q then
    { ptr := (heap.header q).ptr, size := (heap.header p).size + (heap.header q).size }
  else { ptr := q, size := (heap.header p).size }

/-- `free` joins the block with what is behind it, then what is before it with the
block. -/
theorem insert_eq {heap : Heap} {bp p : ℕ} (distinct : p ≠ bp)
    (other : (heap.header p).ptr ≠ bp) :
    insert heap bp p =
      { (heap.set bp (joined heap bp (heap.header p).ptr)).set p
          (joined (heap.set bp (joined heap bp (heap.header p).ptr)) p bp) with freep := p } := by
  have first : (if bp + (heap.header bp).size = (heap.header p).ptr then
      (heap.setSize bp ((heap.header bp).size + (heap.header (heap.header p).ptr).size)).setPtr bp
        ((heap.setSize bp ((heap.header bp).size +
          (heap.header (heap.header p).ptr).size)).header (heap.header p).ptr).ptr
      else heap.setPtr bp (heap.header p).ptr) =
      heap.set bp (joined heap bp (heap.header p).ptr) := by
    unfold joined
    split
    · simp [Heap.setSize, Heap.setPtr, Heap.set, Function.update_of_ne other]
    · rfl
  have second (heap : Heap) : (if p + (heap.header p).size = bp then
      (heap.setSize p ((heap.header p).size + (heap.header bp).size)).setPtr p
        ((heap.setSize p ((heap.header p).size + (heap.header bp).size)).header bp).ptr
      else heap.setPtr p bp) = heap.set p (joined heap p bp) := by
    unfold joined
    split
    · simp [Heap.setSize, Heap.setPtr, Heap.set, Function.update_of_ne distinct.symm]
    · rfl
  simp only [insert, first, second]

variable {base : ℕ} {heap : Heap} {block next : ℕ × ℕ} {rest : List (ℕ × ℕ)}

/-- The list from one of its blocks on. -/
structure Tail (base : ℕ) (heap : Heap) (block : ℕ × ℕ) (rest : List (ℕ × ℕ)) : Prop where
  leads : Leads (fun p => (heap.header p).ptr) block.1 (rest.map Prod.fst) base
  sizes : ∀ other ∈ block :: rest, (heap.header other.1).size = other.2
  low : base < block.1
  positive : 0 < block.2
  above : Above (block.1 + block.2) rest

theorem Tail.higher (tail : Tail base heap block rest) {other : ℕ × ℕ}
    (member : other ∈ block :: rest) : block.1 ≤ other.1 := by
  rcases List.mem_cons.mp member with rfl | member
  · exact Nat.le_refl _
  · have later := (tail.above.mem member).1
    omega

/-- The links and sizes of a tail are kept when only a lower header is changed. -/
theorem Tail.set_of_lt (tail : Tail base heap block rest) {address : ℕ} {header : Header}
    (lower : address < block.1) : Tail base (heap.set address header) block rest := by
  have same : ∀ other ∈ block :: rest,
      (heap.set address header).header other.1 = heap.header other.1 := by
    intro other member
    have higher := tail.higher member
    exact Function.update_of_ne (by omega) _ _
  refine ⟨?_, ?_, tail.low, tail.positive, tail.above⟩
  · refine tail.leads.congr (congrArg Header.ptr (same block List.mem_cons_self)) ?_
    intro node member
    obtain ⟨other, among, rfl⟩ := List.mem_map.mp member
    exact congrArg Header.ptr (same other (List.mem_cons_of_mem _ among))
  · intro other member
    rw [same other member]
    exact tail.sizes other member

/-- One block more at the front of a tail. -/
theorem Tail.join (tail : Tail base heap next rest) (low : base < block.1)
    (positive : 0 < block.2) (size : (heap.header block.1).size = block.2)
    (before : block.1 + block.2 ≤ next.1) :
    ∃ size rest', Tail base (heap.set block.1 (joined heap block.1 next.1)) (block.1, size) rest' ∧
      ∀ unit, Covered ((block.1, size) :: rest') unit ↔ Covered (block :: next :: rest) unit := by
  have kept : Tail base (heap.set block.1 (joined heap block.1 next.1)) next rest :=
    tail.set_of_lt (by omega)
  have nextSize := tail.sizes next List.mem_cons_self
  have here : (heap.set block.1 (joined heap block.1 next.1)).header block.1 =
      joined heap block.1 next.1 := Function.update_self _ _ _
  by_cases adjacent : block.1 + block.2 = next.1
  · have merged : joined heap block.1 next.1 =
        { ptr := (heap.header next.1).ptr, size := block.2 + next.2 } := by
      rw [joined, size, if_pos adjacent, nextSize]
    refine ⟨block.2 + next.2, rest, ⟨?_, ?_, low, ?_, ?_⟩, ?_⟩
    · refine tail.leads.congr ?_ ?_
      · show ((heap.set block.1 _).header block.1).ptr = _
        rw [here, merged]
      · intro node member
        obtain ⟨other, among, rfl⟩ := List.mem_map.mp member
        have higher := (tail.above.mem among).1
        exact congrArg Header.ptr (Function.update_of_ne (by omega) _ _)
    · refine List.forall_mem_cons.mpr ⟨?_, ?_⟩
      · rw [here, merged]
      · exact fun other member => kept.sizes other (List.mem_cons_of_mem _ member)
    · show 0 < block.2 + next.2
      omega
    · show Above (block.1 + (block.2 + next.2)) rest
      rw [← Nat.add_assoc, adjacent]
      exact tail.above
    · intro unit
      have nextPositive := tail.positive
      simp only [covered_cons, ← or_assoc]
      refine or_congr_left ?_
      omega
  · have linked : joined heap block.1 next.1 = { ptr := next.1, size := block.2 } := by
      rw [joined, size, if_neg adjacent]
    refine ⟨block.2, next :: rest, ⟨?_, ?_, low, positive, ?_⟩, fun unit => .rfl⟩
    · refine ⟨?_, kept.leads⟩
      show ((heap.set block.1 _).header block.1).ptr = _
      rw [here, linked]
    · refine List.forall_mem_cons.mpr ⟨?_, kept.sizes⟩
      rw [here, linked]
    · exact ⟨show block.1 + block.2 < next.1 by omega, tail.positive, tail.above⟩

end Join

section Insert

variable {base p : ℕ} {heap : Heap} {block last : ℕ × ℕ} {left right rest : List (ℕ × ℕ)}

/-- The block is joined with what is behind it. -/
theorem Gap.join_right (gap : Gap base heap left right p block)
    (size : (heap.header block.1).size = block.2) :
    ∃ size rest,
      Tail base (heap.set block.1 (joined heap block.1 (heap.header p).ptr)) (block.1, size) rest ∧
      ∀ unit, Covered ((block.1, size) :: rest) unit ↔ Covered (block :: right) unit := by
  have low := gap.low
  cases right with
  | nil =>
      have atBase : (heap.header p).ptr = base := gap.leads
      have here : (heap.set block.1 (joined heap block.1 base)).header block.1 =
          { ptr := base, size := block.2 } := by
        refine (Function.update_self _ _ _).trans ?_
        rw [joined, size, if_neg (by omega)]
      rw [atBase]
      refine ⟨block.2, [], ⟨?_, ?_, low, gap.positive, trivial⟩, fun unit => .rfl⟩
      · exact congrArg Header.ptr here
      · exact List.forall_mem_singleton.mpr (congrArg Header.size here)
  | cons next right =>
      obtain ⟨link, leads⟩ := gap.leads
      have above := (above_append.mp gap.list.above).2
      have nextLow : base < next.1 :=
        (gap.list.above.mem (List.mem_append_right _ List.mem_cons_self)).1
      have tail : Tail base heap next right :=
        ⟨leads, fun other member => gap.list.sizes other (List.mem_append_right _ member), nextLow,
          above.2.1, above.2.2⟩
      rw [show (heap.header p).ptr = next.1 from link]
      exact tail.join low gap.positive size (gap.rights next List.mem_cons_self)

/-- The path to `p` is kept when only `p` and the block are changed. -/
theorem Gap.path_kept (gap : Gap base heap left right p block) (first second : Header) :
    Path (fun node => (((heap.set block.1 first).set p second).header node).ptr) base
      (left.map Prod.fst) p := by
  have distinct := gap.list.above.nodup
  rw [List.map_append, ← List.cons_append] at distinct
  refine gap.path.congr (List.nodup_append.mp distinct).1 ?_
  intro node member other
  have below := gap.before member
  have same : ((heap.set block.1 first).set p second).header node = heap.header node :=
    (Function.update_of_ne other _ _).trans (Function.update_of_ne (by omega) _ _)
  exact congrArg Header.ptr same

theorem Gap.below (gap : Gap base heap left right p block) : p < block.1 :=
  gap.before gap.path.last_mem

theorem Gap.insert_eq (gap : Gap base heap left right p block) :
    insert heap block.1 p =
      { (heap.set block.1 (joined heap block.1 (heap.header p).ptr)).set p
          (joined (heap.set block.1 (joined heap block.1 (heap.header p).ptr)) p block.1) with
        freep := p } := by
  refine Umalloc.insert_eq (Nat.ne_of_lt gap.below) ?_
  have low := gap.low
  have leads := gap.leads
  cases right with
  | nil => exact Nat.ne_of_lt (lt_of_eq_of_lt leads low)
  | cons next right =>
      have after := gap.after (List.mem_cons_self (a := next.1) (l := right.map Prod.fst))
      exact fun same => Nat.ne_of_gt after (leads.1.symm.trans same)

/-- The block comes first in the list. -/
theorem Gap.insert_first (gap : Gap base heap [] right p block)
    (size : (heap.header block.1).size = block.2) :
    ∃ blocks, FreeList base (insert heap block.1 p) blocks ∧
      ∀ unit, Covered blocks unit ↔ Covered (block :: right) unit := by
  have low := gap.low
  obtain rfl : base = p := gap.path
  rw [gap.insert_eq]
  obtain ⟨size, rest, tail, covers⟩ := gap.join_right size
  generalize heldEq : heap.set block.1 (joined heap block.1 (heap.header base).ptr) = held at tail ⊢
  have baseSize : (held.header base).size = 0 := by
    rw [← heldEq, ← gap.list.baseSize]
    exact congrArg Header.size (Function.update_of_ne (by omega) _ _)
  have kept : Tail base (held.set base (joined held base block.1)) (block.1, size) rest :=
    tail.set_of_lt low
  have here : (held.set base (joined held base block.1)).header base =
      { ptr := block.1, size := 0 } := by
    refine (Function.update_self _ _ _).trans ?_
    rw [joined, baseSize, if_neg (by omega)]
  refine ⟨(block.1, size) :: rest, ⟨⟨?_, kept.leads⟩, ?_, ?_, kept.sizes, List.mem_cons_self⟩,
    covers⟩
  · exact congrArg Header.ptr here
  · exact ⟨low, tail.positive, tail.above⟩
  · exact congrArg Header.size here

/-- The block comes after another one. -/
theorem Gap.insert_after (gap : Gap base heap (left ++ [last]) right p block)
    (size : (heap.header block.1).size = block.2) :
    ∃ blocks, FreeList base (insert heap block.1 p) blocks ∧
      ∀ unit, Covered blocks unit ↔ Covered (block :: (left ++ [last] ++ right)) unit := by
  have below := gap.below
  have lastMember : last ∈ left ++ [last] := List.mem_append_right _ List.mem_cons_self
  obtain ⟨lastLow, lastPositive⟩ := gap.list.above.mem (List.mem_append_left right lastMember)
  have leftAbove := (above_append.mp gap.list.above).1
  have lastAt : p = last.1 := by
    have path := gap.path
    rw [List.map_append] at path
    exact path.last_eq
  subst lastAt
  rw [gap.insert_eq]
  have pathKept := gap.path_kept (joined heap block.1 (heap.header last.1).ptr)
  obtain ⟨size, rest, tail, covers⟩ := gap.join_right size
  have lower : ∀ node header, node < last.1 →
      ((heap.set block.1 (joined heap block.1 (heap.header last.1).ptr)).set last.1
        header).header node = heap.header node := by
    intro node header less
    exact (Function.update_of_ne (by omega) _ _).trans (Function.update_of_ne (by omega) _ _)
  generalize heldEq : heap.set block.1 (joined heap block.1 (heap.header last.1).ptr) = held
    at tail pathKept lower ⊢
  have lastSize : (held.header last.1).size = last.2 := by
    rw [← heldEq, ← gap.list.sizes last (List.mem_append_left right lastMember)]
    exact congrArg Header.size (Function.update_of_ne (by omega) _ _)
  obtain ⟨total, rest', tail', covers'⟩ :=
    tail.join lastLow lastPositive lastSize (gap.lefts last lastMember)
  have split : (left ++ (last.1, total) :: rest').map Prod.fst =
      (left ++ [last]).map Prod.fst ++ rest'.map Prod.fst := by
    simp
  have leftBelow : ∀ other ∈ left, other.1 < last.1 := by
    intro other member
    have sorted := (List.pairwise_append.mp leftAbove.pairwise).2.2
    have ends := sorted other member last List.mem_cons_self
    omega
  refine ⟨left ++ (last.1, total) :: rest', ⟨?_, ?_, ?_, ?_, ?_⟩, ?_⟩
  · rw [split]
    exact leads_append.mpr ⟨_, pathKept _, tail'.leads⟩
  · obtain ⟨leftAbove, lastAbove⟩ := above_append.mp leftAbove
    exact above_append.mpr ⟨leftAbove, lastAbove.1, tail'.positive, tail'.above⟩
  · refine Eq.trans ?_ gap.list.baseSize
    exact congrArg Header.size (lower base _ lastLow)
  · intro other member
    rcases List.mem_append.mp member with earlier | later
    · refine Eq.trans (congrArg Header.size (lower other.1 _ (leftBelow other earlier))) ?_
      exact gap.list.sizes other (List.mem_append_left _ (List.mem_append_left _ earlier))
    · exact tail'.sizes other later
  · rw [split]
    exact List.mem_cons_of_mem _ (List.mem_append_left _ (List.mem_map_of_mem lastMember))
  · intro unit
    have both := covers' unit
    have held := covers unit
    simp only [covered_append, covered_cons, covered_nil, or_false] at both held ⊢
    rw [both, held]
    simp only [or_assoc, or_left_comm]

theorem Gap.insert (gap : Gap base heap left right p block)
    (size : (heap.header block.1).size = block.2) :
    ∃ blocks, FreeList base (insert heap block.1 p) blocks ∧
      ∀ unit, Covered blocks unit ↔ Covered (block :: (left ++ right)) unit := by
  rcases left.eq_nil_or_concat' with rfl | ⟨left, last, rfl⟩
  · exact gap.insert_first size
  · exact gap.insert_after size

end Insert

section Free

/-- The two heaps differ in these blocks and the static header only. -/
def SameOutside (base : ℕ) (blocks : List (ℕ × ℕ)) (heap heap' : Heap) : Prop :=
  ∀ unit, unit ≠ base → ¬ Covered blocks unit → heap'.header unit = heap.header unit

variable {base p fuel : ℕ} {heap heap' : Heap} {block : ℕ × ℕ} {blocks left right : List (ℕ × ℕ)}

theorem FreeList.covered (list : FreeList base heap blocks) {node : ℕ}
    (member : node ∈ base :: blocks.map Prod.fst) (other : node ≠ base) :
    Covered blocks node := by
  obtain ⟨block, among, rfl⟩ := List.mem_map.mp ((List.mem_cons.mp member).resolve_left other)
  exact covered_start (list.above.mem among).2 among

theorem Gap.sameOutside (gap : Gap base heap left right p block) :
    SameOutside base (block :: (left ++ right)) heap (Umalloc.insert heap block.1 p) := by
  intro unit notBase outside
  rw [gap.insert_eq]
  have notBlock : unit ≠ block.1 := by
    rintro rfl
    exact outside (covered_start gap.positive List.mem_cons_self)
  have notP : unit ≠ p := by
    rintro rfl
    have member : unit ∈ base :: (left ++ right).map Prod.fst := by
      rw [List.map_append, ← List.cons_append]
      exact List.mem_append_left _ gap.path.last_mem
    exact outside (covered_cons.mpr (.inr (gap.list.covered member notBase)))
  exact (Function.update_of_ne notP _ _).trans (Function.update_of_ne notBlock _ _)

/-- A block that is given back is in the list again, and nothing else has changed. -/
theorem FreeList.free (list : FreeList base heap blocks) (low : base < block.1)
    (positive : 0 < block.2) (size : (heap.header block.1).size = block.2)
    (apart : ∀ other ∈ blocks, Apart other block) (enough : blocks.length < fuel) :
    ∃ heap' blocks', free fuel heap (block.1 + 1) = some heap' ∧ FreeList base heap' blocks' ∧
      heap'.given = heap.given ∧ SameOutside base (block :: blocks) heap heap' ∧
      ∀ unit, Covered blocks' unit ↔ Covered (block :: blocks) unit := by
  obtain ⟨left, right, p, rfl, gap⟩ := list.gap low positive apart
  obtain ⟨blocks', list', covers⟩ := gap.insert size
  refine ⟨_, blocks', ?_, list', ?_, gap.sameOutside, covers⟩
  · rw [Umalloc.free, Nat.add_sub_cancel, gap.seek enough]
    rfl
  · rw [gap.insert_eq]
    rfl

theorem free_mono {more ap : ℕ} (le : fuel ≤ more) (result : free fuel heap ap = some heap') :
    free more heap ap = some heap' := by
  obtain ⟨p, found, rfl⟩ := Option.map_eq_some_iff.mp result
  rw [free, seek_mono le found]
  rfl

end Free

end Ence360.Xv6.Umalloc
