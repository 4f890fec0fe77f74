import Ence360.Xv6.UmallocFreeProperties

/-!
# Blocks that are handed out

`malloc` takes a block that is large enough from the list, from its end when it is
too large, and asks for more memory only when there is none.
-/

set_option autoImplicit false

namespace Ence360.Xv6.Umalloc

open Semantics

section Take

namespace Heap

theorem size_setPtr (heap : Heap) (address ptr node : ℕ) :
    ((heap.setPtr address ptr).header node).size = (heap.header node).size := by
  by_cases same : node = address
  · simp [setPtr, set, same]
  · exact congrArg Header.size (Function.update_of_ne same _ _)

theorem ptr_setSize (heap : Heap) (address size node : ℕ) :
    ((heap.setSize address size).header node).ptr = (heap.header node).ptr := by
  by_cases same : node = address
  · simp [setSize, set, same]
  · exact congrArg Header.ptr (Function.update_of_ne same _ _)

theorem ptr_setPtr_self (heap : Heap) (address ptr : ℕ) :
    ((heap.setPtr address ptr).header address).ptr = ptr := by
  simp [setPtr, set]

theorem size_setSize_self (heap : Heap) (address size : ℕ) :
    ((heap.setSize address size).header address).size = size := by
  simp [setSize, set]

end Heap

/-- A block of `n` headers at `start` has been taken from the free ones. -/
structure Taken (base : ℕ) (heap : Heap) (blocks : List (ℕ × ℕ)) (n start : ℕ) (heap' : Heap)
    (blocks' : List (ℕ × ℕ)) : Prop where
  list : FreeList base heap' blocks'
  low : base < start
  size : (heap'.header start).size = n
  apart : ∀ other ∈ blocks', Apart other (start, n)
  outside : SameOutside base blocks heap heap'
  covers : ∀ unit, Covered ((start, n) :: blocks') unit ↔ Covered blocks unit

variable {base n prev : ℕ} {heap : Heap} {block other : ℕ × ℕ} {before after : List (ℕ × ℕ)}

/-- The blocks of the list that are not `block` are apart from it. -/
theorem Above.apart_middle (above : Above base (before ++ block :: after))
    (member : other ∈ before ++ after) : Apart other block := by
  obtain ⟨-, later, earlier⟩ := List.pairwise_append.mp above.pairwise
  rcases List.mem_append.mp member with member | member
  · exact .inl (Nat.le_of_lt (earlier other member block List.mem_cons_self))
  · exact .inr (Nat.le_of_lt ((List.pairwise_cons.mp later).1 other member))

/-- The whole block is used, and the list goes on behind it. -/
theorem FreeList.take_whole (list : FreeList base heap (before ++ block :: after))
    (previous : prev ∈ base :: (before ++ block :: after).map Prod.fst)
    (link : (heap.header prev).ptr = block.1) :
    Taken base heap (before ++ block :: after) block.2 block.1
      { heap.setPtr prev (heap.header block.1).ptr with freep := prev } (before ++ after) := by
  have member : block ∈ before ++ block :: after :=
    List.mem_append_right _ List.mem_cons_self
  have distinct := list.above.nodup
  have ring := list.ring
  rw [List.map_append, List.map_cons] at distinct ring previous
  have path := ring.predecessor distinct previous link
  obtain ⟨_, -, -, leads⟩ := leads_append.mp ring
  have prevMember := path.last_mem
  rw [← List.cons_append] at distinct
  obtain ⟨beforeDistinct, afterDistinct, across⟩ := List.nodup_append.mp distinct
  obtain ⟨beforeAbove, blockLow, -, afterAbove⟩ := above_append.mp list.above
  obtain ⟨low, positive⟩ := list.above.mem member
  refine ⟨⟨?_, ?_, ?_, ?_, ?_⟩, low, ?_, fun other => list.above.apart_middle, ?_, ?_⟩
  · rw [List.map_append]
    refine leads_append.mpr ⟨prev, path.congr beforeDistinct ?_, leads.congr ?_ ?_⟩
    · exact fun node _ other => congrArg Header.ptr (Function.update_of_ne other _ _)
    · exact Heap.ptr_setPtr_self ..
    · intro node later
      refine congrArg Header.ptr (Function.update_of_ne ?_ _ _)
      exact (across prev prevMember node (List.mem_cons_of_mem _ later)).symm
  · exact above_append.mpr ⟨beforeAbove, afterAbove.mono (by omega)⟩
  · exact (Heap.size_setPtr ..).trans list.baseSize
  · intro other among
    refine (Heap.size_setPtr ..).trans (list.sizes other ?_)
    rcases List.mem_append.mp among with earlier | later
    · exact List.mem_append_left _ earlier
    · exact List.mem_append_right _ (List.mem_cons_of_mem _ later)
  · rw [List.map_append, ← List.cons_append]
    exact List.mem_append_left _ prevMember
  · exact (Heap.size_setPtr ..).trans (list.sizes block member)
  · intro unit notBase uncovered
    refine Function.update_of_ne ?_ _ _
    rintro rfl
    refine uncovered (list.covered ?_ notBase)
    rw [List.map_append, List.map_cons]
    exact previous
  · intro unit
    simp only [covered_append, covered_cons, or_left_comm]

/-- The end of the block is used. -/
theorem FreeList.take_part (list : FreeList base heap (before ++ block :: after))
    (less : n < block.2) (positive : 0 < n)
    (previous : prev ∈ base :: (before ++ block :: after).map Prod.fst) :
    Taken base heap (before ++ block :: after) n (block.1 + (block.2 - n))
      { (heap.setSize block.1 (block.2 - n)).setSize (block.1 + (block.2 - n)) n with
        freep := prev }
      (before ++ (block.1, block.2 - n) :: after) := by
  have member : block ∈ before ++ block :: after :=
    List.mem_append_right _ List.mem_cons_self
  obtain ⟨beforeAbove, blockLow, -, afterAbove⟩ := above_append.mp list.above
  obtain ⟨low, -⟩ := list.above.mem member
  have sameNodes : (before ++ (block.1, block.2 - n) :: after).map Prod.fst =
      (before ++ block :: after).map Prod.fst := by
    simp
  obtain ⟨-, blockFirst, across⟩ := List.pairwise_append.mp list.above.pairwise
  have fromBefore : ∀ other ∈ before, other.1 + other.2 < block.1 := fun other earlier =>
    across other earlier block List.mem_cons_self
  have toAfter : ∀ other ∈ after, block.1 + block.2 < other.1 :=
    (List.pairwise_cons.mp blockFirst).1
  have others : ∀ node, node ≠ block.1 → node ≠ block.1 + (block.2 - n) →
      ((heap.setSize block.1 (block.2 - n)).setSize (block.1 + (block.2 - n)) n).header node =
        heap.header node := by
    intro node first second
    exact (Function.update_of_ne second _ _).trans (Function.update_of_ne first _ _)
  refine ⟨⟨?_, ?_, ?_, ?_, ?_⟩, by omega, ?_, ?_, ?_, ?_⟩
  · rw [sameNodes]
    refine Leads.congr list.ring ?_ ?_
    · simp only [Heap.ptr_setSize]
    · simp only [Heap.ptr_setSize, implies_true]
  · exact above_append.mpr ⟨beforeAbove, blockLow, show 0 < block.2 - n by omega,
      afterAbove.mono (show block.1 + (block.2 - n) ≤ block.1 + block.2 by omega)⟩
  · refine Eq.trans (congrArg Header.size (others base ?_ ?_)) list.baseSize
    · omega
    · omega
  · intro other among
    rcases List.mem_append.mp among with earlier | later
    · have ends := fromBefore other earlier
      refine Eq.trans (congrArg Header.size (others other.1 ?_ ?_)) (list.sizes other ?_)
      · omega
      · omega
      · exact List.mem_append_left _ earlier
    · rcases List.mem_cons.mp later with rfl | later
      · refine Eq.trans (congrArg Header.size (Function.update_of_ne ?_ _ _)) ?_
        · show block.1 ≠ block.1 + (block.2 - n)
          omega
        · exact Heap.size_setSize_self ..
      · have starts := toAfter other later
        refine Eq.trans (congrArg Header.size (others other.1 ?_ ?_)) (list.sizes other ?_)
        · omega
        · omega
        · exact List.mem_append_right _ (List.mem_cons_of_mem _ later)
  · rw [sameNodes]
    exact previous
  · exact Heap.size_setSize_self ..
  · intro other among
    rcases List.mem_append.mp among with earlier | later
    · have ends := fromBefore other earlier
      exact .inl (show other.1 + other.2 ≤ block.1 + (block.2 - n) by omega)
    · rcases List.mem_cons.mp later with rfl | later
      · exact .inl (Nat.le_refl _)
      · have starts := toAfter other later
        exact .inr (show block.1 + (block.2 - n) + n ≤ other.1 by omega)
  · intro unit notBase uncovered
    have inside : ¬ (block.1 ≤ unit ∧ unit < block.1 + block.2) := fun within =>
      uncovered ⟨block, member, within⟩
    refine others unit ?_ ?_
    · omega
    · omega
  · intro unit
    have within : (block.1 + (block.2 - n) ≤ unit ∧ unit < block.1 + (block.2 - n) + n) ∨
        (block.1 ≤ unit ∧ unit < block.1 + (block.2 - n)) ↔
        (block.1 ≤ unit ∧ unit < block.1 + block.2) := by
      omega
    simp only [covered_append, covered_cons]
    rw [or_left_comm, ← or_assoc (c := Covered after unit), within]

variable {blocks : List (ℕ × ℕ)}

theorem FreeList.take (list : FreeList base heap blocks) (member : block ∈ blocks)
    (fits : n ≤ block.2) (positive : 0 < n) (previous : prev ∈ base :: blocks.map Prod.fst)
    (link : (heap.header prev).ptr = block.1) :
    ∃ start heap' blocks', take heap n prev block.1 = (start + 1, heap') ∧
      Taken base heap blocks n start heap' blocks' ∧ heap'.given = heap.given := by
  have size := list.sizes block member
  obtain ⟨before, after, rfl⟩ := List.append_of_mem member
  by_cases whole : block.2 = n
  · subst whole
    refine ⟨block.1, _, _, ?_, list.take_whole previous link, rfl⟩
    rw [Umalloc.take, if_pos size]
  · refine ⟨block.1 + (block.2 - n), _, _, ?_, list.take_part (by omega) positive previous,
      rfl⟩
    simp only [Umalloc.take, size, if_neg whole, Heap.size_setSize_self]

end Take

section Scan

variable {n fuel more prev p : ℕ} {sbrk : Option ℕ} {heap : Heap} {nodes : List ℕ}

/-- What the loop does when it is back where it began. -/
def grow (n : ℕ) (sbrk : Option ℕ) (fuel : ℕ) (heap : Heap) : Option (ℕ × Heap) :=
  match sbrk with
  | none => some (0, heap)
  | some address => do
      let heap ← morecore fuel heap n address
      mallocLoop n sbrk fuel heap heap.freep (heap.header heap.freep).ptr

theorem mallocLoop_succ : mallocLoop n sbrk (fuel + 1) heap prev p =
    if n ≤ (heap.header p).size then some (take heap n prev p)
    else if p = heap.freep then grow n sbrk fuel heap
    else mallocLoop n sbrk fuel heap p (heap.header p).ptr := by
  cases sbrk with
  | none => rfl
  | some address => rfl

/-- The loop takes the first block that is large enough, or goes once around the
list. -/
theorem mallocLoop_scan (leads : Leads (fun p => (heap.header p).ptr) prev nodes heap.freep)
    (fresh : heap.freep ∉ nodes) (enough : nodes.length < fuel) :
    (∃ previous ∈ prev :: nodes, n ≤ (heap.header (heap.header previous).ptr).size ∧
      mallocLoop n sbrk fuel heap prev (heap.header prev).ptr =
        some (take heap n previous (heap.header previous).ptr)) ∨
    ((∀ node ∈ heap.freep :: nodes, (heap.header node).size < n) ∧
      mallocLoop n sbrk fuel heap prev (heap.header prev).ptr =
        grow n sbrk (fuel - (nodes.length + 1)) heap) := by
  induction nodes generalizing prev fuel with
  | nil =>
      obtain ⟨fuel, rfl⟩ : ∃ m, fuel = m + 1 := ⟨fuel - 1, by omega⟩
      have back : (heap.header prev).ptr = heap.freep := leads
      by_cases fits : n ≤ (heap.header (heap.header prev).ptr).size
      · refine .inl ⟨prev, List.mem_cons_self, fits, ?_⟩
        rw [mallocLoop_succ, if_pos fits]
      · refine .inr ⟨List.forall_mem_singleton.mpr ?_, ?_⟩
        · rw [← back]
          omega
        · rw [mallocLoop_succ, if_neg fits, if_pos back]
          rfl
  | cons node nodes ih =>
      obtain ⟨fuel, rfl⟩ : ∃ m, fuel = m + 1 := ⟨fuel - 1, by omega⟩
      obtain ⟨link, rest⟩ := leads
      have link : (heap.header prev).ptr = node := link
      rw [List.mem_cons, not_or] at fresh
      rw [List.length_cons] at enough
      by_cases fits : n ≤ (heap.header (heap.header prev).ptr).size
      · refine .inl ⟨prev, List.mem_cons_self, fits, ?_⟩
        rw [mallocLoop_succ, if_pos fits]
      · have goesOn : mallocLoop n sbrk (fuel + 1) heap prev (heap.header prev).ptr =
            mallocLoop n sbrk fuel heap node (heap.header node).ptr := by
          rw [mallocLoop_succ, if_neg fits, link, if_neg (Ne.symm fresh.1)]
        rw [goesOn]
        rcases @ih fuel node rest fresh.2 (by omega) with
          ⟨previous, member, found⟩ | ⟨small, result⟩
        · exact .inl ⟨previous, List.mem_cons_of_mem _ member, found⟩
        · refine .inr ⟨?_, ?_⟩
          · intro other member
            rcases List.mem_cons.mp member with rfl | member
            · exact small _ List.mem_cons_self
            · rcases List.mem_cons.mp member with rfl | member
              · rw [← link]
                omega
              · exact small other (List.mem_cons_of_mem _ member)
          · rw [result, List.length_cons, Nat.add_sub_add_right]

theorem mallocLoop_mono {result : ℕ × Heap} (le : fuel ≤ more)
    (returned : mallocLoop n sbrk fuel heap prev p = some result) :
    mallocLoop n sbrk more heap prev p = some result := by
  induction fuel generalizing more heap prev p with
  | zero => cases returned
  | succ fuel ih =>
      obtain ⟨more, rfl⟩ : ∃ m, more = m + 1 := ⟨more - 1, by omega⟩
      have le := Nat.le_of_succ_le_succ le
      rw [mallocLoop_succ] at returned ⊢
      by_cases fits : n ≤ (heap.header p).size
      · rwa [if_pos fits] at returned ⊢
      · rw [if_neg fits] at returned ⊢
        by_cases back : p = heap.freep
        · rw [if_pos back] at returned ⊢
          cases sbrk with
          | none => exact returned
          | some address =>
              obtain ⟨grown, core, rest⟩ := Option.bind_eq_some_iff.mp returned
              exact Option.bind_eq_some_iff.mpr ⟨grown, free_mono le core, ih le rest⟩
        · rw [if_neg back] at returned ⊢
          exact ih le returned

end Scan

section Malloc

variable {base n fuel top p : ℕ} {sbrk : Option ℕ} {heap : Heap} {blocks : List (ℕ × ℕ)}

theorem FreeList.scan (list : FreeList base heap blocks) (sbrk : Option ℕ) (positive : 0 < n)
    (enough : blocks.length < fuel) :
    ((∃ block ∈ blocks, n ≤ block.2) ∧ ∃ start heap' blocks',
      mallocLoop n sbrk fuel heap heap.freep (heap.header heap.freep).ptr =
        some (start + 1, heap') ∧
      Taken base heap blocks n start heap' blocks' ∧ heap'.given = heap.given) ∨
    ((∀ block ∈ blocks, block.2 < n) ∧
      mallocLoop n sbrk fuel heap heap.freep (heap.header heap.freep).ptr =
        grow n sbrk (fuel - (blocks.length + 1)) heap) := by
  obtain ⟨others, ring, perm⟩ := list.ring.from_member list.freep
  have distinct := perm.nodup_iff.mpr list.above.nodup
  have length : others.length = blocks.length := by simpa using perm.length_eq
  rcases @mallocLoop_scan n fuel heap.freep sbrk heap others ring (List.nodup_cons.mp distinct).1
      (by omega) with ⟨previous, member, fits, result⟩ | ⟨small, result⟩
  · have next : (heap.header previous).ptr ∈ heap.freep :: others := by
      have mapped := List.mem_map_of_mem (f := fun p => (heap.header p).ptr) member
      rw [Leads.map_next ring] at mapped
      exact (List.perm_append_singleton _ _).mem_iff.mp mapped
    have notBase : (heap.header previous).ptr ≠ base := by
      intro atBase
      rw [atBase, list.baseSize] at fits
      omega
    have among := (List.mem_cons.mp (perm.mem_iff.mp next)).resolve_left notBase
    obtain ⟨block, blockMember, address⟩ := List.mem_map.mp among
    rw [← address, list.sizes block blockMember] at fits
    rw [← address] at result
    obtain ⟨start, heap', blocks', taken, kept, given⟩ :=
      list.take blockMember fits positive (perm.mem_iff.mp member) address.symm
    exact .inl ⟨⟨block, blockMember, fits⟩, start, heap', blocks', by rw [result, taken], kept,
      given⟩
  · refine .inr ⟨fun block member => ?_, by rw [result, length]⟩
    rw [← list.sizes block member]
    exact small block.1 (perm.mem_iff.mpr (List.mem_cons_of_mem _ (List.mem_map_of_mem member)))

theorem core_le : n ≤ core n ∧ 0 < core n := by
  unfold core
  split
  · omega
  · omega

/-- New memory is free, and nothing else has changed. -/
theorem FreeList.morecore (list : FreeList base heap blocks) (low : base < p)
    (above : ∀ block ∈ blocks, block.1 + block.2 ≤ p) (enough : blocks.length < fuel) :
    ∃ heap' blocks', morecore fuel heap n p = some heap' ∧ FreeList base heap' blocks' ∧
      heap'.given = (p, core n) :: heap.given ∧
      SameOutside base ((p, core n) :: blocks) heap heap' ∧
      ∀ unit, Covered blocks' unit ↔ Covered ((p, core n) :: blocks) unit := by
  have fresh : ∀ node ∈ base :: blocks.map Prod.fst, node ≠ p := by
    intro node member
    rcases List.mem_cons.mp member with rfl | member
    · omega
    · obtain ⟨block, among, rfl⟩ := List.mem_map.mp member
      have ends := above block among
      have positive := (list.above.mem among).2
      omega
  have held : FreeList base
      (Heap.setSize { heap with given := (p, core n) :: heap.given } p (core n)) blocks :=
    list.congr (fun node member => Function.update_of_ne (fresh node member) _ _) rfl
  obtain ⟨heap', blocks', freed, list', given, outside, covers⟩ :=
    @FreeList.free _ _ _ (p, core n) _ held low core_le.2 (Heap.size_setSize_self ..)
      (fun other member => .inl (above other member)) enough
  refine ⟨heap', blocks', freed, list', given, ?_, covers⟩
  intro unit notBase uncovered
  refine (outside unit notBase uncovered).trans (Function.update_of_ne ?_ _ _)
  rintro rfl
  exact uncovered (@covered_start (unit, core n) _ core_le.2 List.mem_cons_self)

/-- How `malloc` ends: with a block that was free, without memory, or with a block
after more memory was given. -/
inductive Served (base : ℕ) (heap : Heap) (blocks : List (ℕ × ℕ)) (n : ℕ) :
    Option ℕ → ℕ → Heap → Prop where
  | found {sbrk : Option ℕ} {start : ℕ} {heap' : Heap} {blocks' : List (ℕ × ℕ)}
      (fits : ∃ block ∈ blocks, n ≤ block.2) (taken : Taken base heap blocks n start heap' blocks')
      (given : heap'.given = heap.given) : Served base heap blocks n sbrk (start + 1) heap'
  | failed (small : ∀ block ∈ blocks, block.2 < n) : Served base heap blocks n none 0 heap
  | grown {p start : ℕ} {heap' : Heap} {blocks' : List (ℕ × ℕ)}
      (small : ∀ block ∈ blocks, block.2 < n)
      (taken : Taken base heap ((p, core n) :: blocks) n start heap' blocks')
      (given : heap'.given = (p, core n) :: heap.given) :
      Served base heap blocks n (some p) (start + 1) heap'

theorem FreeList.grow (list : FreeList base heap blocks) (positive : 0 < n) (low : base < p)
    (above : ∀ block ∈ blocks, block.1 + block.2 ≤ p) (high : p + core n ≤ top)
    (enough : top < fuel) :
    ∃ start heap' blocks', grow n (some p) fuel heap = some (start + 1, heap') ∧
      Taken base heap ((p, core n) :: blocks) n start heap' blocks' ∧
      heap'.given = (p, core n) :: heap.given := by
  have length := list.above.length_le (by omega : base ≤ p) above
  obtain ⟨held, middle, added, list', given, outside, covers⟩ :=
    list.morecore (n := n) low above (by omega : blocks.length < fuel)
  have ends : ∀ block ∈ middle, block.1 + block.2 ≤ top := by
    intro block member
    refine end_le_of_covered member (list'.above.mem member).2 (fun unit => (covers unit).mp) ?_
    refine List.forall_mem_cons.mpr ⟨high, fun other among => ?_⟩
    have ends := above other among
    omega
  have length' := list'.above.length_le (by omega : base ≤ top) ends
  have new : ∀ unit, Covered [(p, core n)] unit → Covered middle unit := by
    intro unit covered
    refine (covers unit).mpr ?_
    rw [covered_cons] at covered ⊢
    exact covered.imp_right fun nowhere => absurd nowhere covered_nil
  obtain ⟨whole, among, large⟩ := @Above.within (p, core n) _ _ list'.above core_le.2 new
  rcases list'.scan (some p) positive (by omega : middle.length < fuel) with
    ⟨-, start, heap', blocks', result, taken, kept⟩ | ⟨small, -⟩
  · refine ⟨start, heap', blocks', ?_, ⟨taken.list, taken.low, taken.size, taken.apart, ?_, ?_⟩,
      kept.trans given⟩
    · rw [Umalloc.grow, added]
      exact result
    · intro unit notBase uncovered
      have still := taken.outside unit notBase fun covered => uncovered ((covers unit).mp covered)
      exact still.trans (outside unit notBase uncovered)
    · exact fun unit => (taken.covers unit).trans (covers unit)
  · have less := small whole among
    have fits := (core_le (n := n)).1
    omega

/-- With enough fuel `malloc` returns. -/
theorem FreeList.mallocLoop (list : FreeList base heap blocks) (positive : 0 < n)
    (above : ∀ p ∈ sbrk, base < p ∧ ∀ block ∈ blocks, block.1 + block.2 ≤ p)
    (lowest : base ≤ top) (ends : ∀ block ∈ blocks, block.1 + block.2 ≤ top)
    (high : ∀ p ∈ sbrk, p + core n ≤ top) (enough : 2 * top + 1 < fuel) :
    ∃ ap heap',
      mallocLoop n sbrk fuel heap heap.freep (heap.header heap.freep).ptr = some (ap, heap') ∧
      Served base heap blocks n sbrk ap heap' := by
  have length := list.above.length_le lowest ends
  rcases list.scan sbrk positive (by omega : blocks.length < fuel) with
    ⟨fits, start, heap', blocks', result, taken, given⟩ | ⟨small, result⟩
  · exact ⟨_, heap', result, .found fits taken given⟩
  · cases sbrk with
    | none => exact ⟨0, heap, result, .failed small⟩
    | some p =>
        obtain ⟨low, higher⟩ := above p rfl
        obtain ⟨start, heap', blocks', grown, taken, given⟩ :=
          @FreeList.grow base n (fuel - (blocks.length + 1)) top p _ _ list positive low higher
            (high p rfl) (by omega)
        exact ⟨_, heap', result.trans grown, .grown small taken given⟩

end Malloc

end Ence360.Xv6.Umalloc
