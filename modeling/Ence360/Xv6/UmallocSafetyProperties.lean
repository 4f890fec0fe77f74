import Ence360.Xv6.UmallocMallocProperties
import Mathlib.Data.List.Pairwise

/-!
# What a program can rely on

All memory that `sbrk` has given is at every moment either free or in one block of
the program. A program that writes to its own blocks only finds in them what it has
written.
-/

set_option autoImplicit false

namespace Ence360.Xv6.Umalloc

open Semantics

section Owned

/-- The memory is divided into free blocks and blocks in use. -/
structure Owned (base : ℕ) (heap : Heap) (blocks live : List (ℕ × ℕ)) : Prop where
  list : FreeList base heap blocks
  low : ∀ block ∈ live, base < block.1
  positive : ∀ block ∈ live, 0 < block.2
  sizes : ∀ block ∈ live, (heap.header block.1).size = block.2
  apart : live.Pairwise Apart
  disjoint : ∀ unit, Covered blocks unit → ¬ Covered live unit
  memory : ∀ unit, Covered heap.given unit ↔ Covered blocks unit ∨ Covered live unit

/-- Before the first call of `malloc` there is no memory. -/
def Sound (base : ℕ) (state : State) : Prop :=
  (state.heap.freep = 0 ∧ state.heap.given = [] ∧ state.live = []) ∨
    ∃ blocks, Owned base state.heap blocks state.live

variable {base n start ap fuel : ℕ} {sbrk : Option ℕ} {heap heap' : Heap} {block other : ℕ × ℕ}
  {blocks blocks' live spare : List (ℕ × ℕ)}

instance : Std.Symm Apart :=
  ⟨fun _ _ => Or.symm⟩

theorem apart_of_disjoint (positive : 0 < block.2) (otherPositive : 0 < other.2)
    (disjoint : ∀ unit, block.1 ≤ unit → unit < block.1 + block.2 →
      ¬ (other.1 ≤ unit ∧ unit < other.1 + other.2)) : Apart block other := by
  unfold Apart
  by_contra overlap
  have first := disjoint block.1
  have second := disjoint other.1
  omega

theorem Owned.covered (owned : Owned base heap blocks live) (member : block ∈ live) :
    Covered live block.1 :=
  covered_start (owned.positive block member) member

theorem Owned.ne_base (owned : Owned base heap blocks live) {unit : ℕ}
    (covered : Covered live unit) : unit ≠ base := by
  obtain ⟨block, member, starts, -⟩ := covered
  have low := owned.low block member
  omega

/-- Two blocks in use that overlap are the same. -/
theorem Owned.eq_of_overlap (owned : Owned base heap blocks live) (member : block ∈ live)
    (among : other ∈ live) {unit : ℕ} (inside : block.1 ≤ unit ∧ unit < block.1 + block.2)
    (within : other.1 ≤ unit ∧ unit < other.1 + other.2) : block = other := by
  by_contra distinct
  have apart := owned.apart.forall member among distinct
  unfold Apart at apart
  omega

theorem Owned.eq_of_start (owned : Owned base heap blocks live) (member : block ∈ live)
    (among : other ∈ live) (same : block.1 = other.1) : block = other := by
  have positive := owned.positive block member
  have otherPositive := owned.positive other among
  exact owned.eq_of_overlap member among ⟨Nat.le_refl block.1, by omega⟩ ⟨by omega, by omega⟩

/-- The free list does not see what is written to a block in use. -/
theorem Owned.store (owned : Owned base heap blocks live) (member : block ∈ live) {address : ℕ}
    (contents : Header) (above : block.1 < address) (below : address < block.1 + block.2) :
    Owned base (heap.set address contents) blocks live := by
  have inUse : Covered live address := ⟨block, member, by omega, below⟩
  have notFree : ¬ Covered blocks address := fun covered => owned.disjoint address covered inUse
  refine ⟨?_, owned.low, owned.positive, ?_, owned.apart, owned.disjoint, owned.memory⟩
  · refine owned.list.congr (fun node among => Function.update_of_ne ?_ _ _) rfl
    rintro rfl
    exact notFree (owned.list.covered among (owned.ne_base inUse))
  · intro other among
    refine Eq.trans (congrArg Header.size (Function.update_of_ne ?_ _ _)) (owned.sizes other among)
    intro same
    have positive := owned.positive other among
    have equal : block = other :=
      owned.eq_of_overlap member among ⟨by omega, below⟩ ⟨by omega, by omega⟩
    rw [equal] at above
    omega

/-- A block that was taken from free memory is in use. -/
theorem Owned.taken (owned : Owned base heap blocks live) (positive : 0 < n)
    (disjoint : ∀ unit, Covered spare unit → ¬ Covered live unit)
    (memory : ∀ unit, Covered heap'.given unit ↔ Covered spare unit ∨ Covered live unit)
    (taken : Taken base heap spare n start heap' blocks') :
    Owned base heap' blocks' ((start, n) :: live) := by
  have wasFree : ∀ unit, start ≤ unit → unit < start + n → Covered spare unit := by
    intro unit starts ends
    exact (taken.covers unit).mp (covered_cons.mpr (.inl ⟨starts, ends⟩))
  refine ⟨taken.list, List.forall_mem_cons.mpr ⟨taken.low, owned.low⟩,
    List.forall_mem_cons.mpr ⟨positive, owned.positive⟩,
    List.forall_mem_cons.mpr ⟨taken.size, ?_⟩, List.pairwise_cons.mpr ⟨?_, owned.apart⟩, ?_, ?_⟩
  · intro block member
    have inUse := owned.covered member
    rw [taken.outside block.1 (owned.ne_base inUse) fun covered => disjoint _ covered inUse]
    exact owned.sizes block member
  · intro block member
    refine apart_of_disjoint positive (owned.positive block member) ?_
    intro unit starts ends within
    exact disjoint unit (wasFree unit starts ends) ⟨block, member, within⟩
  · intro unit covered inUse
    rcases covered_cons.mp inUse with within | inUse
    · obtain ⟨other, among, inside⟩ := covered
      have apart := taken.apart other among
      unfold Apart at apart
      omega
    · exact disjoint unit ((taken.covers unit).mp (covered_cons.mpr (.inr covered))) inUse
  · intro unit
    rw [memory unit, ← taken.covers unit, covered_cons, covered_cons]
    exact or_assoc.trans or_left_comm

/-- A block in use that is given back is free. -/
theorem Owned.free (owned : Owned base heap blocks live) (member : block ∈ live)
    (list : FreeList base heap' blocks') (given : heap'.given = heap.given)
    (outside : SameOutside base (block :: blocks) heap heap')
    (covers : ∀ unit, Covered blocks' unit ↔ Covered (block :: blocks) unit) :
    Owned base heap' blocks' (live.filter (·.1 ≠ block.1)) := by
  have kept : ∀ other ∈ live.filter (·.1 ≠ block.1), other ∈ live ∧ other.1 ≠ block.1 := by
    intro other among
    simpa using among
  have others : ∀ unit, Covered (live.filter (·.1 ≠ block.1)) unit →
      Covered live unit ∧ ¬ (block.1 ≤ unit ∧ unit < block.1 + block.2) := by
    rintro unit ⟨other, among, within⟩
    obtain ⟨among, distinct⟩ := kept other among
    refine ⟨⟨other, among, within⟩, fun inside => distinct ?_⟩
    exact congrArg Prod.fst (owned.eq_of_overlap among member within inside)
  have notFree : ∀ unit, Covered (live.filter (·.1 ≠ block.1)) unit →
      ¬ Covered (block :: blocks) unit := by
    intro unit inUse covered
    obtain ⟨was, notInside⟩ := others unit inUse
    rcases covered_cons.mp covered with inside | covered
    · exact notInside inside
    · exact owned.disjoint unit covered was
  refine ⟨list, fun other among => owned.low other (kept other among).1,
    fun other among => owned.positive other (kept other among).1, ?_, owned.apart.filter _, ?_, ?_⟩
  · intro other among
    have inUse : Covered (live.filter (·.1 ≠ block.1)) other.1 :=
      covered_start (owned.positive other (kept other among).1) among
    rw [outside other.1 (owned.ne_base (others _ inUse).1) (notFree _ inUse)]
    exact owned.sizes other (kept other among).1
  · exact fun unit covered inUse => notFree unit inUse ((covers unit).mp covered)
  · intro unit
    rw [given, owned.memory unit, covers unit, covered_cons]
    constructor
    · rintro (covered | ⟨other, among, within⟩)
      · exact .inl (.inr covered)
      · by_cases same : other.1 = block.1
        · rw [owned.eq_of_start among member same] at within
          exact .inl (.inl within)
        · exact .inr ⟨other, by simp [among, same], within⟩
    · rintro ((inside | covered) | inUse)
      · exact .inr ⟨block, member, inside⟩
      · exact .inl covered
      · exact .inr (others unit inUse).1

end Owned

section Calls

variable {base n ap fuel top p : ℕ} {sbrk : Option ℕ} {heap heap' : Heap} {block : ℕ × ℕ}
  {blocks live : List (ℕ × ℕ)}

/-- Where the free memory ends is above all blocks. -/
theorem exists_top (blocks : List (ℕ × ℕ)) (least : ℕ) :
    ∃ top, least ≤ top ∧ ∀ block ∈ blocks, block.1 + block.2 ≤ top := by
  induction blocks with
  | nil => exact ⟨least, Nat.le_refl _, by simp⟩
  | cons first blocks ih =>
      obtain ⟨top, above, ends⟩ := ih
      refine ⟨top + (first.1 + first.2), by omega, List.forall_mem_cons.mpr ⟨by omega, ?_⟩⟩
      intro block member
      have bound := ends block member
      omega

/-- No block ends above all the memory given. -/
theorem Owned.ends (owned : Owned base heap blocks live)
    (above : ∀ given ∈ heap.given, given.1 + given.2 ≤ top) :
    (∀ block ∈ blocks, block.1 + block.2 ≤ top) ∧ ∀ block ∈ live, block.1 + block.2 ≤ top := by
  refine ⟨fun block member => ?_, fun block member => ?_⟩
  · exact end_le_of_covered member (owned.list.above.mem member).2
      (fun unit covered => (owned.memory unit).mpr (.inl covered)) above
  · exact end_le_of_covered member (owned.positive block member)
      (fun unit covered => (owned.memory unit).mpr (.inr covered)) above

/-- Whatever fuel it took, `malloc` ends in one of its three ways. -/
theorem Owned.malloc_served (owned : Owned base heap blocks live) (positive : 0 < n)
    (higher : ∀ p ∈ sbrk, base < p ∧ ∀ given ∈ heap.given, given.1 + given.2 ≤ p)
    (result : mallocLoop n sbrk fuel heap heap.freep (heap.header heap.freep).ptr =
      some (ap, heap')) : Served base heap blocks n sbrk ap heap' := by
  obtain ⟨top, lowest, ends⟩ := exists_top blocks (base + sbrk.elim 0 (· + core n))
  have high : ∀ p ∈ sbrk, p + core n ≤ top := by
    rintro p rfl
    exact Nat.le_trans (Nat.le_add_left _ _) lowest
  obtain ⟨returned, after, enough, served⟩ := @FreeList.mallocLoop base n (fuel + (2 * top + 2)) top
    sbrk heap blocks owned.list positive
    (fun p given => ⟨(higher p given).1, (owned.ends (higher p given).2).1⟩)
    (Nat.le_trans (Nat.le_add_right _ _) lowest) ends high (by omega)
  rw [mallocLoop_mono (Nat.le_add_right _ _) result, Option.some.injEq, Prod.mk.injEq] at enough
  rw [enough.1, enough.2]
  exact served

/-- New memory is not in use. -/
theorem Owned.above_live (owned : Owned base heap blocks live)
    (higher : ∀ given ∈ heap.given, given.1 + given.2 ≤ p) (unit : ℕ)
    (covered : Covered ((p, core n) :: blocks) unit) : ¬ Covered live unit := by
  rcases covered_cons.mp covered with inside | covered
  · rintro ⟨block, member, within⟩
    have ends := (owned.ends higher).2 block member
    have starts := inside.1
    omega
  · exact owned.disjoint unit covered

theorem Served.owned (served : Served base heap blocks n sbrk ap heap')
    (owned : Owned base heap blocks live) (positive : 0 < n)
    (higher : ∀ p ∈ sbrk, base < p ∧ ∀ given ∈ heap.given, given.1 + given.2 ≤ p) :
    ap = 0 ∧ heap' = heap ∨
      ∃ start blocks', ap = start + 1 ∧ (heap'.header start).size = n ∧
        Owned base heap' blocks' ((start, n) :: live) := by
  cases served with
  | @found _ start _ blocks' fits taken given =>
      refine .inr ⟨start, blocks', rfl, taken.size, owned.taken positive owned.disjoint ?_ taken⟩
      rw [given]
      exact owned.memory
  | failed small => exact .inl ⟨rfl, rfl⟩
  | @grown p start _ blocks' small taken given =>
      refine .inr ⟨start, blocks', rfl, taken.size, owned.taken positive ?_ ?_ taken⟩
      · exact owned.above_live (higher p rfl).2
      · intro unit
        rw [given, covered_cons, covered_cons, owned.memory unit, or_assoc]

end Calls

section Steps

variable {base fuel ap : ℕ} {nbytes : UInt32} {sbrk : Option ℕ} {state next : State}

theorem nunits_toNat (small : nbytes.toNat + 16 ≤ 0x80000000) :
    (nunits nbytes).toNat = (nbytes.toNat + 7) / 8 + 1 := by
  simp only [nunits, UInt32.toNat_add, UInt32.toNat_sub, UInt32.toNat_div, UInt32.reduceToNat]
  omega

/-- The heap once `freep` points to the list. -/
def ready (base : ℕ) (heap : Heap) : Heap :=
  if heap.freep = 0 then { heap.set base { ptr := base, size := 0 } with freep := base }
  else heap

theorem malloc_eq (heap : Heap) : malloc base fuel heap nbytes sbrk =
    mallocLoop (nunits nbytes).toNat sbrk fuel (ready base heap) (ready base heap).freep
      ((ready base heap).header (ready base heap).freep).ptr :=
  rfl

theorem ready_given (heap : Heap) : (ready base heap).given = heap.given := by
  unfold ready
  split
  · rfl
  · rfl

theorem ready_header (heap : Heap) {unit : ℕ} (other : unit ≠ base) :
    (ready base heap).header unit = heap.header unit := by
  unfold ready
  split
  · exact Function.update_of_ne other _ _
  · rfl

theorem freeList_nil (heap : Heap) :
    FreeList base { heap.set base { ptr := base, size := 0 } with freep := base } [] := by
  have here : (heap.set base { ptr := base, size := 0 }).header base = { ptr := base, size := 0 } :=
    Function.update_self _ _ _
  refine ⟨?_, trivial, ?_, by simp, List.mem_cons_self⟩
  · exact congrArg Header.ptr here
  · exact congrArg Header.size here

theorem Sound.ready (positive : 0 < base) (sound : Sound base state) :
    ∃ blocks, Owned base (ready base state.heap) blocks state.live := by
  rcases sound with ⟨unset, noMemory, noBlocks⟩ | ⟨blocks, owned⟩
  · refine ⟨[], ?_⟩
    rw [Umalloc.ready, if_pos unset, noBlocks]
    refine ⟨freeList_nil _, by simp, by simp, by simp, .nil, by simp, ?_⟩
    intro unit
    rw [show Heap.given { state.heap.set base { ptr := base, size := 0 } with freep := base } =
      state.heap.given from rfl, noMemory]
    simp
  · refine ⟨blocks, ?_⟩
    have notZero : state.heap.freep ≠ 0 := by
      rcases List.mem_cons.mp owned.list.freep with atBase | member
      · omega
      · obtain ⟨block, among, address⟩ := List.mem_map.mp member
        have low := (owned.list.above.mem among).1
        omega
    rwa [Umalloc.ready, if_neg notZero]

theorem Allowed.ready (allowed : Allowed base state (.malloc nbytes sbrk)) :
    0 < (nunits nbytes).toNat ∧ ∀ p ∈ sbrk, base < p ∧
      ∀ given ∈ (Umalloc.ready base state.heap).given, given.1 + given.2 ≤ p := by
  obtain ⟨small, higher⟩ := allowed
  rw [nunits_toNat small, ready_given]
  exact ⟨by omega, higher⟩

/-- One call of `malloc`. -/
theorem Sound.malloc (positive : 0 < base) (sound : Sound base state)
    (allowed : Allowed base state (.malloc nbytes sbrk))
    (stepped : step base fuel state (.malloc nbytes sbrk) = some next) :
    ∃ blocks ap, Owned base (Umalloc.ready base state.heap) blocks state.live ∧
      Served base (Umalloc.ready base state.heap) blocks (nunits nbytes).toNat sbrk ap next.heap ∧
      (ap = 0 → next.live = state.live) ∧
      ∀ start, ap = start + 1 → next.live = (start, (nunits nbytes).toNat) :: state.live := by
  obtain ⟨nonzero, above⟩ := allowed.ready
  obtain ⟨blocks, owned⟩ := sound.ready positive
  obtain ⟨⟨ap, heap⟩, result, rest⟩ := Option.bind_eq_some_iff.mp stepped
  rw [malloc_eq] at result
  have served := owned.malloc_served nonzero above result
  refine ⟨blocks, ap, owned, ?_⟩
  rcases served.owned owned nonzero above with ⟨failed, same⟩ | ⟨start, blocks', found, size, after⟩
  · simp only [failed, if_true] at rest
    obtain rfl := Option.some.inj rest
    exact ⟨served, fun _ => rfl, fun start other => absurd other (by omega)⟩
  · have address : ap - 1 = start := by omega
    simp only [if_neg (show ap ≠ 0 by omega), address, size] at rest
    obtain rfl := Option.some.inj rest
    refine ⟨served, fun zero => absurd zero (by omega), fun other same => ?_⟩
    obtain rfl : start = other := by omega
    rfl

/-- A block in use can be given back. -/
theorem Owned.free_returns {heap : Heap} {blocks live : List (ℕ × ℕ)} {block : ℕ × ℕ}
    (owned : Owned base heap blocks live) (member : block ∈ live)
    (enough : blocks.length < fuel) :
    ∃ heap' blocks', Umalloc.free fuel heap (block.1 + 1) = some heap' ∧
      heap'.given = heap.given ∧ SameOutside base (block :: blocks) heap heap' ∧
      Owned base heap' blocks' (live.filter (·.1 ≠ block.1)) := by
  have apart : ∀ other ∈ blocks, Apart other block := by
    intro other among
    refine apart_of_disjoint (owned.list.above.mem among).2 (owned.positive block member) ?_
    intro unit starts ends within
    exact owned.disjoint unit ⟨other, among, starts, ends⟩ ⟨block, member, within⟩
  obtain ⟨heap', blocks', freed, list, given, outside, covers⟩ :=
    owned.list.free (owned.low block member) (owned.positive block member)
      (owned.sizes block member) apart enough
  exact ⟨heap', blocks', freed, given, outside, owned.free member list given outside covers⟩

/-- One call of `free`. -/
theorem Sound.free (sound : Sound base state) (allowed : Allowed base state (.free ap))
    (stepped : step base fuel state (.free ap) = some next) :
    ∃ block ∈ state.live, ∃ blocks blocks', ap = block.1 + 1 ∧
      Owned base state.heap blocks state.live ∧ Owned base next.heap blocks' next.live ∧
      next.heap.given = state.heap.given ∧
      SameOutside base (block :: blocks) state.heap next.heap ∧
      next.live = state.live.filter (·.1 ≠ block.1) := by
  obtain ⟨block, member, rfl⟩ := allowed
  rcases sound with ⟨-, -, noBlocks⟩ | ⟨blocks, owned⟩
  · rw [noBlocks] at member
    cases member
  · obtain ⟨heap, result, rest⟩ := Option.bind_eq_some_iff.mp stepped
    obtain ⟨heap', blocks', freed, given, outside, after⟩ :=
      owned.free_returns member (by omega : blocks.length < fuel + (blocks.length + 1))
    rw [free_mono (Nat.le_add_right _ _) result] at freed
    obtain rfl := Option.some.inj freed
    obtain rfl := Option.some.inj rest
    exact ⟨block, member, blocks, blocks', rfl, owned, after, given, outside, rfl⟩

theorem Sound.step (positive : 0 < base) {action : Action} (sound : Sound base state)
    (allowed : Allowed base state action) (stepped : step base fuel state action = some next) :
    Sound base next := by
  cases action with
  | malloc nbytes sbrk =>
      obtain ⟨blocks, ap, owned, served, zero, nonzero⟩ := sound.malloc positive allowed stepped
      obtain ⟨needed, above⟩ := allowed.ready
      rcases served.owned owned needed above with ⟨failed, same⟩ | ⟨start, blocks', found, -, after⟩
      · refine .inr ⟨blocks, ?_⟩
        rw [zero failed, same]
        exact owned
      · refine .inr ⟨blocks', ?_⟩
        rw [nonzero start found]
        exact after
  | free ap =>
      obtain ⟨-, -, -, blocks', -, -, after, -⟩ := sound.free allowed stepped
      exact .inr ⟨blocks', after⟩
  | store address contents =>
      obtain ⟨block, member, above, below⟩ := allowed
      obtain rfl := Option.some.inj stepped
      rcases sound with ⟨-, -, noBlocks⟩ | ⟨blocks, owned⟩
      · rw [noBlocks] at member
        cases member
      · exact .inr ⟨blocks, owned.store member contents above below⟩

end Steps

section Contents

variable {base fuel unit : ℕ} {action : Action} {state next : State} {block : ℕ × ℕ}

theorem Served.same_in_use {n ap : ℕ} {sbrk : Option ℕ} {heap heap' : Heap}
    {blocks live : List (ℕ × ℕ)} (served : Served base heap blocks n sbrk ap heap')
    (owned : Owned base heap blocks live)
    (higher : ∀ p ∈ sbrk, base < p ∧ ∀ given ∈ heap.given, given.1 + given.2 ≤ p)
    (inUse : Covered live unit) : heap'.header unit = heap.header unit := by
  have notBase := owned.ne_base inUse
  cases served with
  | found fits taken given =>
      exact taken.outside unit notBase fun covered => owned.disjoint unit covered inUse
  | failed small => rfl
  | @grown p _ _ _ small taken given =>
      exact taken.outside unit notBase fun covered =>
        owned.above_live (higher p rfl).2 unit covered inUse

/-- A block stays as it is until the program frees it or writes to it. -/
theorem Sound.keeps (positive : 0 < base) (sound : Sound base state)
    (allowed : Allowed base state action)
    (stepped : Umalloc.step base fuel state action = some next)
    (member : block ∈ state.live) (inside : block.1 < unit ∧ unit < block.1 + block.2)
    (notFreed : action ≠ .free (block.1 + 1))
    (notStored : ∀ contents, action ≠ .store unit contents) :
    block ∈ next.live ∧ next.heap.header unit = state.heap.header unit := by
  have inUse : Covered state.live unit := ⟨block, member, by omega, inside.2⟩
  cases action with
  | malloc nbytes sbrk =>
      obtain ⟨blocks, ap, owned, served, zero, nonzero⟩ := sound.malloc positive allowed stepped
      refine ⟨?_, ?_⟩
      · cases ap with
        | zero =>
            rw [zero rfl]
            exact member
        | succ start =>
            rw [nonzero start rfl]
            exact List.mem_cons_of_mem _ member
      · rw [served.same_in_use owned allowed.ready.2 inUse]
        exact ready_header _ (owned.ne_base inUse)
  | free ap =>
      obtain ⟨freed, among, blocks, -, rfl, owned, -, -, outside, live⟩ :=
        sound.free allowed stepped
      have distinct : block.1 ≠ freed.1 := by
        intro same
        rw [same] at notFreed
        exact notFreed rfl
      refine ⟨?_, outside unit (owned.ne_base inUse) ?_⟩
      · rw [live]
        simp [member, distinct]
      · intro covered
        rcases covered_cons.mp covered with within | covered
        · have same := owned.eq_of_overlap member among ⟨by omega, inside.2⟩ within
          exact distinct (congrArg Prod.fst same)
        · exact owned.disjoint unit covered inUse
  | store address contents =>
      obtain rfl := Option.some.inj stepped
      refine ⟨member, Function.update_of_ne ?_ _ _⟩
      rintro rfl
      exact notStored contents rfl

end Contents

section Room

variable {base top fuel more : ℕ} {nbytes : UInt32} {sbrk : Option ℕ} {state next : State}

/-- There are `n` headers in a row that no block uses. -/
def Room (state : State) (n : ℕ) : Prop :=
  ∃ start, ∀ unit, start ≤ unit → unit < start + n →
    Covered state.heap.given unit ∧ ¬ Covered state.live unit

/-- The program has got a new block for `nbytes` bytes. -/
structure Handed (state : State) (nbytes : UInt32) (start : ℕ) (next : State) : Prop where
  live : next.live = (start, (nunits nbytes).toNat) :: state.live
  large : nbytes.toNat ≤ 8 * ((nunits nbytes).toNat - 1)
  fresh : ∀ unit, start ≤ unit → unit < start + (nunits nbytes).toNat →
    Covered next.heap.given unit ∧ ¬ Covered state.live unit

/-- As free blocks are joined, room is a block that is large enough. -/
theorem Owned.room_iff {heap : Heap} {blocks : List (ℕ × ℕ)} {n : ℕ}
    (owned : Owned base heap blocks state.live) (given : heap.given = state.heap.given)
    (positive : 0 < n) : Room state n ↔ ∃ block ∈ blocks, n ≤ block.2 := by
  constructor
  · rintro ⟨start, unused⟩
    refine @Above.within (start, n) _ _ owned.list.above positive ?_
    rintro unit ⟨block, member, starts, ends⟩
    obtain rfl := List.mem_singleton.mp member
    obtain ⟨covered, notInUse⟩ := unused unit starts ends
    rw [← given] at covered
    exact ((owned.memory unit).mp covered).resolve_right notInUse
  · rintro ⟨block, member, fits⟩
    refine ⟨block.1, fun unit starts ends => ?_⟩
    have covered : Covered blocks unit := ⟨block, member, starts, by omega⟩
    refine ⟨?_, owned.disjoint unit covered⟩
    rw [← given]
    exact (owned.memory unit).mpr (.inl covered)

/-- A block that is freed leaves room. -/
theorem Owned.room_free {heap heap' : Heap} {blocks live : List (ℕ × ℕ)} {block : ℕ × ℕ} {n : ℕ}
    (owned : Owned base heap blocks live) (member : block ∈ live) (fits : n ≤ block.2)
    (given : heap'.given = heap.given) : Room ⟨heap', live.filter (·.1 ≠ block.1)⟩ n := by
  refine ⟨block.1, fun unit starts ends => ⟨?_, ?_⟩⟩
  · show Covered heap'.given unit
    rw [given]
    exact (owned.memory unit).mpr (.inr ⟨block, member, starts, by omega⟩)
  · rintro ⟨other, among, within⟩
    obtain ⟨among, distinct⟩ : other ∈ live ∧ other.1 ≠ block.1 := by simpa using among
    refine distinct (congrArg Prod.fst ?_)
    exact owned.eq_of_overlap among member within ⟨starts, by omega⟩

/-- What `malloc` has done. -/
def Answered (state : State) (nbytes : UInt32) (sbrk : Option ℕ) (next : State) : Prop :=
  (Room state (nunits nbytes).toNat ∧ (∃ start, Handed state nbytes start next) ∧
    next.heap.given = state.heap.given) ∨
  ¬ Room state (nunits nbytes).toNat ∧
    ((sbrk = none ∧ next.live = state.live ∧ next.heap.given = state.heap.given) ∨
      ∃ p, sbrk = some p ∧ (∃ start, Handed state nbytes start next) ∧
        next.heap.given = (p, core (nunits nbytes).toNat) :: state.heap.given)

theorem Taken.handed {heap : Heap} {start : ℕ} {spare blocks' : List (ℕ × ℕ)}
    (taken : Taken base heap spare (nunits nbytes).toNat start next.heap blocks')
    (small : nbytes.toNat + 16 ≤ 0x80000000)
    (live : next.live = (start, (nunits nbytes).toNat) :: state.live)
    (unused : ∀ unit, Covered spare unit →
      Covered next.heap.given unit ∧ ¬ Covered state.live unit) :
    Handed state nbytes start next := by
  refine ⟨live, ?_, ?_⟩
  · rw [nunits_toNat small]
    omega
  · intro unit starts ends
    exact unused unit ((taken.covers unit).mp (covered_cons.mpr (.inl ⟨starts, ends⟩)))

theorem Sound.answered (positive : 0 < base) (sound : Sound base state)
    (allowed : Allowed base state (.malloc nbytes sbrk))
    (stepped : Umalloc.step base fuel state (.malloc nbytes sbrk) = some next) :
    Answered state nbytes sbrk next := by
  obtain ⟨blocks, ap, owned, served, zero, nonzero⟩ := sound.malloc positive allowed stepped
  obtain ⟨needed, above⟩ := allowed.ready
  have room := owned.room_iff (ready_given _) needed
  have full (small : ∀ block ∈ blocks, block.2 < (nunits nbytes).toNat) :
      ¬ Room state (nunits nbytes).toNat := by
    rw [room]
    rintro ⟨block, member, fits⟩
    have less := small block member
    omega
  generalize heapEq : next.heap = heap at served
  cases served with
  | @found _ start _ blocks' fits taken given =>
      subst heapEq
      refine .inl ⟨room.mpr fits, ⟨start, taken.handed allowed.1 (nonzero start rfl) ?_⟩, ?_⟩
      · intro unit covered
        rw [given]
        exact ⟨(owned.memory unit).mpr (.inl covered), owned.disjoint unit covered⟩
      · rw [given, ready_given]
  | failed small =>
      refine .inr ⟨full small, .inl ⟨rfl, zero rfl, ?_⟩⟩
      rw [heapEq, ready_given]
  | @grown p start _ blocks' small taken given =>
      subst heapEq
      refine .inr ⟨full small,
        .inr ⟨p, rfl, ⟨start, taken.handed allowed.1 (nonzero start rfl) ?_⟩, ?_⟩⟩
      · intro unit covered
        refine ⟨?_, owned.above_live (above p rfl).2 unit covered⟩
        rw [given, covered_cons, owned.memory unit]
        exact (covered_cons.mp covered).imp_right .inl
      · rw [given, ready_given]

/-- With enough fuel for the memory there is, `malloc` returns. -/
theorem Sound.malloc_returns (positive : 0 < base) (sound : Sound base state)
    (allowed : Allowed base state (.malloc nbytes sbrk)) (lowest : base ≤ top)
    (ends : ∀ given ∈ state.heap.given, given.1 + given.2 ≤ top)
    (high : ∀ p ∈ sbrk, p + core (nunits nbytes).toNat ≤ top) (enough : 2 * top + 1 < more) :
    ∃ next, Umalloc.step base more state (.malloc nbytes sbrk) = some next := by
  obtain ⟨blocks, owned⟩ := sound.ready positive
  obtain ⟨needed, above⟩ := allowed.ready
  rw [← @ready_given base] at ends
  obtain ⟨ap, heap, result, -⟩ := owned.list.mallocLoop needed
    (fun p given => ⟨(above p given).1, (owned.ends (above p given).2).1⟩) lowest
    (owned.ends ends).1 high enough
  by_cases failed : ap = 0
  · refine ⟨{ state with heap }, ?_⟩
    simp only [Umalloc.step, malloc_eq, result, Option.bind_eq_bind, Option.bind_some,
      if_pos failed]
    rfl
  · refine ⟨⟨heap, (ap - 1, (heap.header (ap - 1)).size) :: state.live⟩, ?_⟩
    simp only [Umalloc.step, malloc_eq, result, Option.bind_eq_bind, Option.bind_some,
      if_neg failed]
    rfl

end Room

section Runs

variable {base fuel : ℕ} {start finish : State} {events : List (State × Action)}

theorem sound_run (positive : 0 < base) (initial : (system base fuel).initial start)
    (run : (system base fuel).Run start events finish)
    (allowed : ∀ event ∈ events, Allowed base event.1 event.2) : Sound base finish :=
  run.preserves_under (Allowed base) (Sound base)
    (fun _ _ _ sound allowed stepped => sound.step positive allowed stepped) allowed (.inl initial)

/-- Blocks in use never overlap, and the memory given is divided between them and
the free list. -/
theorem memory_divided (positive : 0 < base) (initial : (system base fuel).initial start)
    (run : (system base fuel).Run start events finish)
    (allowed : ∀ event ∈ events, Allowed base event.1 event.2) :
    finish.live.Pairwise Apart ∧
      (∀ block ∈ finish.live, (finish.heap.header block.1).size = block.2) ∧
      ((finish.heap.freep = 0 ∧ finish.heap.given = []) ∨
        ∃ blocks, FreeList base finish.heap blocks ∧
          (∀ unit, Covered blocks unit → ¬ Covered finish.live unit) ∧
          ∀ unit, Covered finish.heap.given unit ↔
            Covered blocks unit ∨ Covered finish.live unit) := by
  rcases sound_run positive initial run allowed with ⟨unset, noMemory, noBlocks⟩ | ⟨blocks, owned⟩
  · rw [noBlocks]
    exact ⟨.nil, by simp, .inl ⟨unset, noMemory⟩⟩
  · exact ⟨owned.apart, owned.sizes, .inr ⟨blocks, owned.list, owned.disjoint, owned.memory⟩⟩

/-- A program that has not run yet. -/
def blank : State :=
  ⟨⟨fun _ => ⟨0, 0⟩, 0, []⟩, []⟩

theorem malloc_blank : ∃ finish, (system 1 9).Run blank [(blank, .malloc 20 (some 2))] finish ∧
    finish.live = [(4094, 4)] ∧ finish.heap.given = [(2, 4096)] ∧
      ∃ next, step 1 9 finish (.malloc 8 none) = some next :=
  ⟨_, System.Run.single rfl, rfl, rfl, _, rfl⟩

theorem allowed_blank :
    ∀ event ∈ [(blank, Action.malloc 20 (some 2))], Allowed 1 event.1 event.2 := by
  refine List.forall_mem_singleton.mpr ⟨by decide, ?_⟩
  rintro p ⟨⟩
  exact ⟨by decide, by simp [blank]⟩

/-- Two blocks from memory that `sbrk` gave once, the first of which is freed. -/
theorem malloc_twice_free : ∃ first second finish : State,
    step 1 9 blank (.malloc 20 (some 2)) = some first ∧
      step 1 9 first (.malloc 8 none) = some second ∧ second.live = [(4092, 2), (4094, 4)] ∧
      step 1 9 second (.free 4095) = some finish ∧ finish.live = [(4092, 2)] ∧
      finish.heap.given = [(2, 4096)] :=
  ⟨_, _, _, rfl, rfl, rfl, rfl, rfl, rfl⟩

theorem memory_divided_freed : ∃ finish : State,
    finish.live = [(4092, 2)] ∧ finish.heap.given = [(2, 4096)] ∧
      finish.live.Pairwise Apart ∧
      (∀ block ∈ finish.live, (finish.heap.header block.1).size = block.2) ∧
      ((finish.heap.freep = 0 ∧ finish.heap.given = []) ∨
        ∃ blocks, FreeList 1 finish.heap blocks ∧
          (∀ unit, Covered blocks unit → ¬ Covered finish.live unit) ∧
          ∀ unit, Covered finish.heap.given unit ↔
            Covered blocks unit ∨ Covered finish.live unit) := by
  obtain ⟨first, second, finish, one, two, live, three, left, given⟩ := malloc_twice_free
  have again : Allowed 1 first (.malloc 8 none) := ⟨by decide, by simp⟩
  have freed : Allowed 1 second (.free 4095) := ⟨(4094, 4), by simp [live], rfl⟩
  have allowed : ∀ event ∈ [(blank, Action.malloc 20 (some 2)), (first, .malloc 8 none),
      (second, .free 4095)], Allowed 1 event.1 event.2 :=
    List.forall_mem_cons.mpr ⟨allowed_blank _ List.mem_cons_self,
      List.forall_mem_cons.mpr ⟨again, List.forall_mem_singleton.mpr freed⟩⟩
  have run : (system 1 9).Run blank [(blank, .malloc 20 (some 2)), (first, .malloc 8 none),
      (second, .free 4095)] finish :=
    .snoc (.snoc (.single one) two) three
  exact ⟨finish, left, given, memory_divided (by decide) ⟨rfl, rfl, rfl⟩ run allowed⟩

/-- The program reads from a block what it wrote there last. -/
theorem contents_kept {middle : State} {later : List (State × Action)} {block : ℕ × ℕ} {unit : ℕ}
    (positive : 0 < base) (initial : (system base fuel).initial start)
    (run : (system base fuel).Run start events middle)
    (allowed : ∀ event ∈ events, Allowed base event.1 event.2)
    (rest : (system base fuel).Run middle later finish)
    (laterAllowed : ∀ event ∈ later, Allowed base event.1 event.2)
    (member : block ∈ middle.live) (inside : block.1 < unit ∧ unit < block.1 + block.2)
    (notFreed : ∀ event ∈ later, event.2 ≠ .free (block.1 + 1))
    (notStored : ∀ event ∈ later, ∀ contents, event.2 ≠ .store unit contents) :
    block ∈ finish.live ∧ finish.heap.header unit = middle.heap.header unit := by
  have kept := rest.preserves_under
    (fun state action => Allowed base state action ∧ action ≠ .free (block.1 + 1) ∧
      ∀ contents, action ≠ .store unit contents)
    (fun state => Sound base state ∧ block ∈ state.live ∧
      state.heap.header unit = middle.heap.header unit)
    (fun state action next holds meets stepped => by
      obtain ⟨sound, member, same⟩ := holds
      obtain ⟨allowed, notFreed, notStored⟩ := meets
      obtain ⟨still, kept⟩ :=
        sound.keeps positive allowed stepped member inside notFreed notStored
      exact ⟨sound.step positive allowed stepped, still, kept.trans same⟩)
    (fun event among => ⟨laterAllowed event among, notFreed event among, notStored event among⟩)
    ⟨sound_run positive initial run allowed, member, rfl⟩
  exact kept.2

theorem contents_kept_second : ∃ middle finish : State,
    (4094, 4) ∈ middle.live ∧ step 1 9 middle (.malloc 8 none) = some finish ∧
      (4094, 4) ∈ finish.live ∧ finish.heap.header 4096 = middle.heap.header 4096 := by
  obtain ⟨middle, run, live, -, finish, stepped⟩ := malloc_blank
  have member : (4094, 4) ∈ middle.live := by
    rw [live]
    exact List.mem_cons_self
  have request : Allowed 1 middle (.malloc 8 none) := ⟨by decide, by simp⟩
  have rest : (system 1 9).Run middle [(middle, .malloc 8 none)] finish := .single stepped
  refine ⟨middle, finish, member, stepped, ?_⟩
  exact contents_kept (by decide) ⟨rfl, rfl, rfl⟩ run allowed_blank rest
    (List.forall_mem_singleton.mpr request) member (by decide)
    (List.forall_mem_singleton.mpr (by simp)) (List.forall_mem_singleton.mpr (by simp))

/-- `malloc` returns, and fails only when `sbrk` fails and no unused memory is large
enough; only then does it ask for memory. -/
theorem malloc_serves {top more : ℕ} {nbytes : UInt32} {sbrk : Option ℕ} (positive : 0 < base)
    (initial : (system base fuel).initial start)
    (run : (system base fuel).Run start events finish)
    (allowed : ∀ event ∈ events, Allowed base event.1 event.2)
    (request : Allowed base finish (.malloc nbytes sbrk)) (lowest : base ≤ top)
    (ends : ∀ given ∈ finish.heap.given, given.1 + given.2 ≤ top)
    (high : ∀ p ∈ sbrk, p + core (nunits nbytes).toNat ≤ top) (enough : 2 * top + 1 < more) :
    ∃ next, step base more finish (.malloc nbytes sbrk) = some next ∧
      Answered finish nbytes sbrk next := by
  have sound := sound_run positive initial run allowed
  obtain ⟨next, stepped⟩ := sound.malloc_returns positive request lowest ends high enough
  exact ⟨next, stepped, sound.answered positive request stepped⟩

theorem malloc_serves_second : ∃ finish next : State, finish.live = [(4094, 4)] ∧
    step 1 9000 finish (.malloc 8 none) = some next ∧ Answered finish 8 none next := by
  obtain ⟨finish, run, live, given, -⟩ := malloc_blank
  obtain ⟨next, stepped, answered⟩ := @malloc_serves 1 9 blank finish _ 4098 9000 8 none
    (by decide) ⟨rfl, rfl, rfl⟩ run allowed_blank ⟨by decide, by simp⟩ (by decide)
    (by simp [given]) (by simp) (by decide)
  exact ⟨finish, next, live, stepped, answered⟩

/-- Memory that is freed can be had again at once. -/
theorem free_reclaims {top more : ℕ} {block : ℕ × ℕ} (positive : 0 < base)
    (initial : (system base fuel).initial start)
    (run : (system base fuel).Run start events finish)
    (allowed : ∀ event ∈ events, Allowed base event.1 event.2) (member : block ∈ finish.live)
    (lowest : base ≤ top) (ends : ∀ given ∈ finish.heap.given, given.1 + given.2 ≤ top)
    (enough : 2 * top + 1 < more) :
    ∃ next, step base more finish (.free (block.1 + 1)) = some next ∧
      next.live = finish.live.filter (·.1 ≠ block.1) ∧
      ∀ nbytes : UInt32, nbytes.toNat + 16 ≤ 0x80000000 → (nunits nbytes).toNat ≤ block.2 →
        ∃ last, step base more next (.malloc nbytes none) = some last ∧
          (∃ start, Handed next nbytes start last) ∧ last.heap.given = finish.heap.given := by
  rcases sound_run positive initial run allowed with ⟨-, -, noBlocks⟩ | ⟨blocks, owned⟩
  · rw [noBlocks] at member
    cases member
  · have length := owned.list.above.length_le lowest (owned.ends ends).1
    obtain ⟨heap, blocks', freed, given, -, after⟩ :=
      owned.free_returns member (by omega : blocks.length < more)
    refine ⟨⟨heap, finish.live.filter (·.1 ≠ block.1)⟩, ?_, rfl, ?_⟩
    · rw [step, freed]
      rfl
    · intro nbytes small fits
      have request : Allowed base ⟨heap, finish.live.filter (·.1 ≠ block.1)⟩
          (.malloc nbytes none) := ⟨small, by simp⟩
      have sound : Sound base ⟨heap, finish.live.filter (·.1 ≠ block.1)⟩ := .inr ⟨blocks', after⟩
      have room : Room ⟨heap, finish.live.filter (·.1 ≠ block.1)⟩ (nunits nbytes).toNat :=
        owned.room_free member fits given
      rw [← given] at ends
      obtain ⟨last, stepped⟩ :=
        sound.malloc_returns positive request lowest ends (by simp) enough
      rcases sound.answered positive request stepped with ⟨-, handed, same⟩ | ⟨full, -⟩
      · exact ⟨last, stepped, handed, same.trans given⟩
      · exact absurd room full

theorem free_reclaims_first : ∃ finish next : State, finish.live = [(4094, 4)] ∧
    step 1 9000 finish (.free 4095) = some next ∧ next.live = finish.live.filter (·.1 ≠ 4094) ∧
      ∀ nbytes : UInt32, nbytes.toNat + 16 ≤ 0x80000000 → (nunits nbytes).toNat ≤ 4 →
        ∃ last, step 1 9000 next (.malloc nbytes none) = some last ∧
          (∃ start, Handed next nbytes start last) ∧ last.heap.given = finish.heap.given := by
  obtain ⟨finish, run, live, given, -⟩ := malloc_blank
  obtain ⟨next, stepped, left, again⟩ := @free_reclaims 1 9 blank finish _ 4098 9000 (4094, 4)
    (by decide) ⟨rfl, rfl, rfl⟩ run allowed_blank (by simp [live]) (by decide)
    (by simp [given]) (by decide)
  exact ⟨finish, next, live, stepped, left, again⟩

end Runs

end Ence360.Xv6.Umalloc
