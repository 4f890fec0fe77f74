import Ence360.Semantics.Refinement
import Ence360.Xv6.LogSpaceProperties
import Mathlib.Data.List.Nodup

/-!
# Crashes and the log

Recovery turns the disk into the one that the last commit left, wherever the
crash came: every operation is on disk as a whole or not at all.
-/

set_option autoImplicit false

namespace Ence360.Xv6.Log

open Semantics Semantics.IndexedList

section Specification

/-- What the log is for: a disk whose changes become durable together, while no
operation is open. A crash takes back the changes since then. -/
structure AtomicDisk (Index Block : Type) where
  durable : Index → Block
  current : Index → Block
  opened : ℕ

inductive AtomicDisk.Event (Index Block : Type) where
  | openOp
  | write (index : Index) (data : Block)
  | closeOp
  | commit
  | crash

variable {Index Block : Type} [DecidableEq Index]

def AtomicDisk.step (disk : AtomicDisk Index Block) :
    AtomicDisk.Event Index Block → Option (AtomicDisk Index Block)
  | .openOp => some { disk with opened := disk.opened + 1 }
  | .write index data =>
      if 0 < disk.opened then
        some { disk with current := Function.update disk.current index data }
      else none
  | .closeOp => if 0 < disk.opened then some { disk with opened := disk.opened - 1 } else none
  | .commit => if disk.opened = 0 then some { disk with durable := disk.current } else none
  | .crash => some { disk with current := disk.durable, opened := 0 }

def atomicDisk : System (AtomicDisk Index Block) (AtomicDisk.Event Index Block) where
  initial disk := disk.current = disk.durable ∧ disk.opened = 0
  step := AtomicDisk.step

end Specification

variable {Block : Type} {layout : Layout}

section Recovered

variable (layout)

/-- The contents of a block after the recovery. -/
def Disk.recovered (disk : Disk Block) (block : ℕ) : Block :=
  if block ∈ disk.head then disk.block (layout.slot (disk.head.idxOf block))
  else disk.block block

variable {layout}

theorem slot_not_home {tail : ℕ} (inside : tail < layout.size - 1) :
    ¬ layout.Home (layout.slot tail) := by
  intro home
  rw [Layout.Home, Layout.slot] at home
  omega

theorem slot_inj {first second : ℕ} (same : layout.slot first = layout.slot second) :
    first = second := by
  rw [Layout.slot, Layout.slot] at same
  omega

theorem recovered_of_head_nil {disk : Disk Block} (empty : disk.head = []) (block : ℕ) :
    disk.recovered layout block = disk.block block := by
  rw [Disk.recovered, empty]
  exact if_neg List.not_mem_nil

theorem idxOf_of_getElem? {numbers : List ℕ} (nodup : numbers.Nodup) {k number : ℕ}
    (found : numbers[k]? = some number) : numbers.idxOf number = k := by
  obtain ⟨inside, rfl⟩ := List.getElem?_eq_some_iff.mp found
  exact List.Nodup.idxOf_getElem nodup k inside

theorem recovered_of_logged {disk : Disk Block} (nodup : disk.head.Nodup) {k number : ℕ}
    (found : disk.head[k]? = some number) :
    disk.recovered layout number = disk.block (layout.slot k) := by
  rw [Disk.recovered, if_pos (List.mem_of_getElem? found), idxOf_of_getElem? nodup found]

theorem recovered_of_not_logged {disk : Disk Block} {number : ℕ} (absent : number ∉ disk.head) :
    disk.recovered layout number = disk.block number :=
  if_neg absent

/-- Blocks with a copy in the log can be written. -/
theorem recovered_write {disk : Disk Block} {number : ℕ} (member : number ∈ disk.head)
    (apart : ∀ k < disk.head.length, layout.slot k ≠ number) (data : Block) (other : ℕ) :
    (disk.write number data).recovered layout other = disk.recovered layout other := by
  by_cases logged : other ∈ disk.head
  · have different := apart _ (List.idxOf_lt_length_of_mem logged)
    simp only [Disk.recovered, Disk.write, if_pos logged, Function.update_of_ne different]
  · have different : other ≠ number := fun same => logged (same ▸ member)
    simp only [Disk.recovered, Disk.write, if_neg logged, Function.update_of_ne different]

end Recovered

section Relation

variable (layout)

/-- The log blocks before `tail` hold what the cache does. -/
def State.Logged (state : State Block) (tail : ℕ) : Prop :=
  ∀ k < tail, ∀ block, state.lh[k]? = some block →
    state.disk.block (layout.slot k) = state.bread block

/-- The log blocks before `tail` are installed. -/
def State.Installed (state : State Block) (tail : ℕ) : Prop :=
  ∀ k < tail, ∀ block, state.lh[k]? = some block →
    state.dirty block = none ∧ state.disk.block block = state.disk.block (layout.slot k)

/-- Only logged blocks are dirty, and the log on disk is empty. -/
def State.Collecting (state : State Block) : Prop :=
  state.disk.head = [] ∧ ∀ block ∉ state.lh, state.dirty block = none

def State.Clean (state : State Block) : Prop :=
  ∀ block, state.dirty block = none

/-- How far `commit` and the recovery have come. -/
def State.Phase (state : State Block) : Prop :=
  match state.point with
  | .idle => state.Collecting
  | .writeLog tail => state.Collecting ∧ state.Logged layout tail
  | .writeHead => state.Collecting ∧ state.Logged layout state.lh.length
  | .install tail => state.disk.head = state.lh ∧ state.Installed layout tail ∧
      ∀ block ∉ state.lh, state.dirty block = none
  | .clear => state.Clean ∧ ∀ block, layout.Home block →
      state.disk.recovered layout block = state.disk.block block
  | .release => state.Clean ∧ state.disk.head = []
  | .readHead => state.Clean
  | .panicked => True

/-- Every change is durable. -/
def Point.settled : Point → Bool
  | .install _ | .clear | .release | .readHead => true
  | .idle | .writeLog _ | .writeHead | .panicked => false

structure Related (bound : ℕ) (state : State Block) (abstract : AtomicDisk ℕ Block) : Prop where
  reserved : Reserved bound state
  opened : abstract.opened = state.outstanding
  valid : state.disk.Valid layout
  durable : ∀ block, layout.Home block →
    state.disk.recovered layout block = abstract.durable block
  home : ∀ block ∈ state.lh, layout.Home block
  nodup : state.lh.Nodup
  fits : state.lh.length ≤ layout.size - 1
  storing : ∀ blocks block data, .storing blocks block data ∈ state.procs → layout.Home block
  clean : ∀ block, ¬ layout.Home block → state.dirty block = none
  reads : state.point.settled = false ∨ state.committing = true → ∀ block, layout.Home block →
    state.bread block = abstract.current block
  settled : state.point.settled = true → ∀ block, layout.Home block →
    abstract.current block = abstract.durable block
  phase : state.Phase layout

variable {layout} {bound : ℕ} {state next : State Block} {abstract : AtomicDisk ℕ Block} {i : ℕ}

theorem State.phase_of_idle (resting : state.point = .idle) :
    state.Phase layout ↔ state.Collecting := by
  rw [State.Phase, resting]

theorem Related.same_opened (related : Related layout bound state abstract) :
    abstract = { abstract with opened := state.outstanding } := by
  rw [← related.opened]

/-- A process that changes neither the disk nor the log. -/
theorem Related.replace (related : Related layout bound state abstract)
    {process : Process Block} (opened : ℕ)
    (reserved : Reserved bound { state.setProc i process with outstanding := opened })
    (storing : ∀ blocks block data, process = .storing blocks block data → layout.Home block) :
    Related layout bound { state.setProc i process with outstanding := opened }
      { abstract with opened := opened } :=
  { related with
    reserved := reserved
    opened := rfl
    storing := by
      intro blocks block data member
      rcases mem_set_cases member with same | member
      · exact storing blocks block data same.symm
      · exact related.storing blocks block data member }

theorem Related.store (related : Related layout bound state abstract)
    (large : logSize ≤ layout.size) (fits : bound < maxOpBlocks)
    (stepped : logStore state i = some next) :
    ∃ blocks block data, state.procs[i]? = some (.storing blocks block data) ∧
      Related layout bound next
        { abstract with current := Function.update abstract.current block data } := by
  have reserved := related.reserved.store stepped
  obtain ⟨blocks, block, data, lookup, rfl⟩ := logStore_cases stepped
  refine ⟨blocks, block, data, lookup, ?_⟩
  obtain ⟨resting, -⟩ := related.reserved.admitted.idle_of_busy lookup rfl
  have blockHome : layout.Home block :=
    related.storing blocks block data (List.mem_of_getElem? lookup)
  have unsettled : state.point.settled = false := by rw [resting]; rfl
  have short := reserved.lh_length_le fits resting
  obtain ⟨head, dirty⟩ := (State.phase_of_idle resting).mp related.phase
  refine { related with
    reserved := reserved, home := ?_, nodup := ?_, fits := ?_, storing := ?_, clean := ?_,
    reads := ?_, settled := ?_, phase := ?_ }
  · intro number member
    dsimp only at member
    split at member
    · exact related.home number member
    · rcases List.mem_append.mp member with member | member
      · exact related.home number member
      · rwa [List.mem_singleton.mp member]
  · dsimp only
    split
    · exact related.nodup
    · next absent =>
        exact List.Nodup.append related.nodup (List.nodup_singleton block) (by simpa using absent)
  · generalize State.lh _ = lh at short ⊢
    omega
  · intro others other content member
    rcases mem_set_cases member with same | member
    · cases same
    · exact related.storing others other content member
  · intro number inside
    dsimp only
    rw [Function.update_of_ne]
    · exact related.clean number inside
    · rintro rfl
      exact inside blockHome
  · intro _ number outside
    have before := related.reads (.inl unsettled) number outside
    simp only [State.bread, Function.update_apply] at before ⊢
    split
    · rfl
    · exact before
  · intro settled
    cases (congrArg Point.settled resting).symm.trans settled
  · refine (State.phase_of_idle (by exact resting)).mpr ⟨head, fun number absent => ?_⟩
    dsimp only at absent ⊢
    have different : number ≠ block := by
      rintro rfl
      split at absent
      · contradiction
      · simp at absent
    rw [Function.update_of_ne different]
    refine dirty number fun member => absent ?_
    split
    · exact member
    · exact List.mem_append_left _ member

theorem Related.last (related : Related layout bound state abstract) {blocks : List ℕ}
    (lookup : state.procs[i]? = some (.working blocks))
    (reserved : Reserved bound { state.setProc i .outside with
      outstanding := 0
      committing := true
      point := if state.lh.length > 0 then .writeLog 0 else .release }) :
    Related layout bound { state.setProc i .outside with
      outstanding := 0
      committing := true
      point := if state.lh.length > 0 then .writeLog 0 else .release }
      { abstract with opened := 0 } := by
  obtain ⟨resting, -⟩ := related.reserved.admitted.idle_of_busy lookup rfl
  have unsettled : state.point.settled = false := by rw [resting]; rfl
  obtain ⟨head, dirty⟩ := (State.phase_of_idle resting).mp related.phase
  refine { related with
    reserved := reserved, opened := rfl, storing := ?_,
    reads := fun _ => related.reads (.inl unsettled), settled := ?_, phase := ?_ }
  · intro others other content member
    rcases mem_set_cases member with same | member
    · cases same
    · exact related.storing others other content member
  · intro settled number outside
    have empty : state.lh = [] := by
      dsimp only at settled
      split at settled
      · cases settled
      · exact List.eq_nil_of_length_eq_zero (by omega)
    have unchanged : state.dirty number = none := dirty number (by simp [empty])
    rw [← related.reads (.inl unsettled) number outside, ← related.durable number outside,
      recovered_of_head_nil head, State.bread, unchanged]
    rfl
  · unfold State.Phase
    dsimp only
    split_ifs with logged
    · exact ⟨⟨head, dirty⟩, fun k early => absurd early (Nat.not_lt_zero k)⟩
    · have empty : state.lh = [] := List.eq_nil_of_length_eq_zero (by omega)
      exact ⟨fun number => dirty number (by simp [empty]), head⟩

theorem mem_of_mem_woken {procs : List (Process Block)} {blocks : List ℕ} {block : ℕ}
    {data : Block} (member : .storing blocks block data ∈ procs.map Process.woken) :
    .storing blocks block data ∈ procs := by
  obtain ⟨process, found, woken⟩ := List.mem_map.mp member
  cases process with
  | storing =>
      cases woken
      exact found
  | outside | entering | sleeping | working => cases woken

theorem Related.leave (related : Related layout bound state abstract)
    (reserved : Reserved bound { state with
      procs := (state.procs.set i .outside).map Process.woken
      outstanding := state.outstanding - 1 }) :
    Related layout bound { state with
      procs := (state.procs.set i .outside).map Process.woken
      outstanding := state.outstanding - 1 } { abstract with opened := abstract.opened - 1 } :=
  { related with
    reserved := reserved
    opened := congrArg (· - 1) related.opened
    storing := by
      intro blocks block data member
      rcases mem_set_cases (mem_of_mem_woken member) with same | member
      · cases same
      · exact related.storing blocks block data member }

section Proceed

theorem Disk.Valid.write {disk : Disk Block} (valid : disk.Valid layout) (number : ℕ)
    (data : Block) : (disk.write number data).Valid layout :=
  ⟨valid.home, valid.nodup, valid.fits⟩

theorem bwrite_block_of_ne {number other : ℕ} (data : Block) (different : other ≠ number) :
    (state.bwrite number data).disk.block other = state.disk.block other :=
  Function.update_of_ne different _ _

theorem bwrite_bread_of_ne {number other : ℕ} (data : Block) (different : other ≠ number) :
    (state.bwrite number data).bread other = state.bread other := by
  simp only [State.bread, State.bwrite, Disk.write, Function.update_of_ne different]

theorem bwrite_bread_self (number : ℕ) (data : Block) :
    (state.bwrite number data).bread number = data := by
  simp [State.bread, State.bwrite, Disk.write]

theorem update_clean {dirty : ℕ → Option Block} {number other : ℕ}
    (clean : dirty other = none) : Function.update dirty number none other = none := by
  rw [Function.update_apply, clean, ite_self]

theorem Related.slot_ne (related : Related layout bound state abstract) {tail block number : ℕ}
    (lookup : state.lh[tail]? = some block) (outside : layout.Home number) :
    number ≠ layout.slot tail := by
  rintro rfl
  have inside := (List.getElem?_eq_some_iff.mp lookup).1
  have fits := related.fits
  exact slot_not_home (by omega) outside

theorem Related.writeLog (related : Related layout bound state abstract) {tail block : ℕ}
    (point : state.point = .writeLog tail) (lookup : state.lh[tail]? = some block)
    (reserved : Reserved bound { state.bwrite (layout.slot tail) (state.bread block) with
      point := .writeLog (tail + 1) }) :
    Related layout bound { state.bwrite (layout.slot tail) (state.bread block) with
      point := .writeLog (tail + 1) } abstract := by
  have phase := related.phase
  rw [State.Phase, point] at phase
  obtain ⟨⟨head, dirty⟩, logged⟩ := phase
  have home {k number : ℕ} (found : state.lh[k]? = some number) : layout.Home number :=
    related.home number (List.mem_of_getElem? found)
  refine { related with
    reserved := reserved, valid := related.valid.write _ _, durable := ?_, clean := ?_,
    reads := ?_, settled := nofun,
    phase := ⟨⟨head, ?_⟩, ?_⟩ }
  · intro number outside
    rw [← related.durable number outside, recovered_of_head_nil head]
    refine (recovered_of_head_nil (by exact head) number).trans ?_
    exact bwrite_block_of_ne _ (related.slot_ne lookup outside)
  · intro number inside
    exact update_clean (related.clean number inside)
  · intro _ number outside
    rw [← related.reads (.inl (by rw [point]; rfl)) number outside]
    exact bwrite_bread_of_ne _ (related.slot_ne lookup outside)
  · intro number absent
    exact update_clean (dirty number absent)
  · intro k early number found
    have same : (state.bwrite (layout.slot tail) (state.bread block)).bread number =
        state.bread number :=
      bwrite_bread_of_ne _ (related.slot_ne lookup (home found))
    refine Eq.trans ?_ same.symm
    rcases Nat.lt_or_eq_of_le (Nat.le_of_lt_succ early) with earlier | rfl
    · refine (bwrite_block_of_ne _ ?_).trans (logged k earlier number found)
      exact fun equal => absurd (slot_inj equal) (Nat.ne_of_lt earlier)
    · cases Option.some.inj (lookup.symm.trans found)
      exact Function.update_self _ _ _

theorem Related.writeHead (related : Related layout bound state abstract)
    (point : state.point = .writeHead)
    (reserved : Reserved bound { state with
      disk := { state.disk with head := state.lh }, point := .install 0 }) :
    Related layout bound
      { state with disk := { state.disk with head := state.lh }, point := .install 0 }
      { abstract with durable := abstract.current } := by
  have phase := related.phase
  rw [State.Phase, point] at phase
  obtain ⟨⟨head, dirty⟩, logged⟩ := phase
  -- The header on disk lists the blocks whose copies `write_log` has made.
  have committed : ∀ number, layout.Home number →
      Disk.recovered layout { state.disk with head := state.lh } number =
        abstract.current number := by
    intro number outside
    rw [← related.reads (.inl (by rw [point]; rfl)) number outside]
    by_cases member : number ∈ state.lh
    · obtain ⟨k, found⟩ := List.mem_iff_getElem?.mp member
      refine (recovered_of_logged (by exact related.nodup) found).trans ?_
      exact logged k (List.getElem?_eq_some_iff.mp found).1 number found
    · refine (recovered_of_not_logged (by exact member)).trans ?_
      rw [State.bread, dirty number member]
      rfl
  exact { related with
    reserved := reserved
    valid := ⟨related.home, related.nodup, related.fits⟩
    durable := committed
    reads := fun _ => related.reads (.inl (by rw [point]; rfl))
    settled := fun _ _ _ => rfl
    phase := ⟨rfl, fun k early => absurd early (Nat.not_lt_zero k), dirty⟩ }

theorem Related.install (related : Related layout bound state abstract) {tail block : ℕ}
    (point : state.point = .install tail) (lookup : state.lh[tail]? = some block)
    (reserved : Reserved bound { state.bwrite block (state.bread (layout.slot tail)) with
      point := .install (tail + 1) }) :
    Related layout bound { state.bwrite block (state.bread (layout.slot tail)) with
      point := .install (tail + 1) } abstract := by
  have phase := related.phase
  rw [State.Phase, point] at phase
  obtain ⟨head, installed, dirty⟩ := phase
  have home : layout.Home block := related.home block (List.mem_of_getElem? lookup)
  have inside := (List.getElem?_eq_some_iff.mp lookup).1
  have fits := related.fits
  have data : state.bread (layout.slot tail) = state.disk.recovered layout block := by
    rw [recovered_of_logged related.valid.nodup (head ▸ lookup), State.bread,
      related.clean _ (slot_not_home (by omega))]
    rfl
  have slots : ∀ k < state.disk.head.length, layout.slot k ≠ block := by
    rintro k early rfl
    rw [head] at early
    exact slot_not_home (by omega) home
  refine { related with
    reserved := reserved, valid := related.valid.write _ _, durable := ?_, clean := ?_,
    reads := ?_, settled := fun _ => related.settled (by rw [point]; rfl),
    phase := ⟨head, ?_, ?_⟩ }
  · intro number outside
    rw [← related.durable number outside]
    exact recovered_write (head ▸ List.mem_of_getElem? lookup) slots _ number
  · intro number inside
    exact update_clean (related.clean number inside)
  · intro readable number outside
    have committing : state.committing = true := readable.resolve_left (by simp [Point.settled])
    by_cases same : number = block
    · subst same
      refine (bwrite_bread_self _ _).trans ?_
      rw [data, related.durable number outside, related.settled (by rw [point]; rfl) _ outside]
    · rw [← related.reads (.inr committing) number outside]
      exact bwrite_bread_of_ne _ same
  · intro k early number found
    have apart : layout.slot k ≠ block :=
      slots k (head ▸ (List.getElem?_eq_some_iff.mp found).1)
    by_cases same : k = tail
    · subst same
      cases Option.some.inj (lookup.symm.trans found)
      refine ⟨Function.update_self _ _ _, (Function.update_self _ _ _).trans ?_⟩
      rw [State.bread, related.clean _ (slot_not_home (by omega))]
      exact (bwrite_block_of_ne _ apart).symm
    · have earlier : k < tail := by omega
      obtain ⟨unchanged, copied⟩ := installed k earlier number found
      have different : number ≠ block := by
        rintro rfl
        have first := idxOf_of_getElem? related.nodup found
        have second := idxOf_of_getElem? related.nodup lookup
        omega
      refine ⟨update_clean unchanged, ?_⟩
      refine (bwrite_block_of_ne _ different).trans (copied.trans ?_)
      exact (bwrite_block_of_ne _ apart).symm
  · intro number absent
    exact update_clean (dirty number absent)

theorem Related.logged (related : Related layout bound state abstract) {tail : ℕ}
    (point : state.point = .writeLog tail) (done : state.lh[tail]? = none)
    (reserved : Reserved bound { state with point := .writeHead }) :
    Related layout bound { state with point := .writeHead } abstract := by
  have phase := related.phase
  rw [State.Phase, point] at phase
  obtain ⟨collecting, logged⟩ := phase
  have all : state.lh.length ≤ tail := List.getElem?_eq_none_iff.mp done
  exact { related with
    reserved := reserved
    reads := fun _ => related.reads (.inl (by rw [point]; rfl))
    settled := nofun
    phase := ⟨collecting, fun k early => logged k (Nat.lt_of_lt_of_le early all)⟩ }

theorem Related.installed (related : Related layout bound state abstract) {tail : ℕ}
    (point : state.point = .install tail) (done : state.lh[tail]? = none)
    (reserved : Reserved bound { state with lh := [], point := .clear }) :
    Related layout bound { state with lh := [], point := .clear } abstract := by
  have phase := related.phase
  rw [State.Phase, point] at phase
  obtain ⟨head, installed, dirty⟩ := phase
  have all : state.lh.length ≤ tail := List.getElem?_eq_none_iff.mp done
  have copied {number : ℕ} (member : number ∈ state.lh) : state.dirty number = none ∧
      state.disk.recovered layout number = state.disk.block number := by
    obtain ⟨k, found⟩ := List.mem_iff_getElem?.mp member
    have early := (List.getElem?_eq_some_iff.mp found).1
    obtain ⟨clean, same⟩ := installed k (by omega) number found
    refine ⟨clean, ?_⟩
    rw [recovered_of_logged related.valid.nodup (head ▸ found), same]
  refine { related with
    reserved := reserved, home := nofun, nodup := List.nodup_nil, fits := Nat.zero_le _,
    reads := fun readable => related.reads (.inr (readable.resolve_left nofun)),
    settled := fun _ => related.settled (by rw [point]; rfl), phase := ⟨?_, ?_⟩ }
  · intro number
    by_cases member : number ∈ state.lh
    · exact (copied member).1
    · exact dirty number member
  · intro number _
    by_cases member : number ∈ state.lh
    · exact (copied member).2
    · exact recovered_of_not_logged (head ▸ member)

/-- The log is empty on disk again; the recovery ends here. -/
theorem Related.clear (related : Related layout bound state abstract)
    (point : state.point = .clear)
    (reserved : Reserved bound { state with
      disk := { state.disk with head := state.lh }
      point := if state.committing then .release else .idle }) :
    Related layout bound { state with
      disk := { state.disk with head := state.lh }
      point := if state.committing then .release else .idle } abstract := by
  have phase := related.phase
  rw [State.Phase, point] at phase
  obtain ⟨clean, recovered⟩ := phase
  have empty : state.lh = [] := related.reserved.admitted.cleared (.inl point)
  have settled := related.settled (by rw [point]; rfl)
  have onDisk : ∀ number, layout.Home number →
      state.disk.block number = abstract.durable number := by
    intro number outside
    rw [← recovered number outside, related.durable number outside]
  refine { related with
    reserved := reserved, valid := ⟨related.home, related.nodup, related.fits⟩,
    durable := ?_, reads := ?_, settled := fun _ => settled, phase := ?_ }
  · intro number outside
    rw [← onDisk number outside]
    exact recovered_of_head_nil (by exact empty) number
  · intro _ number outside
    rw [settled number outside, ← onDisk number outside, State.bread, clean number]
    rfl
  · unfold State.Phase
    cases state.committing with
    | true => exact ⟨clean, empty⟩
    | false => exact ⟨empty, fun number _ => clean number⟩

theorem Related.release (related : Related layout bound state abstract)
    (point : state.point = .release)
    (reserved : Reserved bound { state.wakeup with committing := false, point := .idle }) :
    Related layout bound { state.wakeup with committing := false, point := .idle } abstract := by
  have phase := related.phase
  rw [State.Phase, point] at phase
  obtain ⟨clean, head⟩ := phase
  have settled := related.settled (by rw [point]; rfl)
  refine { related with
    reserved := reserved, storing := ?_, reads := ?_, settled := nofun,
    phase := ⟨head, fun number _ => clean number⟩ }
  · intro blocks block data member
    exact related.storing blocks block data (mem_of_mem_woken member)
  · intro _ number outside
    rw [settled number outside, ← related.durable number outside, recovered_of_head_nil head]
    exact congrArg (Option.getD · _) (clean number)

theorem Related.readHead (related : Related layout bound state abstract)
    (point : state.point = .readHead)
    (reserved : Reserved bound { state with lh := state.disk.head, point := .install 0 }) :
    Related layout bound { state with lh := state.disk.head, point := .install 0 } abstract := by
  have phase := related.phase
  rw [State.Phase, point] at phase
  exact { related with
    reserved := reserved
    home := related.valid.home
    nodup := related.valid.nodup
    fits := related.valid.fits
    reads := fun readable => related.reads (.inr (readable.resolve_left nofun))
    settled := fun _ => related.settled (by rw [point]; rfl)
    phase := ⟨rfl, fun k early => absurd early (Nat.not_lt_zero k), fun number _ => phase number⟩ }

theorem Related.crash (related : Related layout bound state abstract) :
    Related layout bound (crash state)
      { abstract with current := abstract.durable, opened := 0 } :=
  { related with
    reserved := .of_quiet nofun (Admitted.crash state) rfl
    opened := rfl
    home := nofun
    nodup := List.nodup_nil
    fits := Nat.zero_le _
    storing := by
      intro blocks block data member
      obtain ⟨_, -, same⟩ := List.mem_map.mp member
      cases same
    clean := fun _ _ => rfl
    reads := by simp [Log.crash, Point.settled]
    settled := fun _ _ _ => rfl
    phase := fun _ => rfl }

end Proceed

end Relation

section Refinement

variable {bound : ℕ} {state next : State Block} {abstract : AtomicDisk ℕ Block} {i : ℕ}

/-- What an action of the program means for the disk it implements. -/
def visible (state : State Block) : Action Block → List (AtomicDisk.Event ℕ Block)
  | .beginOp _ => if state.committing ∨ state.Full then [] else [.openOp]
  | .logWrite _ _ _ => []
  | .logStore i =>
      match state.procs[i]? with
      | some (.storing _ block data) => [.write block data]
      | _ => []
  | .endOp _ => [.closeOp]
  | .proceed => if state.point = .writeHead then [.commit] else []
  | .crash => [.crash]

theorem Related.proceed (related : Related layout bound state abstract)
    (reserved : Reserved bound next) (stepped : proceed layout state = some next) :
    ∃ after, atomicDisk.execute abstract (visible state .proceed) = some after ∧
      Related layout bound next after := by
  unfold Log.proceed at stepped
  cases point : state.point with
  | idle | panicked => simp [point] at stepped
  | writeLog tail =>
      refine ⟨abstract, by simp [visible, point, System.execute], ?_⟩
      simp only [point] at stepped
      split at stepped
      · next lookup =>
          cases stepped
          exact related.writeLog point lookup reserved
      · next done =>
          cases stepped
          exact related.logged point done reserved
  | writeHead =>
      have noneOpen : abstract.opened = 0 := by
        rw [related.opened]
        exact related.reserved.admitted.quiet (by simp [point])
      refine ⟨{ abstract with durable := abstract.current }, ?_, ?_⟩
      · simp [visible, point, System.execute, atomicDisk, AtomicDisk.step, noneOpen]
      · simp only [point] at stepped
        cases stepped
        exact related.writeHead point reserved
  | install tail =>
      refine ⟨abstract, by simp [visible, point, System.execute], ?_⟩
      simp only [point] at stepped
      split at stepped
      · next lookup =>
          cases stepped
          exact related.install point lookup reserved
      · next done =>
          cases stepped
          exact related.installed point done reserved
  | clear =>
      refine ⟨abstract, by simp [visible, point, System.execute], ?_⟩
      simp only [point] at stepped
      cases stepped
      exact related.clear point reserved
  | release =>
      refine ⟨abstract, by simp [visible, point, System.execute], ?_⟩
      simp only [point] at stepped
      cases stepped
      exact related.release point reserved
  | readHead =>
      refine ⟨abstract, by simp [visible, point, System.execute], ?_⟩
      simp only [point] at stepped
      cases stepped
      exact related.readHead point reserved

theorem Related.some_open (related : Related layout bound state abstract)
    {process : Process Block} (lookup : state.procs[i]? = some process)
    (busy : process.busy = true) : 0 < abstract.opened := by
  rw [related.opened]
  exact (related.reserved.admitted.idle_of_busy lookup busy).2

theorem Related.step {action : Action Block} (fits : bound < maxOpBlocks)
    (large : logSize ≤ layout.size) (related : Related layout bound state abstract)
    (stepped : (system layout bound).step state action = some next) :
    ∃ after, atomicDisk.execute abstract (visible state action) = some after ∧
      Related layout bound next after := by
  have reserved := related.reserved.step fits large stepped
  cases action with
  | beginOp i =>
      obtain ⟨-, stepped⟩ := Option.ite_none_right_eq_some.mp stepped
      obtain ⟨process, lookup, -, ⟨blocked, rfl⟩ | ⟨closed, room, rfl⟩⟩ := beginOp_cases stepped
      · refine ⟨abstract, by rw [visible, if_pos blocked]; rfl, ?_⟩
        rw [related.same_opened]
        exact related.replace state.outstanding reserved nofun
      · refine ⟨{ abstract with opened := abstract.opened + 1 }, ?_, ?_⟩
        · rw [visible, if_neg (not_or.mpr ⟨Bool.eq_false_iff.mp closed, room⟩)]
          rfl
        · rw [related.opened]
          exact related.replace (state.outstanding + 1) reserved nofun
  | logWrite i block data =>
      obtain ⟨⟨-, home, -⟩, stepped⟩ := Option.ite_none_right_eq_some.mp stepped
      obtain ⟨blocks, lookup, ⟨-, rfl⟩ | ⟨-, -, rfl⟩⟩ := logWrite_cases stepped
      · exact absurd rfl reserved.sound
      · refine ⟨abstract, rfl, ?_⟩
        rw [related.same_opened]
        refine related.replace state.outstanding reserved ?_
        intro blocks block data same
        cases same
        exact home
  | logStore i =>
      obtain ⟨-, stepped⟩ := Option.ite_none_right_eq_some.mp stepped
      obtain ⟨blocks, block, data, lookup, after⟩ := related.store large fits stepped
      refine ⟨_, ?_, after⟩
      have someOpen : 0 < abstract.opened := related.some_open lookup rfl
      simp [visible, lookup, System.execute, atomicDisk, AtomicDisk.step, someOpen]
  | endOp i =>
      obtain ⟨-, stepped⟩ := Option.ite_none_right_eq_some.mp stepped
      obtain ⟨blocks, lookup, ⟨-, panicked, -⟩ | ⟨-, last, rfl⟩ | ⟨-, -, rfl⟩⟩ :=
        endOp_cases stepped
      · exact absurd panicked reserved.sound
      · have noneOpen : abstract.opened - 1 = 0 := related.opened ▸ last
        refine ⟨_, ?_, related.last lookup reserved⟩
        simp [visible, System.execute, atomicDisk, AtomicDisk.step, related.some_open lookup rfl,
          noneOpen]
      · refine ⟨_, ?_, related.leave reserved⟩
        simp [visible, System.execute, atomicDisk, AtomicDisk.step, related.some_open lookup rfl]
  | proceed => exact related.proceed reserved stepped
  | crash =>
      cases stepped
      exact ⟨_, rfl, related.crash⟩

theorem Related.boot (boot : Boot layout state) :
    Related layout bound state
      { durable := state.disk.recovered layout
        current := state.disk.recovered layout
        opened := 0 } where
  reserved := .of_quiet (by simp [boot.point]) (Admitted.boot boot) boot.outstanding
  opened := boot.outstanding.symm
  valid := boot.valid
  durable _ _ := rfl
  home := by simp [boot.lh]
  nodup := by simp [boot.lh]
  fits := by simp [boot.lh]
  storing blocks block data member := by cases boot.procs _ member
  clean block _ := boot.clean block
  reads := by simp [boot.point, boot.committing, Point.settled]
  settled _ _ _ := rfl
  phase := by
    rw [State.Phase, boot.point]
    exact boot.clean

def logRefinement (layout : Layout) (bound : ℕ) (fits : bound < maxOpBlocks)
    (large : logSize ≤ layout.size) :
    Refinement (system layout bound : System (State Block) (Action Block))
      (atomicDisk : System (AtomicDisk ℕ Block) (AtomicDisk.Event ℕ Block)) where
  related := Related layout bound
  visible := visible
  step _ _ _ _ related stepped := related.step fits large stepped

theorem settled_of_live (live : state.live = true) :
    state.point.settled = false ∨ state.committing = true := by
  rw [State.live] at live
  cases point : state.point <;> simp_all [Point.settled]

/-- Whatever the operations do and wherever the crashes come, the disk recovers to
what the last commit made durable, and while processes run they read their own
changes. -/
theorem recovers_last_commit (layout : Layout) (bound : ℕ) (fits : bound < maxOpBlocks)
    (large : logSize ≤ layout.size) {start finish : State Block}
    {events : List (State Block × Action Block)} (boot : Boot layout start)
    (run : (system layout bound).Run start events finish) :
    ∃ after, atomicDisk.execute
        { durable := start.disk.recovered layout
          current := start.disk.recovered layout
          opened := 0 }
        (events.flatMap fun event => visible event.1 event.2) = some after ∧
      (∀ block, layout.Home block →
        finish.disk.recovered layout block = after.durable block) ∧
      (finish.live = true → ∀ block, layout.Home block →
        finish.bread block = after.current block) := by
  obtain ⟨after, executed, related⟩ :=
    (logRefinement layout bound fits large).run run (Related.boot boot)
  refine ⟨after, executed, related.durable, ?_⟩
  intro live
  exact related.reads (settled_of_live live)

/-- A crash just after the header is written, and the first copy of the recovery. -/
theorem recovers_last_commit_crash :
    let actions : List (Action ℕ) := [.proceed, .proceed, .proceed, .beginOp 0, .logWrite 0 40 7,
      .logStore 0, .endOp 0, .proceed, .proceed, .proceed, .crash, .proceed, .proceed]
    Boot ⟨2, 30⟩ (blank 0 1) ∧
      ∃ events finish after, events.map (·.2) = actions ∧
        (system ⟨2, 30⟩ 9).Run (blank 0 1) events finish ∧
        atomicDisk.execute ⟨fun _ => 0, fun _ => 0, 0⟩
          (events.flatMap fun event => visible event.1 event.2) = some after ∧
        finish.disk.recovered ⟨2, 30⟩ 40 = after.durable 40 := by
  intro actions
  refine ⟨blank_boot ⟨2, 30⟩ 0 1, ?_⟩
  have executed : ((system ⟨2, 30⟩ 9).execute (blank 0 1) actions).isSome = true := by decide
  obtain ⟨finish, executed⟩ := Option.isSome_iff_exists.mp executed
  obtain ⟨events, labels, run⟩ := System.run_of_execute executed
  obtain ⟨after, followed, durable, -⟩ := recovers_last_commit ⟨2, 30⟩ 9 (by decide) (by decide)
    (blank_boot ⟨2, 30⟩ 0 1) run
  exact ⟨events, finish, after, labels, run, followed, durable 40 (by decide)⟩

end Refinement

end Ence360.Xv6.Log
