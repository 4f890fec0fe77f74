import Ence360.Xv6.BioCacheProperties

/-!
# The requests to the disk

A session that sleeps in `iderw` has its buffer in the queue, or the buffer is
ready. The only ways to a panic are a request for a block when all buffers are in
use and one to a disk that is not there.
-/

set_option autoImplicit false

namespace Ence360.Xv6.Bio

open Semantics

section Disk

variable {Data Session : Type} {state : State Data Session} {b : Index}

/-- The disk after the data of a buffer are written. -/
def written (state : State Data Session) (b : Index) : UInt32 → UInt32 → Data :=
  Function.update state.disk (drive (state.buf b).dev)
    (Function.update (state.disk (drive (state.buf b).dev)) (state.buf b).blockno
      (state.buf b).data)

theorem written_self : written state b (drive (state.buf b).dev) (state.buf b).blockno =
    (state.buf b).data := by
  rw [written, Function.update_self, Function.update_self]

theorem written_of_ne {unit blockno : UInt32}
    (other : drive (state.buf b).dev = unit → (state.buf b).blockno ≠ blockno) :
    written state b unit blockno = state.disk unit blockno := by
  rw [written]
  rcases eq_or_ne unit (drive (state.buf b).dev) with rfl | different
  · rw [Function.update_self, Function.update_of_ne (other rfl).symm]
  · rw [Function.update_of_ne different]

theorem idestart_eq (inRange : (state.buf b).blockno < fssize) :
    idestart state b =
      { state with disk := if (state.buf b).dirty then written state b else state.disk } := by
  rw [idestart, if_neg (UInt32.not_le.mpr inRange)]
  split <;> rfl

/-- The disk when the first request of a queue is started. -/
def start (state : State Data Session) : List Index → UInt32 → UInt32 → Data
  | [] => state.disk
  | b :: _ => if (state.buf b).dirty then written state b else state.disk

variable [DecidableEq Session] {i : Session}

theorem iderw_eq {havedisk1 : Bool} (owned : (state.buf b).lock = some i)
    (todo : (state.buf b).valid = true → (state.buf b).dirty = true)
    (present : (state.buf b).dev ≠ 0 → havedisk1 = true)
    (inRange : (state.buf b).blockno < fssize) (absent : b ∉ state.idequeue) :
    iderw havedisk1 state i b =
      { state with
        idequeue := state.idequeue ++ [b]
        phase := Function.update state.phase i (.io b)
        disk := if state.idequeue = [] then start state [b] else state.disk } := by
  have work : ¬ ((state.buf b).valid = true ∧ ¬ (state.buf b).dirty = true) :=
    fun idle => idle.2 (todo idle.1)
  have found : ¬ ((state.buf b).dev ≠ 0 ∧ ¬ havedisk1 = true) :=
    fun missing => missing.2 (present missing.1)
  rw [iderw, if_neg (not_not.mpr owned), if_neg work, if_neg found]
  by_cases empty : state.idequeue = []
  · have head : (state.idequeue ++ [b]).head? = some b := by simp [empty]
    refine (if_pos head).trans ?_
    rw [if_pos empty]
    exact idestart_eq inRange
  · have head : (state.idequeue ++ [b]).head? ≠ some b := by
      rw [List.head?_append_of_ne_nil _ empty]
      exact fun first => absent (List.mem_of_mem_head? first)
    refine (if_neg head).trans ?_
    rw [if_neg empty]
    rfl

theorem iderw_missing (owned : (state.buf b).lock = some i)
    (todo : (state.buf b).valid = true → (state.buf b).dirty = true)
    (other : (state.buf b).dev ≠ 0) : iderw false state i b = state.panic .noDisk1 := by
  have work : ¬ ((state.buf b).valid = true ∧ ¬ (state.buf b).dirty = true) :=
    fun idle => idle.2 (todo idle.1)
  rw [iderw, if_neg (not_not.mpr owned), if_neg work, if_pos ⟨other, Bool.false_ne_true⟩]

omit [DecidableEq Session] in
theorem ideintr_eq {queue : List Index} (ready : Bool) (absent : b ∉ queue)
    (inRange : ∀ c ∈ queue, (state.buf c).blockno < fssize) :
    ideintr state b queue ready =
      { state with
        idequeue := queue
        buf := Function.update state.buf b (answered state b ready)
        disk := start state queue } := by
  cases queue with
  | nil => rfl
  | cons first rest =>
      have other : first ≠ b := by
        rintro rfl
        exact absent List.mem_cons_self
      have same : ∀ buf, Function.update state.buf b buf first = state.buf first :=
        fun buf => Function.update_of_ne other _ _
      refine (idestart_eq ?_).trans ?_
      · rw [setBuf_buf, same]
        exact inRange first List.mem_cons_self
      · simp only [start, written, setBuf_buf, setBuf_disk, same]
        rfl

end Disk

section Invariant

variable {Data Session : Type} {state next : State Data Session} {i : Session} {b : Index}

structure Queued (state : State Data Session) : Prop where
  holding : ∀ i b stored, state.phase i = .holding b stored → (state.buf b).valid = true
  dirty : ∀ b, (state.buf b).dirty = true → (state.buf b).valid = true
  nodup : state.idequeue.Nodup
  queued : ∀ b ∈ state.idequeue, (∃ i, state.phase i = .io b) ∧
    ((state.buf b).valid = true → (state.buf b).dirty = true)
  asleep : ∀ i b, state.phase i = .io b → b ∈ state.idequeue ∨
    (state.buf b).valid = true ∧ (state.buf b).dirty = false
  started : ∀ b, state.idequeue.head? = some b → (state.buf b).dirty = true →
    state.disk (drive (state.buf b).dev) (state.buf b).blockno = (state.buf b).data

/-- The buffers that are in use or have data are of blocks that were asked for, on
one of the devices and within its size. -/
def Ranged (devices : UInt32 → Prop) (state : State Data Session) : Prop :=
  ∀ b, (state.buf b).valid = true ∨ (state.buf b).refcnt ≠ 0 →
    devices (state.buf b).dev ∧ (state.buf b).blockno < fssize

/-- Two buffers that are the same but for references and lock. -/
structure SameBlock (buf other : Buf Data Session) : Prop where
  valid : buf.valid = other.valid
  dirty : buf.dirty = other.dirty
  dev : buf.dev = other.dev
  blockno : buf.blockno = other.blockno
  data : buf.data = other.data

theorem SameBlock.refl (buf : Buf Data Session) : SameBlock buf buf :=
  ⟨rfl, rfl, rfl, rfl, rfl⟩

theorem sameBlock_update {buf : Buf Data Session} (same : SameBlock buf (state.buf b))
    (c : Index) : SameBlock (Function.update state.buf b buf c) (state.buf c) := by
  rcases eq_or_ne c b with rfl | other
  · rwa [Function.update_self]
  · rw [Function.update_of_ne other]
    exact .refl _

/-- Steps that leave the data, the disk and its queue alone. -/
theorem Queued.frame (queued : Queued state) (idequeue : next.idequeue = state.idequeue)
    (disk : next.disk = state.disk) (kept : ∀ b, SameBlock (next.buf b) (state.buf b))
    (io : ∀ i b, next.phase i = .io b ↔ state.phase i = .io b)
    (holding : ∀ i b stored, next.phase i = .holding b stored →
      (∃ before, state.phase i = .holding b before) ∨ (state.buf b).valid = true) :
    Queued next where
  holding i b stored held := by
    rw [(kept b).valid]
    rcases holding i b stored held with ⟨before, held⟩ | valid
    · exact queued.holding i b before held
    · exact valid
  dirty b := by
    rw [(kept b).valid, (kept b).dirty]
    exact queued.dirty b
  nodup := by
    rw [idequeue]
    exact queued.nodup
  queued b := by
    rw [idequeue, (kept b).valid, (kept b).dirty]
    simp only [io]
    exact queued.queued b
  asleep i b := by
    rw [idequeue, (kept b).valid, (kept b).dirty, io]
    exact queued.asleep i b
  started b := by
    rw [idequeue, disk, (kept b).dirty, (kept b).dev, (kept b).blockno, (kept b).data]
    exact queued.started b

theorem Queued.panic (queued : Queued state) (panic : Panic) : Queued (state.panic panic) :=
  ⟨queued.holding, queued.dirty, queued.nodup, queued.queued, queued.asleep, queued.started⟩

theorem Queued.used [Fintype Session] (queued : Queued state) (counted : Counted state)
    (member : b ∈ state.idequeue) : (state.buf b).refcnt ≠ 0 := by
  obtain ⟨⟨i, asleep⟩, -⟩ := queued.queued b member
  have uses : (state.phase i).uses = some b := by
    rw [asleep]
    rfl
  exact counted.refcnt_ne_zero uses

/-- The requests after the one that is served. -/
theorem Queued.rest [Fintype Session] {devices : UInt32 → Prop} (queued : Queued state)
    (counted : Counted state) (ranged : Ranged devices state) {rest : List Index}
    (queue : state.idequeue = b :: rest) :
    b ∉ rest ∧ rest.Nodup ∧ (∀ c ∈ rest, c ∈ state.idequeue) ∧
      ∀ c ∈ rest, (state.buf c).blockno < fssize := by
  have nodup := queued.nodup
  rw [queue] at nodup
  obtain ⟨absent, nodup⟩ := List.nodup_cons.mp nodup
  have member : ∀ c ∈ rest, c ∈ state.idequeue := by
    intro c member
    rw [queue]
    exact List.mem_cons_of_mem _ member
  exact ⟨absent, nodup, member,
    fun c waits => (ranged c (.inr (queued.used counted (member c waits)))).2⟩

/-- A buffer whose session is not asleep in `iderw` is not in the queue. -/
theorem Queued.not_mem [Fintype Session] (queued : Queued state) (counted : Counted state)
    (locks : (state.phase i).locks = some b) (awake : state.phase i ≠ .io b) :
    b ∉ state.idequeue := by
  intro member
  obtain ⟨⟨j, asleep⟩, -⟩ := queued.queued b member
  have same : i = j := counted.same_session locks (by rw [asleep]; rfl)
  rw [same] at awake
  exact awake asleep

end Invariant

section Steps

variable {Data Session : Type} [DecidableEq Session] {state : State Data Session} {i : Session}
  {b : Index} {dev blockno : UInt32}

/-- A session that neither sleeps in `iderw` nor will, takes or gives up a buffer. -/
theorem Queued.move (queued : Queued state) {next : State Data Session} {changed : Phase}
    (awake : ∀ b, state.phase i ≠ .io b) (stays : ∀ b, changed ≠ .io b)
    (holding : ∀ b stored, changed = .holding b stored → (state.buf b).valid = true)
    (phase : next.phase = Function.update state.phase i changed)
    (idequeue : next.idequeue = state.idequeue) (disk : next.disk = state.disk)
    (kept : ∀ b, SameBlock (next.buf b) (state.buf b)) : Queued next := by
  refine queued.frame idequeue disk kept ?_ ?_
  · intro j c
    rw [phase]
    rcases eq_or_ne j i with rfl | other
    · rw [Function.update_self]
      exact iff_of_false (stays c) (awake c)
    · rw [Function.update_of_ne other]
  · intro j c stored held
    rw [phase] at held
    rcases eq_or_ne j i with rfl | other
    · rw [Function.update_self] at held
      exact .inr (holding c stored held)
    · rw [Function.update_of_ne other] at held
      exact .inl ⟨stored, held⟩

theorem queued_hit (queued : Queued state) (idle : state.phase i = .idle) :
    Queued (hit state i b) := by
  refine queued.move (by simp [idle]) (by simp) (by simp) rfl rfl rfl
    fun c => sameBlock_update ?_ c
  exact ⟨rfl, rfl, rfl, rfl, rfl⟩

theorem queued_acquiresleep (queued : Queued state) (waiting : state.phase i = .waiting b) :
    Queued (acquiresleep state i b) := by
  refine queued.move (by simp [waiting]) (by simp) (by simp) rfl rfl rfl
    fun c => sameBlock_update ?_ c
  exact ⟨rfl, rfl, rfl, rfl, rfl⟩

theorem queued_brelse (queued : Queued state) (releasing : state.phase i = .releasing b) :
    Queued (brelse state i b) := by
  obtain ⟨idequeue, disk, -⟩ := brelse_rest state b i
  refine queued.move (by simp [releasing]) (by simp) (by simp) (brelse_phase state b i) idequeue
    disk fun c => ?_
  rw [brelse_buf]
  refine sameBlock_update ?_ c
  exact ⟨rfl, rfl, rfl, rfl, rfl⟩

/-- A session wakes with a buffer that is ready. -/
theorem queued_wake (queued : Queued state) (asleep : state.phase i = .io b)
    (valid : (state.buf b).valid = true) (clean : (state.buf b).dirty = false) :
    Queued (state.setPhase i (.holding b false)) := by
  have absent : b ∉ state.idequeue := by
    intro member
    rw [(queued.queued b member).2 valid] at clean
    cases clean
  have phases : ∀ j c, (state.setPhase i (.holding b false)).phase j = .io c ↔
      j ≠ i ∧ state.phase j = .io c := by
    intro j c
    rcases eq_or_ne j i with rfl | other
    · simp
    · simp [other]
  constructor
  case holding =>
    intro j c stored held
    rcases eq_or_ne j i with rfl | other
    · rw [setPhase_phase, Function.update_self] at held
      cases held
      exact valid
    · rw [setPhase_phase, Function.update_of_ne other] at held
      exact queued.holding j c stored held
  case dirty => exact queued.dirty
  case nodup => exact queued.nodup
  case queued =>
    intro c member
    obtain ⟨⟨j, sleeping⟩, todo⟩ := queued.queued c member
    refine ⟨⟨j, (phases j c).mpr ⟨?_, sleeping⟩⟩, todo⟩
    rintro rfl
    rw [asleep] at sleeping
    cases sleeping
    exact absent member
  case asleep =>
    intro j c sleeping
    exact queued.asleep j c ((phases j c).mp sleeping).2
  case started => exact queued.started

variable [Fintype Session]

theorem queued_recycle (queued : Queued state) (counted : Counted state)
    (idle : state.phase i = .idle) (unused : Unused state b) :
    Queued (recycle state i b dev blockno) := by
  have elsewhere : ∀ c ≠ b, (recycle state i b dev blockno).buf c = state.buf c := by
    intro c other
    simp [recycle, other]
  have notUsed : ∀ j, (state.phase j).uses ≠ some b :=
    fun j uses => counted.refcnt_ne_zero uses unused.1
  have phases : ∀ j c, (recycle state i b dev blockno).phase j = .io c ↔
      state.phase j = .io c := by
    intro j c
    rcases eq_or_ne j i with rfl | other
    · simp [recycle, idle]
    · simp [recycle, other]
  have absent : b ∉ state.idequeue := by
    intro member
    obtain ⟨⟨j, asleep⟩, -⟩ := queued.queued b member
    exact notUsed j (by rw [asleep]; rfl)
  constructor
  case holding =>
    intro j c stored held
    rcases eq_or_ne j i with rfl | other
    · simp [recycle] at held
    · simp only [recycle, setPhase_phase, setBuf_phase, Function.update_of_ne other] at held
      have different : c ≠ b := by
        rintro rfl
        exact notUsed j (by rw [held]; rfl)
      rw [elsewhere c different]
      exact queued.holding j c stored held
  case dirty =>
    intro c isDirty
    rcases eq_or_ne c b with rfl | other
    · simp [recycle] at isDirty
    · rw [elsewhere c other] at isDirty ⊢
      exact queued.dirty c isDirty
  case nodup => exact queued.nodup
  case queued =>
    intro c member
    have other : c ≠ b := fun same => absent (same ▸ member)
    rw [elsewhere c other]
    simp only [phases]
    exact queued.queued c member
  case asleep =>
    intro j c asleep
    rw [phases] at asleep
    have other : c ≠ b := by
      rintro rfl
      exact notUsed j (by rw [asleep]; rfl)
    rw [elsewhere c other]
    exact queued.asleep j c asleep
  case started =>
    intro c head
    have other : c ≠ b := by
      rintro rfl
      exact absent (List.mem_of_mem_head? head)
    rw [elsewhere c other]
    exact queued.started c head

theorem queued_releasesleep (queued : Queued state) (counted : Counted state) {stored : Bool}
    (holding : state.phase i = .holding b stored) : Queued (releasesleep state i b) := by
  rw [releasesleep_eq counted holding]
  refine queued.move (by simp [holding]) (by simp) (by simp) rfl rfl rfl
    fun c => sameBlock_update ?_ c
  exact ⟨rfl, rfl, rfl, rfl, rfl⟩

omit [DecidableEq Session] in
/-- The session of a buffer in use changes it without the disk. -/
theorem Queued.change (queued : Queued state) (counted : Counted state)
    (locks : (state.phase i).locks = some b) (awake : state.phase i ≠ .io b)
    {buf : Buf Data Session} (valid : buf.valid = true) :
    Queued (state.setBuf b buf) := by
  have absent := queued.not_mem counted locks awake
  have elsewhere : ∀ c ≠ b, (state.setBuf b buf).buf c = state.buf c := by
    intro c other
    rw [setBuf_buf, Function.update_of_ne other]
  have here : ((state.setBuf b buf).buf b).valid = true := by
    rw [setBuf_buf, Function.update_self, valid]
  constructor
  case holding =>
    intro j c stored held
    rcases eq_or_ne c b with rfl | other
    · exact here
    · rw [elsewhere c other]
      exact queued.holding j c stored held
  case dirty =>
    intro c isDirty
    rcases eq_or_ne c b with rfl | other
    · exact here
    · rw [elsewhere c other] at isDirty ⊢
      exact queued.dirty c isDirty
  case nodup => exact queued.nodup
  case queued =>
    intro c member
    have other : c ≠ b := fun same => absent (same ▸ member)
    rw [elsewhere c other]
    exact queued.queued c member
  case asleep =>
    intro j c asleep
    rw [setBuf_phase] at asleep
    have other : c ≠ b := by
      rintro rfl
      have same : i = j := counted.same_session locks (by rw [asleep]; rfl)
      rw [same] at awake
      exact awake asleep
    rw [elsewhere c other]
    exact queued.asleep j c asleep
  case started =>
    intro c head
    have other : c ≠ b := by
      rintro rfl
      exact absent (List.mem_of_mem_head? head)
    rw [elsewhere c other]
    exact queued.started c head

theorem queued_iderw {havedisk1 : Bool} (queued : Queued state) (counted : Counted state)
    (locks : (state.phase i).locks = some b) (awake : state.phase i ≠ .io b)
    (todo : (state.buf b).valid = true → (state.buf b).dirty = true)
    (present : (state.buf b).dev ≠ 0 → havedisk1 = true)
    (inRange : (state.buf b).blockno < fssize) : Queued (iderw havedisk1 state i b) := by
  have absent := queued.not_mem counted locks awake
  rw [iderw_eq ((counted.lock i b).mpr locks) todo present inRange absent]
  have notOther : ∀ c, state.phase i ≠ .io c := by
    intro c asleep
    rw [asleep] at locks awake
    cases locks
    exact awake rfl
  constructor
  case holding =>
    intro j c stored held
    rcases eq_or_ne j i with rfl | other
    · simp at held
    · simp only [Function.update_of_ne other] at held
      exact queued.holding j c stored held
  case dirty => exact queued.dirty
  case nodup =>
    have longer := queued.nodup.concat absent
    rwa [List.concat_eq_append] at longer
  case queued =>
    intro c member
    rcases List.mem_append.mp member with member | member
    · obtain ⟨⟨j, sleeping⟩, todo⟩ := queued.queued c member
      refine ⟨⟨j, ?_⟩, todo⟩
      have other : j ≠ i := by
        rintro rfl
        exact notOther c sleeping
      simp only [Function.update_of_ne other]
      exact sleeping
    · rw [List.mem_singleton.mp member]
      exact ⟨⟨i, by simp⟩, todo⟩
  case asleep =>
    intro j c sleeping
    rcases eq_or_ne j i with rfl | other
    · simp only [Function.update_self, Phase.io.injEq] at sleeping
      rw [← sleeping]
      exact .inl (List.mem_append_right _ List.mem_cons_self)
    · simp only [Function.update_of_ne other] at sleeping
      rcases queued.asleep j c sleeping with member | ready
      · exact .inl (List.mem_append_left _ member)
      · exact .inr ready
  case started =>
    intro c head isDirty
    by_cases empty : state.idequeue = []
    · simp only [empty, List.nil_append, List.head?_cons, Option.some.injEq] at head
      subst head
      simp only [if_pos empty, start]
      rw [if_pos isDirty]
      exact written_self
    · simp only [if_neg empty]
      rw [List.head?_append_of_ne_nil _ empty] at head
      exact queued.started c head isDirty

omit [DecidableEq Session] in
theorem queued_ideintr {devices : UInt32 → Prop} (queued : Queued state)
    (counted : Counted state) (ranged : Ranged devices state) {rest : List Index} (ready : Bool)
    (queue : state.idequeue = b :: rest) : Queued (ideintr state b rest ready) := by
  obtain ⟨absent, nodup, member, inRange⟩ := queued.rest counted ranged queue
  rw [ideintr_eq ready absent inRange]
  constructor
  case holding =>
    intro j c stored held
    rcases eq_or_ne c b with rfl | other
    · simp [answered]
    · simp only [Function.update_of_ne other]
      exact queued.holding j c stored held
  case dirty =>
    intro c isDirty
    rcases eq_or_ne c b with rfl | other
    · simp [answered]
    · simp only [Function.update_of_ne other] at isDirty ⊢
      exact queued.dirty c isDirty
  case nodup => exact nodup
  case queued =>
    intro c waits
    have other : c ≠ b := fun same => absent (same ▸ waits)
    simp only [Function.update_of_ne other]
    exact queued.queued c (member c waits)
  case asleep =>
    intro j c asleep
    rcases eq_or_ne c b with rfl | other
    · simp [answered]
    · simp only [Function.update_of_ne other]
      rcases queued.asleep j c asleep with waits | ready
      · rw [queue] at waits
        rcases List.mem_cons.mp waits with same | waits
        · exact absurd same other
        · exact .inl waits
      · exact .inr ready
  case started =>
    intro c head isDirty
    cases rest with
    | nil => cases head
    | cons first rest =>
        obtain rfl : first = c := by simpa using head
        have other : first ≠ b := fun same => absent (same ▸ List.mem_cons_self)
        simp only [Function.update_of_ne other] at isDirty ⊢
        simp only [start]
        rw [if_pos isDirty]
        exact written_self

end Steps

section Kept

variable {Data Session : Type} {state next : State Data Session} {devices : UInt32 → Prop}
  {b : Index}

theorem Ranged.same (ranged : Ranged devices state) (buf : next.buf = state.buf) :
    Ranged devices next := by
  intro b
  rw [buf]
  exact ranged b

theorem Ranged.update (ranged : Ranged devices state) {buf : Buf Data Session}
    (changed : next.buf = Function.update state.buf b buf)
    (asked : buf.valid = true ∨ buf.refcnt ≠ 0 → devices buf.dev ∧ buf.blockno < fssize) :
    Ranged devices next := by
  intro c
  rw [changed]
  rcases eq_or_ne c b with rfl | other
  · rw [Function.update_self]
    exact asked
  · rw [Function.update_of_ne other]
    exact ranged c

/-- A buffer keeps its block, and is not put to use. -/
theorem Ranged.setBuf (ranged : Ranged devices state) {buf : Buf Data Session}
    (changed : next.buf = Function.update state.buf b buf) (dev : buf.dev = (state.buf b).dev)
    (blockno : buf.blockno = (state.buf b).blockno)
    (used : buf.valid = true ∨ buf.refcnt ≠ 0 →
      (state.buf b).valid = true ∨ (state.buf b).refcnt ≠ 0) : Ranged devices next := by
  refine ranged.update changed fun inUse => ?_
  rw [dev, blockno]
  exact ranged b (used inUse)

variable [Fintype Session]

structure Kept (devices : UInt32 → Prop) (state : State Data Session) : Prop where
  counted : Counted state
  queued : Queued state
  ranged : Ranged devices state

theorem Kept.inRange (kept : Kept devices state) {i : Session}
    (locks : (state.phase i).locks = some b) :
    devices (state.buf b).dev ∧ (state.buf b).blockno < fssize :=
  kept.ranged b (.inr (kept.counted.refcnt_ne_zero (Phase.uses_of_locks locks)))

/-- The holder of a buffer changes its data or marks it. -/
theorem Kept.change (kept : Kept devices state) {i : Session} {stored : Bool}
    (holding : state.phase i = .holding b stored) {buf : Buf Data Session}
    (valid : buf.valid = (state.buf b).valid) (dev : buf.dev = (state.buf b).dev)
    (blockno : buf.blockno = (state.buf b).blockno) (refcnt : buf.refcnt = (state.buf b).refcnt)
    (lock : buf.lock = (state.buf b).lock) : Kept devices (state.setBuf b buf) where
  counted := kept.counted.setBuf dev blockno refcnt lock
  queued := by
    refine kept.queued.change kept.counted (i := i) (by rw [holding]; rfl) (by simp [holding]) ?_
    rw [valid]
    exact kept.queued.holding i b stored holding
  ranged := kept.ranged.setBuf rfl dev blockno (by rw [valid, refcnt]; exact id)

variable [DecidableEq Session] {havedisk1 : Bool}

/-- Blocks are asked for on one of the devices and within its size. -/
def Action.Asks (devices : UInt32 → Prop) : Action Data Session → Prop
  | .bget _ dev blockno => devices dev ∧ blockno < fssize
  | _ => True

theorem Kept.ranged_step (kept : Kept devices state) {action : Action Data Session}
    (asks : action.Asks devices) (stepped : Transition havedisk1 state action next) :
    Ranged devices next := by
  have ranged := kept.ranged
  cases stepped with
  | @bget i dev blockno idle =>
      obtain ⟨order, represents, all⟩ := kept.counted.ring
      obtain ⟨b, cached, same⟩ | ⟨_, b, _, _, _, _, _, same⟩ | ⟨_, _, same⟩ :=
        bget_cases represents all i dev blockno
      all_goals rw [same]
      · have asked : devices (state.buf b).dev ∧ (state.buf b).blockno < fssize := by
          rw [cached.1, cached.2]
          exact asks
        exact ranged.update rfl fun _ => asked
      · exact ranged.update rfl fun _ => asks
      · exact ranged.same rfl
  | acquiresleep waiting free => exact ranged.setBuf rfl rfl rfl id
  | @bread i b locked =>
      rw [bread]
      split
      · exact ranged.same rfl
      · exact ranged.same (iderw_frame havedisk1 state i b).1
  | @ideintr b rest ready queue =>
      have used : (state.buf b).refcnt ≠ 0 := by
        refine kept.queued.used kept.counted ?_
        rw [queue]
        exact List.mem_cons_self
      exact ranged.setBuf (ideintr_frame state b rest ready).1 rfl rfl fun _ => .inr used
  | wake => exact ranged.same rfl
  | store => exact ranged.setBuf rfl rfl rfl id
  | mark => exact ranged.setBuf rfl rfl rfl id
  | @bwrite i b stored holding =>
      rw [bwrite]
      split
      · exact ranged.same rfl
      · exact ranged.setBuf (iderw_frame havedisk1 _ i b).1 rfl rfl id
  | releasesleep holding =>
      rw [releasesleep_eq kept.counted holding]
      exact ranged.setBuf rfl rfl rfl id
  | @brelse i b releasing =>
      refine ranged.setBuf (brelse_buf state b i) rfl rfl ?_
      refine Or.imp_right fun used => ?_
      dsimp only at used
      omega

/-- All buffers are in use. -/
def Full (state : State Data Session) : Prop :=
  state.panicked = some .noBuffers ∧ ∀ b, ¬ Unused state b

/-- A session has asked a disk that is not there. -/
def Missing (havedisk1 : Bool) (state : State Data Session) : Prop :=
  state.panicked = some .noDisk1 ∧ havedisk1 = false ∧
    ∃ i b, (state.phase i).locks = some b ∧ (state.buf b).dev ≠ 0

theorem Kept.iderw (kept : Kept devices state) {i : Session}
    (locks : (state.phase i).locks = some b) (awake : state.phase i ≠ .io b)
    (todo : (state.buf b).valid = true → (state.buf b).dirty = true) :
    Queued (iderw havedisk1 state i b) ∧
      ((Bio.iderw havedisk1 state i b).panicked = state.panicked ∨
        Missing havedisk1 (Bio.iderw havedisk1 state i b)) := by
  have owned := (kept.counted.lock i b).mpr locks
  have inRange := (kept.inRange locks).2
  by_cases present : (state.buf b).dev ≠ 0 → havedisk1 = true
  · have absent := kept.queued.not_mem kept.counted locks awake
    refine ⟨queued_iderw kept.queued kept.counted locks awake todo present inRange, .inl ?_⟩
    rw [iderw_eq owned todo present inRange absent]
  · obtain ⟨other, missing⟩ := Classical.not_imp.mp present
    obtain rfl : havedisk1 = false := Bool.eq_false_iff.mpr missing
    rw [iderw_missing owned todo other]
    exact ⟨kept.queued.panic .noDisk1, .inr ⟨rfl, rfl, i, b, locks, other⟩⟩

omit [Fintype Session] in
/-- A session has its buffer. -/
theorem Queued.hold (queued : Queued state) {i : Session} {stored : Bool}
    (locks : (state.phase i).locks = some b) (awake : state.phase i ≠ .io b)
    (valid : (state.buf b).valid = true) : Queued (state.setPhase i (.holding b stored)) := by
  refine queued.move ?_ (by simp) ?_ rfl rfl rfl fun c => .refl _
  · intro c asleep
    rw [asleep] at locks awake
    cases locks
    exact awake rfl
  · intro c other same
    cases same
    exact valid

theorem Kept.queued_step (kept : Kept devices state) {action : Action Data Session}
    (stepped : Transition havedisk1 state action next) :
    Queued next ∧ (next.panicked = state.panicked ∨ Full next ∨ Missing havedisk1 next) := by
  have counted := kept.counted
  have queued := kept.queued
  cases stepped with
  | @bget i dev blockno idle =>
      obtain ⟨order, represents, all⟩ := counted.ring
      obtain ⟨b, cached, same⟩ | ⟨_, b, _, _, _, unused, _, same⟩ | ⟨_, busy, same⟩ :=
        bget_cases represents all i dev blockno
      all_goals rw [same]
      · exact ⟨queued_hit queued idle, .inl rfl⟩
      · exact ⟨queued_recycle queued counted idle unused, .inl rfl⟩
      · exact ⟨queued.panic .noBuffers, .inr (.inl ⟨rfl, busy⟩)⟩
  | acquiresleep waiting free => exact ⟨queued_acquiresleep queued waiting, .inl rfl⟩
  | @bread i b locked =>
      have locks : (state.phase i).locks = some b := by
        rw [locked]
        rfl
      rw [bread]
      split
      · next valid => exact ⟨queued.hold locks (by simp [locked]) valid, .inl rfl⟩
      · next invalid =>
          refine (kept.iderw locks (by simp [locked]) fun valid => absurd valid invalid).imp_right
            (Or.imp_right .inr)
  | @ideintr b rest ready queue =>
      obtain ⟨absent, -, -, inRange⟩ := queued.rest counted kept.ranged queue
      refine ⟨queued_ideintr queued counted kept.ranged ready queue, .inl ?_⟩
      rw [ideintr_eq ready absent inRange]
  | wake asleep valid clean => exact ⟨queued_wake queued asleep valid clean, .inl rfl⟩
  | @store i b stored data holding =>
      have changed : Kept devices (state.setBuf b { state.buf b with data }) :=
        kept.change holding rfl rfl rfl rfl rfl
      refine ⟨changed.queued.hold (by simp [holding, Phase.locks]) (by simp [holding]) ?_,
        .inl rfl⟩
      simpa using queued.holding i b stored holding
  | @mark i b stored holding =>
      have changed : Kept devices (state.setBuf b { state.buf b with dirty := true }) :=
        kept.change holding rfl rfl rfl rfl rfl
      refine ⟨changed.queued.hold (by simp [holding, Phase.locks]) (by simp [holding]) ?_,
        .inl rfl⟩
      simpa using queued.holding i b stored holding
  | @bwrite i b stored holding =>
      have changed : Kept devices (state.setBuf b { state.buf b with dirty := true }) :=
        kept.change holding rfl rfl rfl rfl rfl
      rw [bwrite, if_neg (not_not.mpr (counted.owned holding))]
      exact (changed.iderw (i := i) (b := b) (by simp [holding, Phase.locks])
        (by simp [holding]) (by simp)).imp_right (Or.imp_right .inr)
  | releasesleep holding =>
      refine ⟨queued_releasesleep queued counted holding, .inl ?_⟩
      rw [releasesleep_eq counted holding]
      rfl
  | brelse releasing => exact ⟨queued_brelse queued releasing, .inl (brelse_rest _ _ _).2.2⟩

theorem Kept.step (kept : Kept devices state) {action : Action Data Session}
    (asks : action.Asks devices) (stepped : Transition havedisk1 state action next) :
    Kept devices next where
  counted := kept.counted.step stepped
  queued := (kept.queued_step stepped).1
  ranged := kept.ranged_step asks stepped

omit [DecidableEq Session] in
theorem kept_initial (devices : UInt32 → Prop) (zero : Data) (links : Links Index)
    (disk : UInt32 → UInt32 → Data) :
    Kept devices (initial zero links disk : State Data Session) where
  counted := counted_initial zero links disk
  queued := by
    constructor
    case nodup => exact List.nodup_nil
    all_goals simp [initial, blank]
  ranged b used := by simp [initial, blank] at used

end Kept

section Runs

variable {Data Session : Type} [DecidableEq Session] [Fintype Session]
  {state : State Data Session} {havedisk1 : Bool}

/-- Blocks are asked for within the size of a file system. -/
def Action.InRange : Action Data Session → Prop
  | .bget _ _ blockno => blockno < fssize
  | _ => True

omit [DecidableEq Session] [Fintype Session] in
theorem Action.InRange.asks {action : Action Data Session} (inRange : action.InRange) :
    action.Asks fun _ => True := by
  cases action with
  | bget => exact ⟨trivial, inRange⟩
  | acquiresleep | bread | ideintr | wake | store | mark | bwrite | releasesleep | brelse =>
      trivial

/-- The invariant of all runs. -/
theorem kept_of_run {zero : Data} {start : State Data Session}
    {events : List (State Data Session × Action Data Session)}
    (initial : (system havedisk1 zero).initial start)
    (run : (system havedisk1 zero).Run start events state)
    (inRange : ∀ event ∈ events, event.2.InRange) :
    Kept (fun _ => True) state ∧
      (state.panicked = none ∨ Full state ∨ Missing havedisk1 state) := by
  refine run.preserves_under (fun _ action => action.InRange)
    (fun state => Kept (fun _ => True) state ∧
      (state.panicked = none ∨ Full state ∨ Missing havedisk1 state)) ?_ inRange ?_
  · rintro state action next ⟨kept, -⟩ inRange stepped
    obtain ⟨calm, transition⟩ := transition_of_system_step stepped
    have panicked := (kept.queued_step transition).2
    rw [calm] at panicked
    exact ⟨kept.step inRange.asks transition, panicked⟩
  · obtain ⟨links, disk, rfl⟩ := initial
    exact ⟨kept_initial _ zero links disk, .inl rfl⟩

structure Safe (havedisk1 : Bool) (state : State Data Session) : Prop where
  /-- A block has one buffer. -/
  unique : ∀ a b, (state.buf a).dev ≠ 0 → (state.buf a).dev = (state.buf b).dev →
    (state.buf a).blockno = (state.buf b).blockno → a = b
  refcnt : ∀ b, (state.buf b).refcnt = users state.phase b
  /-- A buffer has one session at a time. -/
  exclusive : ∀ i j b, (state.phase i).locks = some b → (state.phase j).locks = some b → i = j
  asleep : ∀ i b, state.phase i = .io b → b ∈ state.idequeue ∨
    (state.buf b).valid = true ∧ (state.buf b).dirty = false
  panicked : state.panicked = none ∨
    (state.panicked = some .noBuffers ∧
      ∀ b, (state.buf b).refcnt ≠ 0 ∨ (state.buf b).dirty = true) ∨
    Missing havedisk1 state

/-- Nothing goes wrong but a request for a block when all the buffers are in use, or
one to a disk that is not there. -/
theorem cache_safe {zero : Data} {start : State Data Session}
    {events : List (State Data Session × Action Data Session)}
    (initial : (system havedisk1 zero).initial start)
    (run : (system havedisk1 zero).Run start events state)
    (inRange : ∀ event ∈ events, event.2.InRange) : Safe havedisk1 state := by
  obtain ⟨⟨counted, queued, -⟩, panicked⟩ := kept_of_run initial run inRange
  refine ⟨counted.unique, counted.refcnt, fun i j b => counted.same_session, queued.asleep, ?_⟩
  refine panicked.imp_right (Or.imp_left fun ⟨same, busy⟩ => ⟨same, fun b => ?_⟩)
  have inUse := busy b
  rw [Unused] at inUse
  rcases Nat.eq_zero_or_pos (state.buf b).refcnt with zero | used
  · exact .inr (by simpa [zero] using inUse)
  · exact .inl (by omega)

/-- Two sessions have asked for blocks that must be read, and the first answer has
come. Without the disk the first of them is the last thing that happens. -/
theorem cache_safe_request :
    let start : State ℕ Bool := initial 0 ⟨fun _ => none, fun _ => none⟩ fun _ _ => 0
    (∃ events state a b, (system true 0).Run start events state ∧ state.phase false = .io a ∧
      state.phase true = .io b ∧ state.idequeue = [b] ∧ Safe true state) ∧
    ∃ events state, (system false 0).Run start events state ∧
      state.panicked = some .noDisk1 ∧ Safe false state := by
  intro start
  have small : (2 : UInt32) < fssize ∧ (3 : UInt32) < fssize := by decide
  constructor
  · let actions : List (Action ℕ Bool) :=
      [.bget false 1 2, .bget true 1 3, .acquiresleep true, .acquiresleep false, .bread false,
        .bread true, .ideintr true]
    have reached : ((system true 0).execute start actions).map (fun state =>
        (state.phase false, state.phase true, state.idequeue)) =
        some (.io ⟨0, by decide⟩, .io ⟨1, by decide⟩, [⟨1, by decide⟩]) := by decide +kernel
    obtain ⟨state, executed, facts⟩ := Option.map_eq_some_iff.mp reached
    obtain ⟨events, labels, run⟩ := System.run_of_execute executed
    simp only [Prod.mk.injEq] at facts
    obtain ⟨first, second, queue⟩ := facts
    have all : ∀ action ∈ actions, action.InRange := by
      simp [actions, Action.InRange, small]
    exact ⟨events, state, _, _, run, first, second, queue,
      cache_safe ⟨_, _, rfl⟩ run (List.forall_mem_map.mp (labels ▸ all))⟩
  · let actions : List (Action ℕ Bool) := [.bget false 1 2, .acquiresleep false, .bread false]
    have reached : ((system false 0).execute start actions).map (fun state => state.panicked) =
        some (some .noDisk1) := by decide +kernel
    obtain ⟨state, executed, panicked⟩ := Option.map_eq_some_iff.mp reached
    obtain ⟨events, labels, run⟩ := System.run_of_execute executed
    have all : ∀ action ∈ actions, action.InRange := by
      simp [actions, Action.InRange, small]
    exact ⟨events, state, run, panicked,
      cache_safe ⟨_, _, rfl⟩ run (List.forall_mem_map.mp (labels ▸ all))⟩

end Runs

end Ence360.Xv6.Bio
