import Ence360.Xv6.Bio
import Mathlib.Algebra.BigOperators.Group.Finset.Piecewise
import Mathlib.Data.Fintype.Card

/-!
# One buffer for a block

The references and the lock of a buffer are those of the sessions that use it, and
no block of a device is in two buffers. Neither the disk nor a panic has a part in
this.
-/

set_option autoImplicit false

namespace Ence360.Xv6.Bio

open Semantics

/-- The buffer of which a session has a reference. -/
def Phase.uses : Phase → Option Index
  | .idle => none
  | .waiting b | .locked b | .io b | .holding b _ | .releasing b => some b

/-- The buffer of which a session has the lock. -/
def Phase.locks : Phase → Option Index
  | .locked b | .io b | .holding b _ => some b
  | .idle | .waiting _ | .releasing _ => none

theorem Phase.uses_of_locks {phase : Phase} {b : Index} (locks : phase.locks = some b) :
    phase.uses = some b := by
  cases phase <;> first | exact locks | cases locks

section Projections

variable {Data Session : Type} (state : State Data Session) (b : Index)
  (buf : Buf Data Session) (i : Session) (phase : Phase)

@[simp] theorem setBuf_buf : (state.setBuf b buf).buf = Function.update state.buf b buf := rfl

@[simp] theorem setBuf_links : (state.setBuf b buf).links = state.links := rfl

@[simp] theorem setBuf_idequeue : (state.setBuf b buf).idequeue = state.idequeue := rfl

@[simp] theorem setBuf_disk : (state.setBuf b buf).disk = state.disk := rfl

@[simp] theorem setBuf_phase : (state.setBuf b buf).phase = state.phase := rfl

@[simp] theorem setBuf_panicked : (state.setBuf b buf).panicked = state.panicked := rfl

variable [DecidableEq Session]

@[simp] theorem setPhase_buf : (state.setPhase i phase).buf = state.buf := rfl

@[simp] theorem setPhase_links : (state.setPhase i phase).links = state.links := rfl

@[simp] theorem setPhase_idequeue : (state.setPhase i phase).idequeue = state.idequeue := rfl

@[simp] theorem setPhase_disk : (state.setPhase i phase).disk = state.disk := rfl

@[simp] theorem setPhase_phase :
    (state.setPhase i phase).phase = Function.update state.phase i phase := rfl

@[simp] theorem setPhase_panicked : (state.setPhase i phase).panicked = state.panicked := rfl

theorem brelse_buf : (brelse state i b).buf = Function.update state.buf b
    { state.buf b with refcnt := (state.buf b).refcnt - 1 } := by
  rw [brelse]
  dsimp only
  split <;> rfl

theorem brelse_phase : (brelse state i b).phase = Function.update state.phase i .idle := by
  rw [brelse]
  dsimp only
  split <;> rfl

theorem brelse_links : (brelse state i b).links =
    if (state.buf b).refcnt - 1 = 0 then (state.links.unlink b).pushFront b else state.links := by
  rw [brelse]
  dsimp only
  split <;> rfl

theorem brelse_rest : (brelse state i b).idequeue = state.idequeue ∧
    (brelse state i b).disk = state.disk ∧ (brelse state i b).panicked = state.panicked := by
  rw [brelse]
  dsimp only
  split <;> exact ⟨rfl, rfl, rfl⟩

/-- The first buffer of the queue after its interrupt. -/
def answered (ready : Bool) : Buf Data Session :=
  { state.buf b with
    data := if ¬ (state.buf b).dirty ∧ ready then
        state.disk (drive (state.buf b).dev) (state.buf b).blockno
      else (state.buf b).data
    valid := true
    dirty := false }

omit [DecidableEq Session] in
theorem idestart_frame : (idestart state b).buf = state.buf ∧
    (idestart state b).links = state.links ∧ (idestart state b).phase = state.phase := by
  rw [idestart]
  split
  · exact ⟨rfl, rfl, rfl⟩
  · split <;> exact ⟨rfl, rfl, rfl⟩

theorem iderw_frame (havedisk1 : Bool) (state : State Data Session) (i : Session) (b : Index) :
    (iderw havedisk1 state i b).buf = state.buf ∧
    (iderw havedisk1 state i b).links = state.links ∧
    ((iderw havedisk1 state i b).phase = state.phase ∨
      (iderw havedisk1 state i b).phase = Function.update state.phase i (.io b)) := by
  rw [iderw]
  dsimp only
  split
  · exact ⟨rfl, rfl, .inl rfl⟩
  · split
    · exact ⟨rfl, rfl, .inl rfl⟩
    · split
      · exact ⟨rfl, rfl, .inl rfl⟩
      · split
        · obtain ⟨buf, links, phase⟩ := idestart_frame
            ({ state with idequeue := state.idequeue ++ [b] }.setPhase i (.io b)) b
          exact ⟨buf, links, .inr phase⟩
        · exact ⟨rfl, rfl, .inr rfl⟩

omit [DecidableEq Session] in
theorem ideintr_frame (state : State Data Session) (b : Index) (rest : List Index)
    (ready : Bool) :
    (ideintr state b rest ready).buf = (state.setBuf b (answered state b ready)).buf ∧
    (ideintr state b rest ready).links = state.links ∧
    (ideintr state b rest ready).phase = state.phase := by
  cases rest with
  | nil => exact ⟨rfl, rfl, rfl⟩
  | cons next rest =>
      exact idestart_frame ({ state with idequeue := next :: rest }.setBuf b
        (answered state b ready)) next

end Projections

section Invariant

variable {Data Session : Type} [Fintype Session]

def users (phase : Session → Phase) (b : Index) : ℕ :=
  (Finset.univ.filter fun i => (phase i).uses = some b).card

structure Counted (state : State Data Session) : Prop where
  ring : ∃ order, state.links.Represents order ∧ ∀ b, b ∈ order
  unique : ∀ a b, (state.buf a).dev ≠ 0 → (state.buf a).dev = (state.buf b).dev →
    (state.buf a).blockno = (state.buf b).blockno → a = b
  refcnt : ∀ b, (state.buf b).refcnt = users state.phase b
  lock : ∀ i b, (state.buf b).lock = some i ↔ (state.phase i).locks = some b

variable {state next : State Data Session} {i j : Session} {b c : Index}

theorem users_pos {phase : Session → Phase} (uses : (phase i).uses = some b) :
    0 < users phase b :=
  Finset.card_pos.mpr ⟨i, Finset.mem_filter.mpr ⟨Finset.mem_univ i, uses⟩⟩

theorem Counted.refcnt_ne_zero (counted : Counted state) (uses : (state.phase i).uses = some b) :
    (state.buf b).refcnt ≠ 0 := by
  rw [counted.refcnt]
  exact Nat.pos_iff_ne_zero.mp (users_pos uses)

/-- Only one session at a time has a buffer. -/
theorem Counted.same_session (counted : Counted state) (first : (state.phase i).locks = some b)
    (second : (state.phase j).locks = some b) : i = j := by
  have locked := (counted.lock i b).mpr first
  rw [(counted.lock j b).mpr second] at locked
  exact (Option.some.inj locked).symm

/-- Steps that change neither the blocks of the buffers nor the references. -/
theorem Counted.frame (counted : Counted state) (links : next.links = state.links)
    (kept : ∀ b, (next.buf b).dev = (state.buf b).dev ∧
      (next.buf b).blockno = (state.buf b).blockno ∧
      (next.buf b).refcnt = (state.buf b).refcnt)
    (uses : ∀ i, (next.phase i).uses = (state.phase i).uses)
    (lock : ∀ i b, (next.buf b).lock = some i ↔ (next.phase i).locks = some b) :
    Counted next where
  ring := by
    rw [links]
    exact counted.ring
  unique a b := by
    obtain ⟨devA, blocknoA, -⟩ := kept a
    obtain ⟨devB, blocknoB, -⟩ := kept b
    rw [devA, devB, blocknoA, blocknoB]
    exact counted.unique a b
  refcnt b := by
    rw [(kept b).2.2, counted.refcnt, users, users]
    simp only [uses]
  lock := lock

variable [DecidableEq Session]

theorem users_update (phase : Session → Phase) (i : Session) (changed : Phase) (b : Index) :
    users (Function.update phase i changed) b + (if (phase i).uses = some b then 1 else 0) =
      users phase b + (if changed.uses = some b then 1 else 0) := by
  have split : ∀ phase : Session → Phase, users phase b =
      (if (phase i).uses = some b then 1 else 0) +
        ∑ j ∈ Finset.univ.erase i, if (phase j).uses = some b then 1 else 0 := by
    intro phase
    rw [users, Finset.card_filter]
    exact (Finset.add_sum_erase _ (fun j => if (phase j).uses = some b then 1 else 0)
      (Finset.mem_univ i)).symm
  have rest : (∑ j ∈ Finset.univ.erase i,
      if (Function.update phase i changed j).uses = some b then 1 else 0) =
        ∑ j ∈ Finset.univ.erase i, if (phase j).uses = some b then 1 else 0 := by
    refine Finset.sum_congr rfl fun j member => ?_
    rw [Function.update_of_ne (Finset.ne_of_mem_erase member)]
  rw [split (Function.update phase i changed), split phase, rest, Function.update_self]
  omega

end Invariant

section Requests

variable {Data Session : Type} [DecidableEq Session] {state next : State Data Session}
  {i : Session} {b : Index} {dev blockno : UInt32} {order : List Index}

def Cached (state : State Data Session) (dev blockno : UInt32) (b : Index) : Prop :=
  (state.buf b).dev = dev ∧ (state.buf b).blockno = blockno

def Unused (state : State Data Session) (b : Index) : Prop :=
  (state.buf b).refcnt = 0 ∧ (state.buf b).dirty = false

/-- `bget` for a block that has a buffer. -/
def hit (state : State Data Session) (i : Session) (b : Index) : State Data Session :=
  (state.setBuf b { state.buf b with refcnt := (state.buf b).refcnt + 1 }).setPhase i (.waiting b)

/-- `bget` for a block that is given a buffer. -/
def recycle (state : State Data Session) (i : Session) (b : Index) (dev blockno : UInt32) :
    State Data Session :=
  (state.setBuf b { state.buf b with
    dev, blockno, valid := false, dirty := false, refcnt := 1 }).setPhase i (.waiting b)

/-- What `bget` can do, with the order in which it looks at the buffers. -/
theorem bget_cases (represents : state.links.Represents order) (all : ∀ b, b ∈ order)
    (i : Session) (dev blockno : UInt32) :
    (∃ b, Cached state dev blockno b ∧ bget state i dev blockno = hit state i b) ∨
    (∃ before b after, order = before ++ b :: after ∧ (∀ c, ¬ Cached state dev blockno c) ∧
      Unused state b ∧ (∀ c ∈ after, ¬ Unused state c) ∧
      bget state i dev blockno = recycle state i b dev blockno) ∨
    ((∀ c, ¬ Cached state dev blockno c) ∧ (∀ c, ¬ Unused state c) ∧
      bget state i dev blockno = state.panic .noBuffers) := by
  have short : order.length ≤ nbuf := by
    have bounded := represents.nodup.length_le_card
    rwa [Fintype.card_fin] at bounded
  rw [bget]
  dsimp only
  rw [represents.segment.search_next short, represents.segment.search_prev short]
  cases cached : order.find? fun b =>
      (state.buf b).dev = dev ∧ (state.buf b).blockno = blockno with
  | some b =>
      have found : Cached state dev blockno b := by simpa [Cached] using List.find?_some cached
      exact .inl ⟨b, found, rfl⟩
  | none =>
      have absent : ∀ c, ¬ Cached state dev blockno c := by
        intro c found
        exact List.find?_eq_none.mp cached c (all c) (decide_eq_true found)
      cases unused : order.reverse.find? fun b =>
          (state.buf b).refcnt = 0 ∧ (state.buf b).dirty = false with
      | some b =>
          refine .inr (.inl ?_)
          obtain ⟨found, later, earlier, split, none⟩ := List.find?_eq_some_iff_append.mp unused
          have isUnused : Unused state b := by simpa [Unused] using found
          refine ⟨earlier.reverse, b, later.reverse, ?_, absent, isUnused, ?_, rfl⟩
          · have reversed := congrArg List.reverse split
            simpa using reversed
          · intro c member isUnused
            have skipped := none c (List.mem_reverse.mp member)
            simp only [Unused] at isUnused
            simp [isUnused] at skipped
      | none =>
          refine .inr (.inr ⟨absent, fun c isUnused => ?_, rfl⟩)
          exact List.find?_eq_none.mp unused c (List.mem_reverse.mpr (all c))
            (decide_eq_true isUnused)

end Requests

section Steps

variable {Data Session : Type} [DecidableEq Session] [Fintype Session]
  {state next : State Data Session} {i : Session} {b : Index} {dev blockno : UInt32}

theorem users_take (counted : Counted state) (idle : state.phase i = .idle) (b c : Index) :
    users (Function.update state.phase i (.waiting b)) c =
      (state.buf c).refcnt + if b = c then 1 else 0 := by
  have taken := users_update state.phase i (.waiting b) c
  rw [counted.refcnt]
  simp only [idle, Phase.uses, Option.some.injEq, reduceCtorEq, if_false] at taken
  omega

theorem users_drop (counted : Counted state) (releasing : state.phase i = .releasing b)
    (c : Index) :
    users (Function.update state.phase i .idle) c + (if b = c then 1 else 0) =
      (state.buf c).refcnt := by
  have dropped := users_update state.phase i .idle c
  rw [counted.refcnt]
  simp only [releasing, Phase.uses, Option.some.injEq, reduceCtorEq, if_false] at dropped
  omega

theorem counted_hit (counted : Counted state) (idle : state.phase i = .idle) :
    Counted (hit state i b) := by
  have kept : ∀ c, ((hit state i b).buf c).dev = (state.buf c).dev ∧
      ((hit state i b).buf c).blockno = (state.buf c).blockno ∧
      ((hit state i b).buf c).lock = (state.buf c).lock ∧
      ((hit state i b).buf c).refcnt = (state.buf c).refcnt + if b = c then 1 else 0 := by
    intro c
    rcases eq_or_ne c b with rfl | other
    · simp [hit]
    · simp [hit, other, other.symm]
  constructor
  case ring => exact counted.ring
  case unique =>
    intro a c
    rw [(kept a).1, (kept a).2.1, (kept c).1, (kept c).2.1]
    exact counted.unique a c
  case refcnt =>
    intro c
    rw [(kept c).2.2.2]
    exact (users_take counted idle b c).symm
  case lock =>
    intro j c
    rw [(kept c).2.2.1, counted.lock]
    rcases eq_or_ne j i with rfl | other
    · simp [hit, idle, Phase.locks]
    · simp [hit, other]

theorem counted_recycle (counted : Counted state) (idle : state.phase i = .idle)
    (absent : ∀ c, ¬ Cached state dev blockno c) (unused : Unused state b) :
    Counted (recycle state i b dev blockno) := by
  have here : (recycle state i b dev blockno).buf b = { state.buf b with
      dev, blockno, valid := false, dirty := false, refcnt := 1 } := by
    simp [recycle]
  have elsewhere : ∀ c ≠ b, (recycle state i b dev blockno).buf c = state.buf c := by
    intro c other
    simp [recycle, other]
  constructor
  case ring => exact counted.ring
  case unique =>
    intro a c
    rcases eq_or_ne a b with rfl | other
    · rcases eq_or_ne c a with rfl | different
      · exact fun _ _ _ => rfl
      · rw [here, elsewhere c different]
        exact fun _ sameDev sameBlock => absurd ⟨sameDev.symm, sameBlock.symm⟩ (absent c)
    · rcases eq_or_ne c b with rfl | different
      · rw [here, elsewhere a other]
        exact fun _ sameDev sameBlock => absurd ⟨sameDev, sameBlock⟩ (absent a)
      · rw [elsewhere a other, elsewhere c different]
        exact counted.unique a c
  case refcnt =>
    intro c
    have taken := users_take counted idle b c
    rcases eq_or_ne c b with rfl | other
    · rw [here]
      rw [unused.1, if_pos rfl] at taken
      exact taken.symm
    · rw [elsewhere c other]
      rw [if_neg other.symm] at taken
      exact taken.symm
  case lock =>
    intro j c
    have same : ((recycle state i b dev blockno).buf c).lock = (state.buf c).lock := by
      rcases eq_or_ne c b with rfl | other
      · rw [here]
      · rw [elsewhere c other]
    rw [same, counted.lock]
    rcases eq_or_ne j i with rfl | other
    · simp [recycle, idle, Phase.locks]
    · simp [recycle, other]

omit [DecidableEq Session] in
theorem counted_panic (counted : Counted state) (panic : Panic) : Counted (state.panic panic) :=
  ⟨counted.ring, counted.unique, counted.refcnt, counted.lock⟩

theorem counted_bget (counted : Counted state) (idle : state.phase i = .idle) :
    Counted (bget state i dev blockno) := by
  obtain ⟨order, represents, all⟩ := counted.ring
  obtain ⟨b, -, same⟩ | ⟨_, b, _, _, absent, unused, _, same⟩ | ⟨_, _, same⟩ :=
    bget_cases represents all i dev blockno
  all_goals rw [same]
  · exact counted_hit counted idle
  · exact counted_recycle counted idle absent unused
  · exact counted_panic counted .noBuffers

/-- The session of a buffer takes its lock or gives it up. -/
theorem Counted.relock (counted : Counted state) {changed : Phase} {lock : Option Session}
    (uses : changed.uses = (state.phase i).uses)
    (before : ∀ j, (state.buf b).lock = some j → j = i)
    (own : ∀ c, (state.phase i).locks = some c → c = b)
    (after : ∀ j, lock = some j → j = i)
    (locks : ∀ c, changed.locks = some c ↔ c = b ∧ lock = some i) :
    Counted ((state.setBuf b { state.buf b with lock }).setPhase i changed) := by
  refine counted.frame rfl ?_ ?_ ?_
  · intro c
    rcases eq_or_ne c b with rfl | other
    · simp
    · simp [other]
  · intro j
    rcases eq_or_ne j i with rfl | other
    · simp [uses]
    · simp [other]
  · intro j c
    simp only [setPhase_buf, setBuf_buf, setPhase_phase, setBuf_phase]
    rcases eq_or_ne j i with rfl | otherSession
    · rw [Function.update_self, locks]
      rcases eq_or_ne c b with rfl | other
      · simp
      · rw [Function.update_of_ne other]
        refine iff_of_false (fun held => other (own c ((counted.lock j c).mp held))) ?_
        exact fun same => other same.1
    · rw [Function.update_of_ne otherSession]
      rcases eq_or_ne c b with rfl | other
      · rw [Function.update_self]
        refine iff_of_false (fun held => otherSession (after j held)) fun held => ?_
        exact otherSession (before j ((counted.lock j c).mpr held))
      · rw [Function.update_of_ne other]
        exact counted.lock j c

theorem counted_acquiresleep (counted : Counted state) (waiting : state.phase i = .waiting b)
    (free : (state.buf b).lock = none) : Counted (acquiresleep state i b) := by
  refine counted.relock ?_ ?_ ?_ ?_ ?_
  · simp [waiting, Phase.uses]
  · simp [free]
  · simp [waiting, Phase.locks]
  · simp [eq_comm]
  · simp [Phase.locks, eq_comm]

omit [DecidableEq Session] in
theorem Counted.owned (counted : Counted state) {stored : Bool}
    (holding : state.phase i = .holding b stored) : (state.buf b).lock = some i := by
  rw [counted.lock, holding]
  rfl

theorem releasesleep_eq (counted : Counted state) {stored : Bool}
    (holding : state.phase i = .holding b stored) : releasesleep state i b =
      (state.setBuf b { state.buf b with lock := none }).setPhase i (.releasing b) := by
  rw [releasesleep, if_neg (not_not.mpr (counted.owned holding))]

theorem counted_releasesleep (counted : Counted state) {stored : Bool}
    (holding : state.phase i = .holding b stored) : Counted (releasesleep state i b) := by
  rw [releasesleep_eq counted holding]
  refine counted.relock ?_ ?_ ?_ ?_ ?_
  · simp [holding, Phase.uses]
  · simp [counted.owned holding, eq_comm]
  · simp [holding, Phase.locks, eq_comm]
  · simp
  · simp [Phase.locks]

theorem counted_brelse (counted : Counted state) (releasing : state.phase i = .releasing b) :
    Counted (brelse state i b) := by
  have kept : ∀ c, ((brelse state i b).buf c).dev = (state.buf c).dev ∧
      ((brelse state i b).buf c).blockno = (state.buf c).blockno ∧
      ((brelse state i b).buf c).lock = (state.buf c).lock ∧
      ((brelse state i b).buf c).refcnt = (state.buf c).refcnt - if b = c then 1 else 0 := by
    intro c
    rw [brelse_buf]
    rcases eq_or_ne c b with rfl | other
    · simp
    · simp [other, other.symm]
  constructor
  case ring =>
    rw [brelse_links]
    split
    · obtain ⟨order, represents, all⟩ := counted.ring
      obtain ⟨before, after, rfl⟩ := List.append_of_mem (all b)
      refine ⟨_, represents.moveFront, fun c => ?_⟩
      have member := all c
      simp only [List.mem_append, List.mem_cons] at member ⊢
      tauto
    · exact counted.ring
  case unique =>
    intro a c
    rw [(kept a).1, (kept a).2.1, (kept c).1, (kept c).2.1]
    exact counted.unique a c
  case refcnt =>
    intro c
    have dropped := users_drop counted releasing c
    rw [(kept c).2.2.2, brelse_phase]
    omega
  case lock =>
    intro j c
    rw [(kept c).2.2.1, counted.lock, brelse_phase]
    rcases eq_or_ne j i with rfl | other
    · simp [releasing, Phase.locks]
    · simp [other]

/-- A session goes on with the same buffer. -/
theorem Counted.setPhase (counted : Counted state) {changed : Phase}
    (uses : changed.uses = (state.phase i).uses) (locks : changed.locks = (state.phase i).locks) :
    Counted (state.setPhase i changed) := by
  refine counted.frame rfl (fun _ => ⟨rfl, rfl, rfl⟩) ?_ ?_
  · intro j
    rcases eq_or_ne j i with rfl | other
    · simp [uses]
    · simp [other]
  · intro j c
    rw [setPhase_buf, counted.lock]
    rcases eq_or_ne j i with rfl | other
    · simp [locks]
    · simp [other]

omit [DecidableEq Session] in
/-- Only the flags and the data of a buffer change. -/
theorem Counted.setBuf (counted : Counted state) {buf : Buf Data Session}
    (dev : buf.dev = (state.buf b).dev) (blockno : buf.blockno = (state.buf b).blockno)
    (refcnt : buf.refcnt = (state.buf b).refcnt) (lock : buf.lock = (state.buf b).lock) :
    Counted (state.setBuf b buf) := by
  refine counted.frame rfl ?_ (fun _ => rfl) ?_
  · intro c
    rcases eq_or_ne c b with rfl | other
    · simp [dev, blockno, refcnt]
    · simp [other]
  · intro j c
    rcases eq_or_ne c b with rfl | other
    · simpa [lock] using counted.lock j c
    · simpa [other] using counted.lock j c

omit [DecidableEq Session] in
/-- Steps of the disk: neither the buffers, their list nor the sessions change. -/
theorem Counted.same (counted : Counted state) (buf : next.buf = state.buf)
    (links : next.links = state.links) (phase : next.phase = state.phase) : Counted next := by
  refine counted.frame links (fun b => by rw [buf]; exact ⟨rfl, rfl, rfl⟩)
    (fun i => by rw [phase]) fun i b => ?_
  rw [buf, phase]
  exact counted.lock i b

theorem counted_iderw (counted : Counted state) (havedisk1 : Bool)
    (locks : (state.phase i).locks = some b) : Counted (iderw havedisk1 state i b) := by
  obtain ⟨buf, links, phase⟩ := iderw_frame havedisk1 state i b
  rcases phase with phase | phase
  · exact counted.same buf links phase
  · have moved : Counted (state.setPhase i (.io b)) :=
      counted.setPhase (Phase.uses_of_locks locks).symm locks.symm
    exact moved.same buf links phase

omit [DecidableEq Session] in
theorem counted_ideintr (counted : Counted state) (b : Index) (rest : List Index)
    (ready : Bool) : Counted (ideintr state b rest ready) := by
  obtain ⟨buf, links, phase⟩ := ideintr_frame state b rest ready
  have served : Counted (state.setBuf b (answered state b ready)) :=
    counted.setBuf rfl rfl rfl rfl
  exact served.same buf links phase

end Steps

section Runs

variable {Data Session : Type} [DecidableEq Session] {state next : State Data Session}
  {havedisk1 : Bool}

/-- What a step can do. -/
inductive Transition (havedisk1 : Bool) (state : State Data Session) :
    Action Data Session → State Data Session → Prop where
  | bget {i : Session} {dev blockno : UInt32} (idle : state.phase i = .idle) :
      Transition havedisk1 state (.bget i dev blockno) (bget state i dev blockno)
  | acquiresleep {i : Session} {b : Index} (waiting : state.phase i = .waiting b)
      (free : (state.buf b).lock = none) :
      Transition havedisk1 state (.acquiresleep i) (acquiresleep state i b)
  | bread {i : Session} {b : Index} (locked : state.phase i = .locked b) :
      Transition havedisk1 state (.bread i) (bread havedisk1 state i b)
  | ideintr {b : Index} {rest : List Index} {ready : Bool}
      (queue : state.idequeue = b :: rest) :
      Transition havedisk1 state (.ideintr ready) (ideintr state b rest ready)
  | wake {i : Session} {b : Index} (asleep : state.phase i = .io b)
      (valid : (state.buf b).valid = true) (clean : (state.buf b).dirty = false) :
      Transition havedisk1 state (.wake i) (state.setPhase i (.holding b false))
  | store {i : Session} {b : Index} {stored : Bool} {data : Data}
      (holding : state.phase i = .holding b stored) :
      Transition havedisk1 state (.store i data)
        ((state.setBuf b { state.buf b with data }).setPhase i (.holding b true))
  | mark {i : Session} {b : Index} {stored : Bool} (holding : state.phase i = .holding b stored) :
      Transition havedisk1 state (.mark i) (mark state i b)
  | bwrite {i : Session} {b : Index} {stored : Bool}
      (holding : state.phase i = .holding b stored) :
      Transition havedisk1 state (.bwrite i) (bwrite havedisk1 state i b)
  | releasesleep {i : Session} {b : Index} {stored : Bool}
      (holding : state.phase i = .holding b stored) :
      Transition havedisk1 state (.releasesleep i) (releasesleep state i b)
  | brelse {i : Session} {b : Index} (releasing : state.phase i = .releasing b) :
      Transition havedisk1 state (.brelse i) (brelse state i b)

theorem transition_of_step {action : Action Data Session}
    (stepped : step havedisk1 state action = some next) :
    Transition havedisk1 state action next := by
  cases action with
  | bget i dev blockno =>
      rw [step] at stepped
      split at stepped
      · next idle =>
          cases stepped
          exact .bget idle
      · cases stepped
  | acquiresleep i =>
      rw [step] at stepped
      split at stepped
      · next b waiting =>
          split at stepped
          · next free =>
              cases stepped
              exact .acquiresleep waiting free
          · cases stepped
      · cases stepped
  | bread i =>
      rw [step] at stepped
      split at stepped
      · next b locked =>
          cases stepped
          exact .bread locked
      · cases stepped
  | ideintr ready =>
      rw [step] at stepped
      split at stepped
      · next b rest queue =>
          cases stepped
          exact .ideintr queue
      · cases stepped
  | wake i =>
      rw [step] at stepped
      split at stepped
      · next b asleep =>
          split at stepped
          · next ready =>
              cases stepped
              exact .wake asleep ready.1 (Bool.eq_false_iff.mpr ready.2)
          · cases stepped
      · cases stepped
  | store i data =>
      rw [step] at stepped
      split at stepped
      · next b stored holding =>
          cases stepped
          exact .store holding
      · cases stepped
  | mark i =>
      rw [step] at stepped
      split at stepped
      · next b stored holding =>
          cases stepped
          exact .mark holding
      · cases stepped
  | bwrite i =>
      rw [step] at stepped
      split at stepped
      · next b stored holding =>
          cases stepped
          exact .bwrite holding
      · cases stepped
  | releasesleep i =>
      rw [step] at stepped
      split at stepped
      · next b stored holding =>
          cases stepped
          exact .releasesleep holding
      · cases stepped
  | brelse i =>
      rw [step] at stepped
      split at stepped
      · next b releasing =>
          cases stepped
          exact .brelse releasing
      · cases stepped

theorem transition_of_system_step {zero : Data} {action : Action Data Session}
    (stepped : (system havedisk1 zero).step state action = some next) :
    state.panicked = none ∧ Transition havedisk1 state action next := by
  change (if state.panicked = none then step havedisk1 state action else none) = some next
    at stepped
  split at stepped
  · next calm => exact ⟨calm, transition_of_step stepped⟩
  · cases stepped

theorem binit_represents (links : Links Index) :
    (binit links).Represents ((List.finRange nbuf).reverse ++ []) :=
  (Links.represents_clear links).foldl_pushFront (List.nodup_finRange nbuf) (by simp)

variable [Fintype Session]

theorem Counted.step (counted : Counted state) {action : Action Data Session}
    (stepped : Transition havedisk1 state action next) : Counted next := by
  cases stepped with
  | bget idle => exact counted_bget counted idle
  | acquiresleep waiting free => exact counted_acquiresleep counted waiting free
  | @bread i b locked =>
      rw [bread]
      split
      · exact counted.setPhase (by rw [locked]; rfl) (by rw [locked]; rfl)
      · exact counted_iderw counted havedisk1 (by rw [locked]; rfl)
  | ideintr queue => exact counted_ideintr counted _ _ _
  | wake asleep valid clean =>
      exact counted.setPhase (by rw [asleep]; rfl) (by rw [asleep]; rfl)
  | @store i b stored data holding =>
      have changed : Counted (state.setBuf b { state.buf b with data }) :=
        counted.setBuf rfl rfl rfl rfl
      refine changed.setPhase ?_ ?_
      all_goals
        rw [setBuf_phase, holding]
        rfl
  | @mark i b stored holding =>
      have changed : Counted (state.setBuf b { state.buf b with dirty := true }) :=
        counted.setBuf rfl rfl rfl rfl
      refine changed.setPhase ?_ ?_
      all_goals
        rw [setBuf_phase, holding]
        rfl
  | @bwrite i b stored holding =>
      have changed : Counted (state.setBuf b { state.buf b with dirty := true }) :=
        counted.setBuf rfl rfl rfl rfl
      rw [bwrite]
      split
      · exact counted_panic counted .bwrite
      · exact counted_iderw changed havedisk1 (by rw [setBuf_phase, holding]; rfl)
  | releasesleep holding => exact counted_releasesleep counted holding
  | brelse releasing => exact counted_brelse counted releasing

omit [DecidableEq Session] in
theorem counted_initial (zero : Data) (links : Links Index) (disk : UInt32 → UInt32 → Data) :
    Counted (initial zero links disk : State Data Session) where
  ring := ⟨_, binit_represents links, by simp⟩
  unique a b different := absurd rfl different
  refcnt b := by simp [initial, blank, users, Phase.uses]
  lock i b := by simp [initial, blank, Phase.locks]

end Runs

end Ence360.Xv6.Bio
