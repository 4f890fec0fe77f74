import Ence360.Xv6.PipeQueueProperties

/-!
# Sleeping on a pipe

Who sleeps on a pipe has a reason to: a writer because the pipe is full, a reader
because it is empty. There is one exception, a writer that is killed while the
pipe is full does not wake the readers.
-/

set_option autoImplicit false

namespace Ence360.Xv6.Pipe

open Semantics

variable {Byte : Type} {state next : State Byte} {k : ℕ}

section Sleeping

def Call.holds : Call Byte → Bool
  | .outside => false
  | .write phase _ _ | .read phase _ _ => phase.holds

/-- The call of the process that has the lock. -/
def State.holder (state : State Byte) : Option (Call Byte) :=
  state.lock.bind fun k => state.procs[k]?.map Process.call

def WriterSleeps (pipe : Pipe Byte) (holder : Option (Call Byte)) : Prop :=
  pipe.full = true ∨ ∃ n addr, holder = some (.read .copying n addr)

def ReaderSleeps (abandoned : Prop) (pipe : Pipe Byte) (holder : Option (Call Byte)) : Prop :=
  pipe.empty = true ∨ abandoned ∨ ∃ phase addr i, holder = some (.write phase addr i)

/-- What is true of process `j` in its call. A sleeping process may have lost its
reason to sleep, but then the holder of the lock is about to wake it. -/
def Fine (abandoned : Prop) (pipe : Pipe Byte) (lock : Option ℕ) (holder : Option (Call Byte))
    (j : ℕ) : Call Byte → Prop
  | .outside => lock ≠ some j
  | .write phase _ _ => pipe.writeopen = true ∧ (phase.holds = true ↔ lock = some j) ∧
      (phase = .dozing → pipe.full = true ∧ pipe.readopen = true) ∧
      (phase = .sleeping → pipe.readopen = true ∧ WriterSleeps pipe holder)
  | .read phase _ _ => pipe.readopen = true ∧ (phase.holds = true ↔ lock = some j) ∧
      (phase = .dozing → pipe.empty = true ∧ pipe.writeopen = true) ∧
      (phase = .sleeping → pipe.writeopen = true ∧ ReaderSleeps abandoned pipe holder)

def Sound (abandoned : Prop) (state : State Byte) : Prop :=
  ∀ j process, state.procs[j]? = some process →
    Fine abandoned state.pipe state.lock state.holder j process.call

variable {abandoned abandoned' : Prop} {pipe pipe' : Pipe Byte} {lock lock' : Option ℕ}
  {holder holder' : Option (Call Byte)} {j : ℕ} {call : Call Byte}

/-- A process without the lock, when another one takes a turn. -/
theorem Fine.other (fine : Fine abandoned pipe lock holder j call) (held : lock ≠ some j)
    (held' : lock' ≠ some j) (readopen : pipe'.readopen = pipe.readopen)
    (writeopen : pipe'.writeopen = pipe.writeopen)
    (writer : ∀ addr i, call = .write .sleeping addr i → WriterSleeps pipe holder →
      WriterSleeps pipe' holder')
    (reader : ∀ n addr, call = .read .sleeping n addr → ReaderSleeps abandoned pipe holder →
      ReaderSleeps abandoned' pipe' holder') :
    Fine abandoned' pipe' lock' holder' j call := by
  cases call with
  | outside => exact held'
  | write phase addr i =>
      obtain ⟨opened, holds, dozing, sleeping⟩ := fine
      have idle : ¬ phase.holds = true := fun busy => held (holds.mp busy)
      refine ⟨writeopen.trans opened, iff_of_false idle held', ?_, ?_⟩
      · rintro rfl
        exact absurd rfl idle
      · rintro rfl
        obtain ⟨opened, reason⟩ := sleeping rfl
        exact ⟨readopen.trans opened, writer addr i rfl reason⟩
  | read phase n addr =>
      obtain ⟨opened, holds, dozing, sleeping⟩ := fine
      have idle : ¬ phase.holds = true := fun busy => held (holds.mp busy)
      refine ⟨readopen.trans opened, iff_of_false idle held', ?_, ?_⟩
      · rintro rfl
        exact absurd rfl idle
      · rintro rfl
        obtain ⟨opened, reason⟩ := sleeping rfl
        exact ⟨writeopen.trans opened, reader n addr rfl reason⟩

theorem Fine.holds_iff (fine : Fine abandoned pipe lock holder j call) :
    call.holds = true ↔ lock = some j := by
  cases call with
  | outside => exact iff_of_false nofun fine
  | write phase addr i | read phase n addr => exact fine.2.1

theorem Fine.wakeReader (fine : Fine abandoned pipe lock holder j call) :
    Fine abandoned pipe lock holder j call.wakeReader := by
  cases call with
  | outside | write => exact fine
  | read phase n addr =>
      cases phase with
      | entering | waiting | copying | dozing => exact fine
      | sleeping => exact ⟨fine.1, fine.2.1, nofun, nofun⟩

theorem Fine.wakeWriter (fine : Fine abandoned pipe lock holder j call) :
    Fine abandoned pipe lock holder j call.wakeWriter := by
  cases call with
  | outside | read => exact fine
  | write phase addr i =>
      cases phase with
      | entering | waiting | copying | dozing => exact fine
      | sleeping => exact ⟨fine.1, fine.2.1, nofun, nofun⟩

theorem wakeReader_ne_sleeping (call : Call Byte) (n : ℕ) (addr : List Byte) :
    call.wakeReader ≠ .read .sleeping n addr := by
  cases call with
  | outside | write => nofun
  | read phase => cases phase <;> nofun

theorem wakeWriter_ne_sleeping (call : Call Byte) (addr : List Byte) (i : ℕ) :
    call.wakeWriter ≠ .write .sleeping addr i := by
  cases call with
  | outside | read => nofun
  | write phase => cases phase <;> nofun

theorem State.holder_of_lock {process : Process Byte} (held : state.lock = some k)
    (lookup : state.procs[k]? = some process) : state.holder = some process.call := by
  rw [State.holder, held, Option.bind_some, lookup]
  rfl

/-- The holder of the lock goes on with it. -/
theorem Sound.set (sound : Sound abandoned state) (held : state.lock = some k)
    {old : Process Byte} (lookup : state.procs[k]? = some old)
    (readopen : pipe'.readopen = state.pipe.readopen)
    (writeopen : pipe'.writeopen = state.pipe.writeopen)
    (self : Fine abandoned pipe' (some k) (some call) k call)
    (writer : WriterSleeps state.pipe (some old.call) → WriterSleeps pipe' (some call))
    (reader : ReaderSleeps abandoned state.pipe (some old.call) →
      ReaderSleeps abandoned pipe' (some call)) :
    Sound abandoned { state.setCall k call with pipe := pipe' } := by
  have holder : State.holder { state.setCall k call with pipe := pipe' } = some call := by
    have stored : (state.setCall k call).procs[k]? = some { old with call := call } := by
      rw [State.setCall, List.getElem?_modify, lookup]
      simp
    change (state.lock.bind fun l => (state.setCall k call).procs[l]?.map Process.call) = _
    rw [held, Option.bind_some, stored]
    rfl
  intro j process found
  rw [holder]
  change Fine abandoned pipe' state.lock (some call) j process.call
  rcases lookup_setCall found with ⟨rfl, same, -⟩ | ⟨different, found⟩
  · rw [held, same]
    exact self
  · have apart : state.lock ≠ some j := by
      rw [held]
      exact fun same => different (Option.some.inj same).symm
    have fine := sound j process found
    rw [State.holder_of_lock held lookup] at fine
    exact fine.other apart apart readopen writeopen (fun _ _ _ => writer) (fun _ _ _ => reader)

/-- The holder of the lock gives it back. -/
theorem Sound.release (sound : Sound abandoned state) (held : state.lock = some k)
    {old : Process Byte} (lookup : state.procs[k]? = some old) {awake : Call Byte → Call Byte}
    (wakes : ∀ j call, Fine abandoned state.pipe state.lock state.holder j call →
      Fine abandoned state.pipe state.lock state.holder j (awake call))
    (self : Fine abandoned' state.pipe none none k call)
    (writer : ∀ asleep addr i, awake asleep = .write .sleeping addr i →
      WriterSleeps state.pipe (some old.call) → state.pipe.full = true)
    (reader : ∀ asleep n addr, awake asleep = .read .sleeping n addr →
      state.pipe.readopen = true → ReaderSleeps abandoned state.pipe (some old.call) →
      state.pipe.empty = true ∨ abandoned') :
    Sound abandoned' ((state.wake awake).leave k call) := by
  intro j process found
  change Fine abandoned' state.pipe none none j process.call
  rcases lookup_setCall found with ⟨rfl, same, -⟩ | ⟨different, found⟩
  · rw [same]
    exact self
  · obtain ⟨asleep, before, rfl⟩ := lookup_wake found
    have apart : state.lock ≠ some j := by
      rw [held]
      exact fun same => different (Option.some.inj same).symm
    have fine := wakes j _ (sound j asleep before)
    rw [State.holder_of_lock held lookup] at fine
    refine fine.other apart nofun rfl rfl ?_ ?_
    · intro addr i same reason
      exact .inl (writer _ addr i same reason)
    · intro n addr same reason
      have opened : state.pipe.readopen = true := by
        rw [show awake asleep.call = _ from same] at fine
        exact fine.1
      exact (reader _ n addr same opened reason).imp_right .inl

theorem writerSleeps_write {phase : Phase} {addr : List Byte} {i : ℕ}
    (sleeps : WriterSleeps pipe (some (.write phase addr i))) : pipe.full = true := by
  rcases sleeps with full | ⟨_, _, holder⟩
  · exact full
  · cases holder

theorem readerSleeps_read {phase : Phase} {n : ℕ} {addr : List Byte}
    (sleeps : ReaderSleeps abandoned pipe (some (.read phase n addr))) :
    pipe.empty = true ∨ abandoned := by
  rcases sleeps with empty | gone | ⟨_, _, _, holder⟩
  · exact .inl empty
  · exact .inr gone
  · cases holder

theorem writerSleeps_waiting {phase : Phase} {n : ℕ} {addr : List Byte}
    (sleeps : WriterSleeps pipe (some (.read phase n addr))) (waits : phase ≠ .copying) :
    pipe.full = true := by
  rcases sleeps with full | ⟨_, _, holder⟩
  · exact full
  · cases holder
    exact absurd rfl waits

/-- A writer that finds the pipe full and itself killed returns without a wakeup. -/
def Abandons (state : State Byte) : Action Byte → Prop
  | .proceed k => ∃ addr i, state.procs[k]? = some ⟨.write .copying addr i, true⟩ ∧
      i < addr.length ∧ state.pipe.full = true
  | _ => False

theorem Sound.mono (weaker : abandoned → abandoned') (sound : Sound abandoned state) :
    Sound abandoned' state := by
  intro j process found
  have fine := sound j process found
  cases call : process.call with
  | outside | write =>
      rw [call] at fine
      exact fine
  | read phase n addr =>
      rw [call] at fine
      obtain ⟨opened, holds, dozing, sleeping⟩ := fine
      refine ⟨opened, holds, dozing, fun asleep => ?_⟩
      obtain ⟨open_, reason⟩ := sleeping asleep
      exact ⟨open_, reason.imp_right (Or.imp_left weaker)⟩

theorem Sound.leave (sound : Sound abandoned state) (held : state.lock = some k)
    {old : Process Byte} (lookup : state.procs[k]? = some old)
    (self : Fine abandoned' state.pipe none none k call)
    (writer : WriterSleeps state.pipe (some old.call) → state.pipe.full = true)
    (reader : state.pipe.readopen = true → ReaderSleeps abandoned state.pipe (some old.call) →
      state.pipe.empty = true ∨ abandoned') :
    Sound abandoned' (state.leave k call) := by
  have released : Sound abandoned' ((state.wake id).leave k call) :=
    sound.release held lookup (fun _ _ fine => fine) self (fun _ _ _ _ => writer)
      (fun _ _ _ _ => reader)
  rwa [wake_id] at released

theorem Sound.turn (sound : Sound abandoned state) (held : state.lock = some k)
    (turn : Turn state k next) : Sound (abandoned ∨ Abandons state (.proceed k)) next := by
  cases turn with
  | finish lookup done =>
      refine sound.release held lookup (fun _ _ fine => fine.wakeReader) nofun ?_ ?_
      · exact fun _ _ _ _ sleeps => writerSleeps_write sleeps
      · exact fun asleep n addr same => absurd same (wakeReader_ne_sleeping asleep n addr)
  | abandon lookup more full reason =>
      refine sound.leave held lookup nofun ?_ ?_
      · exact fun sleeps => writerSleeps_write sleeps
      · intro opened _
        rcases reason with closed | killed
        · cases opened.symm.trans closed
        · subst killed
          have inside := (List.getElem?_eq_some_iff.mp more).1
          exact .inr (.inr ⟨_, _, lookup, inside, full⟩)
  | resign lookup full opened =>
      have fine := sound k _ lookup
      refine Sound.mono .inl (sound.set held lookup rfl rfl ?_ ?_ ?_)
      · exact ⟨fine.1, iff_of_true rfl rfl, fun _ => ⟨full, opened⟩, nofun⟩
      · exact fun sleeps => .inl (writerSleeps_write sleeps)
      · exact fun _ => .inr (.inr ⟨_, _, _, rfl⟩)
  | store lookup more room =>
      have fine := sound k _ lookup
      refine Sound.mono .inl (sound.set held lookup rfl rfl ?_ ?_ ?_)
      · exact ⟨fine.1, iff_of_true rfl rfl, nofun, nofun⟩
      · exact fun sleeps => absurd (writerSleeps_write sleeps) (Bool.eq_false_iff.mp room)
      · exact fun _ => .inr (.inr ⟨_, _, _, rfl⟩)
  | sleepWriter lookup =>
      have fine := sound k _ lookup
      obtain ⟨full, opened⟩ := fine.2.2.1 rfl
      refine sound.release held lookup (fun _ _ fine => fine.wakeReader) ?_ ?_ ?_
      · exact ⟨fine.1, iff_of_false nofun nofun, nofun, fun _ => ⟨opened, .inl full⟩⟩
      · exact fun _ _ _ _ sleeps => writerSleeps_write sleeps
      · exact fun asleep n addr same => absurd same (wakeReader_ne_sleeping asleep n addr)
  | quit lookup =>
      refine sound.leave held lookup nofun ?_ ?_
      · exact fun sleeps => writerSleeps_waiting sleeps nofun
      · exact fun _ sleeps => (readerSleeps_read sleeps).imp_right .inl
  | wait lookup empty opened =>
      have fine := sound k _ lookup
      refine Sound.mono .inl (sound.set held lookup rfl rfl ?_ ?_ ?_)
      · exact ⟨fine.1, iff_of_true rfl rfl, fun _ => ⟨empty, opened⟩, nofun⟩
      · exact fun sleeps => .inl (writerSleeps_waiting sleeps nofun)
      · exact fun _ => .inl empty
  | copy lookup =>
      have fine := sound k _ lookup
      refine Sound.mono .inl (sound.set held lookup rfl rfl ?_ ?_ ?_)
      · exact ⟨fine.1, iff_of_true rfl rfl, nofun, nofun⟩
      · exact fun _ => .inr ⟨_, _, rfl⟩
      · exact fun sleeps => (readerSleeps_read sleeps).imp_right .inl
  | take lookup room filled =>
      have fine := sound k _ lookup
      refine Sound.mono .inl (sound.set held lookup rfl rfl ?_ ?_ ?_)
      · exact ⟨fine.1, iff_of_true rfl rfl, nofun, nofun⟩
      · exact fun _ => .inr ⟨_, _, rfl⟩
      · intro sleeps
        rcases readerSleeps_read sleeps with empty | gone
        · cases empty.symm.trans filled
        · exact .inr (.inl gone)
  | deliver lookup done =>
      refine sound.release held lookup (fun _ _ fine => fine.wakeWriter) nofun ?_ ?_
      · exact fun asleep addr i same => absurd same (wakeWriter_ne_sleeping asleep addr i)
      · exact fun _ _ _ _ _ sleeps => (readerSleeps_read sleeps).imp_right .inl
  | sleepReader lookup =>
      have fine := sound k _ lookup
      obtain ⟨empty, opened⟩ := fine.2.2.1 rfl
      refine sound.leave held lookup ?_ ?_ ?_
      · exact ⟨fine.1, iff_of_false nofun nofun, nofun, fun _ => ⟨opened, .inl empty⟩⟩
      · exact fun sleeps => writerSleeps_waiting sleeps nofun
      · exact fun _ sleeps => (readerSleeps_read sleeps).imp_right .inl

/-- A process without the lock starts a call. -/
theorem Sound.enter (sound : Sound abandoned state) (apart : state.lock ≠ some k)
    (self : Fine abandoned state.pipe state.lock state.holder k call) :
    Sound abandoned (state.setCall k call) := by
  have holder : (state.setCall k call).holder = state.holder := by
    cases lock : state.lock with
    | none => simp [State.holder, State.setCall, lock]
    | some l =>
        have different : k ≠ l := fun same => apart (by rw [lock, same])
        simp [State.holder, State.setCall, lock, different]
  intro j process found
  rw [holder]
  change Fine abandoned state.pipe state.lock state.holder j process.call
  rcases lookup_setCall found with ⟨rfl, same, -⟩ | ⟨-, found⟩
  · rw [same]
    exact self
  · exact sound j process found

theorem Sound.acquire (sound : Sound abandoned state) (free : state.lock = none)
    (stepped : acquire state k = some next) : Sound abandoned next := by
  have holder : state.holder = none := by
    rw [State.holder, free]
    rfl
  have others {call : Call Byte} {last : State Byte}
      (same : last = { state.setCall k call with lock := some k })
      (self : Fine abandoned state.pipe (some k) last.holder k call) : Sound abandoned last := by
    subst same
    intro j process found
    rcases lookup_setCall found with ⟨rfl, same, -⟩ | ⟨different, found⟩
    · rw [same]
      exact self
    · have fine := sound j process found
      rw [free, holder] at fine
      refine fine.other nofun (fun same => different (Option.some.inj same).symm) rfl rfl ?_ ?_
      · intro _ _ _ sleeps
        rcases sleeps with full | ⟨_, _, nobody⟩
        · exact .inl full
        · cases nobody
      · intro _ _ _ sleeps
        rcases sleeps with empty | gone | ⟨_, _, _, nobody⟩
        · exact .inl empty
        · exact .inr (.inl gone)
        · cases nobody
  unfold Pipe.acquire at stepped
  split at stepped
  · next addr i killed lookup =>
      cases stepped
      exact others rfl ⟨(sound k _ lookup).1, iff_of_true rfl rfl, nofun, nofun⟩
  · next n addr killed lookup =>
      cases stepped
      exact others rfl ⟨(sound k _ lookup).1, iff_of_true rfl rfl, nofun, nofun⟩
  · cases stepped

/-- `pipeclose` wakes those who wait for the end it closes. -/
theorem Fine.closeWrite (fine : Fine abandoned pipe none holder j call)
    (other : call.isWrite = false) :
    Fine abandoned { pipe with writeopen := false } none holder' j call.wakeReader := by
  cases call with
  | outside => exact fine
  | write => cases other
  | read phase n addr =>
      obtain ⟨opened, holds, -, -⟩ := fine
      cases phase with
      | waiting | copying | dozing => cases holds.mp rfl
      | entering | sleeping => exact ⟨opened, iff_of_false nofun nofun, nofun, nofun⟩

theorem Fine.closeRead (fine : Fine abandoned pipe none holder j call)
    (other : call.isRead = false) :
    Fine abandoned { pipe with readopen := false } none holder' j call.wakeWriter := by
  cases call with
  | outside => exact fine
  | read => cases other
  | write phase addr i =>
      obtain ⟨opened, holds, -, -⟩ := fine
      cases phase with
      | waiting | copying | dozing => cases holds.mp rfl
      | entering | sleeping => exact ⟨opened, iff_of_false nofun nofun, nofun, nofun⟩

theorem Sound.pipeclose (sound : Sound abandoned state) (free : state.lock = none)
    {writable : Bool}
    (last : ∀ process ∈ state.procs,
      (if writable then process.call.isWrite else process.call.isRead) = false) :
    Sound abandoned (pipeclose state writable) := by
  intro j process found
  cases writable with
  | true =>
      obtain ⟨old, before, rfl⟩ := lookup_wake found
      have fine := sound j old before
      rw [free] at fine
      rw [show (Pipe.pipeclose state true).lock = none from free]
      exact fine.closeWrite (last old (List.mem_of_getElem? before))
  | false =>
      obtain ⟨old, before, rfl⟩ := lookup_wake found
      have fine := sound j old before
      rw [free] at fine
      rw [show (Pipe.pipeclose state false).lock = none from free]
      exact fine.closeRead (last old (List.mem_of_getElem? before))

theorem wake_of_holds (holds : call.holds = true) : call.wakeReader.wakeWriter = call := by
  cases call with
  | outside => rfl
  | write phase | read phase =>
      cases phase with
      | entering | waiting | copying | dozing => rfl
      | sleeping => cases holds

theorem Sound.kill (sound : Sound abandoned state) (k : ℕ) : Sound abandoned (kill state k) := by
  -- The holder of the lock is not asleep, so the signal leaves its call as it is.
  have holder : (Pipe.kill state k).holder = state.holder := by
    cases lock : state.lock with
    | none => simp [State.holder, Pipe.kill, lock]
    | some l =>
        cases lookup : state.procs[l]? with
        | none =>
            simp only [State.holder, Pipe.kill, lock, Option.bind_some, List.getElem?_modify,
              lookup, Option.map_eq_map, Option.map_none]
        | some old =>
            have holds := (sound l old lookup).holds_iff.mpr lock
            have same := wake_of_holds holds
            simp only [State.holder, Pipe.kill, lock, Option.bind_some, List.getElem?_modify,
              lookup, Option.map_eq_map, Option.map_some]
            split
            · rw [same]
            · rfl
  intro j process found
  rw [holder]
  change Fine abandoned state.pipe state.lock state.holder j process.call
  obtain ⟨old, before, same | same⟩ := lookup_kill found
  · rw [same]
    exact sound j old before
  · rw [same]
    exact (sound j old before).wakeReader.wakeWriter

theorem Sound.fresh (fresh : Fresh state) : Sound abandoned state := by
  intro j process found
  rw [fresh.procs process (List.mem_of_getElem? found), fresh.lock]
  nofun

theorem Fine.enterWrite (opened : pipe.writeopen = true) (apart : lock ≠ some k)
    (addr : List Byte) (i : ℕ) :
    Fine abandoned pipe lock holder k (.write .entering addr i) :=
  ⟨opened, iff_of_false Bool.false_ne_true apart, nofun, nofun⟩

theorem Fine.enterRead (opened : pipe.readopen = true) (apart : lock ≠ some k) (n : ℕ)
    (addr : List Byte) : Fine abandoned pipe lock holder k (.read .entering n addr) :=
  ⟨opened, iff_of_false Bool.false_ne_true apart, nofun, nofun⟩

theorem Sound.step {action : Action Byte} (sound : Sound abandoned state)
    (stepped : system.step state action = some next) :
    Sound (abandoned ∨ Abandons state action) next := by
  cases action with
  | callWrite k addr =>
      refine Sound.mono .inl ?_
      simp only [system] at stepped
      split at stepped
      · next killed lookup =>
          obtain ⟨opened, stepped⟩ := Option.ite_none_right_eq_some.mp stepped
          cases stepped
          have apart : state.lock ≠ some k := sound k _ lookup
          exact sound.enter apart (.enterWrite opened apart addr 0)
      · cases stepped
  | callRead k n =>
      refine Sound.mono .inl ?_
      simp only [system] at stepped
      split at stepped
      · next killed lookup =>
          obtain ⟨opened, stepped⟩ := Option.ite_none_right_eq_some.mp stepped
          cases stepped
          have apart : state.lock ≠ some k := sound k _ lookup
          exact sound.enter apart (.enterRead opened apart n [])
      · cases stepped
  | acquire k =>
      obtain ⟨free, stepped⟩ := Option.ite_none_right_eq_some.mp stepped
      exact Sound.mono .inl (sound.acquire free stepped)
  | proceed k =>
      obtain ⟨held, stepped⟩ := Option.ite_none_right_eq_some.mp stepped
      exact sound.turn held (turn_of_proceed stepped)
  | closeWrite =>
      obtain ⟨⟨free, -, last⟩, stepped⟩ := Option.ite_none_right_eq_some.mp stepped
      cases stepped
      refine Sound.mono .inl (sound.pipeclose free ?_)
      simpa using last
  | closeRead =>
      obtain ⟨⟨free, -, last⟩, stepped⟩ := Option.ite_none_right_eq_some.mp stepped
      cases stepped
      refine Sound.mono .inl (sound.pipeclose free ?_)
      simpa using last
  | kill k =>
      cases stepped
      exact Sound.mono .inl (sound.kill k)

/-- While nobody has the lock, a writer sleeps only on a full pipe with a reader to
come, and a reader only on an empty pipe with a writer to come. Only a writer
killed on a full pipe leaves a reader asleep beside data. -/
theorem sleeping_has_reason {start finish : State Byte}
    {events : List (State Byte × Action Byte)} (fresh : Fresh start)
    (run : system.Run start events finish) (free : finish.lock = none) :
    (∀ (k : ℕ) (addr : List Byte) (i : ℕ) (killed : Bool),
      finish.procs[k]? = some ⟨.write .sleeping addr i, killed⟩ →
      finish.pipe.full = true ∧ finish.pipe.readopen = true) ∧
    (∀ (k n : ℕ) (addr : List Byte) (killed : Bool),
      finish.procs[k]? = some ⟨.read .sleeping n addr, killed⟩ →
      finish.pipe.writeopen = true ∧
        (finish.pipe.empty = true ∨ ∃ event ∈ events, Abandons event.1 event.2)) := by
  have sound : Sound (∃ event ∈ events, Abandons event.1 event.2) finish := by
    refine run.history (fun _ _ => True)
      (fun events state => Sound (∃ event ∈ events, Abandons event.1 event.2) state) ?_
      (fun _ _ => trivial) (Sound.fresh fresh)
    intro events state action next sound _ stepped
    refine Sound.mono ?_ (sound.step stepped)
    rintro (⟨event, member, abandons⟩ | abandons)
    · exact ⟨event, List.mem_append_left _ member, abandons⟩
    · exact ⟨_, List.mem_append_right _ (.head _), abandons⟩
  have nobody : finish.holder = none := by
    rw [State.holder, free]
    rfl
  constructor
  · intro k addr i killed lookup
    obtain ⟨-, -, -, sleeping⟩ := sound k _ lookup
    obtain ⟨opened, full | ⟨_, _, holder⟩⟩ := sleeping rfl
    · exact ⟨full, opened⟩
    · cases nobody.symm.trans holder
  · intro k n addr killed lookup
    obtain ⟨-, -, -, sleeping⟩ := sound k _ lookup
    obtain ⟨opened, empty | gone | ⟨_, _, _, holder⟩⟩ := sleeping rfl
    · exact ⟨opened, .inl empty⟩
    · exact ⟨opened, .inr gone⟩
    · cases nobody.symm.trans holder

section Abandoned

/-- Process 0 sleeps in `piperead` while process 1 writes `addr`. -/
structure Crowding (byte : Byte) (addr : List Byte) (state : State Byte) (i : ℕ) : Prop where
  reached : ∃ events, system.Run (blank byte 2) events state
  lock : state.lock = some 1
  procs : state.procs = [⟨.read .sleeping 1 [], false⟩, ⟨.write .copying addr i, false⟩]
  buffered : ∃ items : List Byte, items.length = i ∧ Buffered state.pipe 0 items

theorem Crowding.exists (byte : Byte) {addr : List Byte} (long : 512 < addr.length) {i : ℕ}
    (room : i ≤ 512) : ∃ state, Crowding byte addr state i := by
  induction i with
  | zero =>
      let asleep : State Byte := { blank byte 2 with
        lock := some 1
        procs := [⟨.read .sleeping 1 [], false⟩, ⟨.write .copying addr 0, false⟩] }
      have executed : system.execute (blank byte 2) [.callRead 0 1, .acquire 0, .proceed 0,
          .proceed 0, .callWrite 1 addr, .acquire 1] = some asleep := rfl
      obtain ⟨events, -, run⟩ := System.run_of_execute executed
      exact ⟨asleep, ⟨events, run⟩, rfl, rfl, [], rfl, .nil _ _ _, rfl, rfl⟩
  | succ i ih =>
      obtain ⟨state, crowding⟩ := ih (by omega)
      obtain ⟨events, run⟩ := crowding.reached
      obtain ⟨items, count, buffered⟩ := crowding.buffered
      have notFull : state.pipe.full = false := by
        refine Bool.eq_false_iff.mpr fun full => ?_
        have filled := buffered.full_iff.mp full
        omega
      have lookup : state.procs[1]? = some ⟨.write .copying addr i, false⟩ := by
        rw [crowding.procs]
        rfl
      have more := List.getElem?_eq_getElem (show i < addr.length by omega)
      have stepped : system.step state (.proceed 1) =
          some { state.setCall 1 (.write .copying addr (i + 1)) with
            pipe := state.pipe.push addr[i] } := by
        refine Option.ite_none_right_eq_some.mpr ⟨crowding.lock, ?_⟩
        simp [proceed, lookup, pipewrite, more, notFull]
      refine ⟨_, ⟨_, run.snoc stepped⟩, crowding.lock, ?_, items ++ [addr[i]],
        by simp [count], buffered.push notFull addr[i]⟩
      simp [State.setCall, crowding.procs]

/-- A reader that sleeps on although the pipe is full: the writer was killed. -/
theorem reader_left_asleep :
    ∃ events finish, system.Run (blank false 2) events finish ∧ finish.lock = none ∧
      finish.procs[0]? = some ⟨.read .sleeping 1 [], false⟩ ∧ finish.pipe.empty = false ∧
      ∃ event ∈ events, Abandons event.1 event.2 := by
  obtain ⟨addr, long⟩ : ∃ addr : List Bool, addr.length = 513 :=
    ⟨List.replicate 513 false, List.length_replicate⟩
  obtain ⟨state, crowding⟩ := Crowding.exists false (by omega : 512 < addr.length) (le_refl 512)
  obtain ⟨events, run⟩ := crowding.reached
  obtain ⟨items, count, buffered⟩ := crowding.buffered
  have full := buffered.full_iff.mpr count
  have filled : state.pipe.empty = false := by
    refine Bool.eq_false_iff.mpr fun empty => ?_
    rw [buffered.empty_iff.mp empty] at count
    cases count
  have more := List.getElem?_eq_getElem (show 512 < addr.length by omega)
  have executed : system.execute state [.kill 1, .proceed 1] = some { state with
      lock := none
      procs := [⟨.read .sleeping 1 [], false⟩, ⟨.outside, true⟩] } := by
    simp [System.execute, system, kill, proceed, pipewrite, crowding.procs, crowding.lock,
      Call.wakeReader, Call.wakeWriter, full, more, State.leave, State.setCall]
  obtain ⟨later, -, rest⟩ := System.run_of_execute executed
  have whole := run.trans rest
  refine ⟨_, _, whole, rfl, rfl, filled, ?_⟩
  obtain ⟨-, asleep⟩ := sleeping_has_reason (blank_fresh false 2) whole rfl
  obtain ⟨-, empty | abandoned⟩ := asleep 0 1 [] false rfl
  · cases filled.symm.trans empty
  · exact abandoned

end Abandoned

end Sleeping

end Ence360.Xv6.Pipe
