import Ence360.Semantics.Ring
import Ence360.Xv6.PipeTurns

/-!
# A pipe is a queue

Bytes come out of a pipe in the order in which they went in, each one once, also
after the counters have gone past `2 ^ 32`.
-/

set_option autoImplicit false

namespace Ence360.Xv6.Pipe

open Semantics Semantics.Ring

variable {Byte : Type} {state next : State Byte} {k : ℕ}

section Histories

/-- The byte that an event puts into the pipe. -/
def stored (event : State Byte × Action Byte) : List Byte :=
  match event.2 with
  | .proceed k =>
      match event.1.procs[k]? with
      | some ⟨.write .copying addr i, _⟩ =>
          if event.1.pipe.full then [] else addr[i]?.toList
      | _ => []
  | _ => []

/-- The byte that an event takes out of the pipe. -/
def taken (event : State Byte × Action Byte) : List Byte :=
  match event.2 with
  | .proceed k =>
      match event.1.procs[k]? with
      | some ⟨.read .copying n addr, _⟩ =>
          if addr.length < n ∧ event.1.pipe.empty = false then [event.1.pipe.front] else []
      | _ => []
  | _ => []

/-- What process `k` has put into the pipe since it last called `pipewrite`. -/
def storedBy (k : ℕ) (events : List (State Byte × Action Byte)) : List Byte :=
  events.foldl (fun bytes event =>
    match event.2 with
    | .callWrite j _ => if j = k then [] else bytes
    | .proceed j => if j = k then bytes ++ stored event else bytes
    | _ => bytes) []

/-- What process `k` has taken out of the pipe since it last called `piperead`. -/
def takenBy (k : ℕ) (events : List (State Byte × Action Byte)) : List Byte :=
  events.foldl (fun bytes event =>
    match event.2 with
    | .callRead j _ => if j = k then [] else bytes
    | .proceed j => if j = k then bytes ++ taken event else bytes
    | _ => bytes) []

variable {events : List (State Byte × Action Byte)} {action : Action Byte}

theorem storedBy_concat (event : State Byte × Action Byte) :
    storedBy k (events ++ [event]) =
      match event.2 with
      | .callWrite j _ => if j = k then [] else storedBy k events
      | .proceed j => if j = k then storedBy k events ++ stored event else storedBy k events
      | _ => storedBy k events := by
  rw [storedBy, List.foldl_append]
  rfl

theorem takenBy_concat (event : State Byte × Action Byte) :
    takenBy k (events ++ [event]) =
      match event.2 with
      | .callRead j _ => if j = k then [] else takenBy k events
      | .proceed j => if j = k then takenBy k events ++ taken event else takenBy k events
      | _ => takenBy k events := by
  rw [takenBy, List.foldl_append]
  rfl

end Histories

section Queue

/-- The bytes between the two counters. -/
def queue (pipe : Pipe Byte) : List Byte :=
  (List.range (pipe.nwrite - pipe.nread).toNat).map fun j =>
    pipe.data ((pipe.nread + counter j) % pipeSize).toNat

/-- `written` bytes have gone in, and all but the last ones of `queue` come out. -/
structure Buffered (pipe : Pipe Byte) (popped : ℕ) (items : List Byte) : Prop where
  holds : Ring.Holds 512 pipe.data popped items
  nread : pipe.nread = counter popped
  nwrite : pipe.nwrite = counter (popped + items.length)

variable {pipe : Pipe Byte} {popped : ℕ} {items : List Byte}

theorem pipeSize_eq : pipeSize = counter 512 := rfl

theorem Buffered.index (j : ℕ) : (counter j % pipeSize).toNat = j % 512 :=
  counter_mod (by decide) (by decide)

theorem Buffered.full_iff (buffered : Buffered pipe popped items) :
    pipe.full = true ↔ items.length = 512 := by
  have fits := buffered.holds.fits
  rw [full, beq_iff_eq, buffered.nread, buffered.nwrite, pipeSize_eq, counter_add,
    counter_inj (by omega) (by omega)]
  omega

theorem Buffered.empty_iff (buffered : Buffered pipe popped items) :
    pipe.empty = true ↔ items = [] := by
  have fits := buffered.holds.fits
  rw [empty, beq_iff_eq, buffered.nread, buffered.nwrite,
    counter_inj (by omega) (by omega), ← List.length_eq_zero_iff]
  omega

theorem Buffered.push (buffered : Buffered pipe popped items) (room : pipe.full = false)
    (byte : Byte) : Buffered (pipe.push byte) popped (items ++ [byte]) := by
  have short : items.length < 512 := by
    have fits := buffered.holds.fits
    have partly : items.length ≠ 512 := fun same =>
      Bool.eq_false_iff.mp room (buffered.full_iff.mpr same)
    omega
  refine ⟨?_, buffered.nread, ?_⟩
  · rw [Pipe.push, buffered.nwrite, Buffered.index]
    exact buffered.holds.push short byte
  · rw [Pipe.push, buffered.nwrite, counter_succ, List.length_append]
    rfl

theorem Buffered.pop (buffered : Buffered pipe popped items) (filled : pipe.empty = false) :
    ∃ rest, items = pipe.front :: rest ∧ Buffered pipe.pop (popped + 1) rest := by
  cases items with
  | nil => exact absurd (buffered.empty_iff.mpr rfl) (Bool.eq_false_iff.mp filled)
  | cons item rest =>
      have first : pipe.front = item := by
        rw [front, buffered.nread, Buffered.index]
        exact buffered.holds.front
      refine ⟨rest, by rw [first], buffered.holds.pop, ?_, ?_⟩
      · rw [Pipe.pop, buffered.nread, counter_succ]
      · rw [Pipe.pop, buffered.nwrite, List.length_cons]
        congr 1
        omega

theorem Buffered.queue_eq (buffered : Buffered pipe popped items) : pipe.queue = items := by
  have fits := buffered.holds.fits
  have count : (pipe.nwrite - pipe.nread).toNat = items.length := by
    rw [buffered.nwrite, buffered.nread, counter_sub (by omega)]
  refine List.ext_getElem? fun j => ?_
  rw [queue, count]
  rcases Nat.lt_or_ge j items.length with inside | outside
  · rw [List.getElem?_map, List.getElem?_range inside, List.getElem?_eq_getElem inside]
    refine congrArg some ?_
    dsimp only
    rw [buffered.nread, counter_add, Buffered.index]
    exact buffered.holds.stored j _ (List.getElem?_eq_getElem inside)
  · rw [List.getElem?_eq_none (by simpa using outside), List.getElem?_eq_none outside]

end Queue

section Fifo

/-- The arguments and the progress of a call, without its phase. -/
inductive Transfer (Byte : Type) where
  | write (addr : List Byte) (i : ℕ)
  | read (n : ℕ) (addr : List Byte)

def Call.transfer : Call Byte → Option (Transfer Byte)
  | .outside => none
  | .write _ addr i => some (.write addr i)
  | .read _ n addr => some (.read n addr)

@[simp] theorem Call.transfer_wakeReader (call : Call Byte) :
    call.wakeReader.transfer = call.transfer := by
  cases call with
  | outside | write => rfl
  | read phase => cases phase <;> rfl

@[simp] theorem Call.transfer_wakeWriter (call : Call Byte) :
    call.wakeWriter.transfer = call.transfer := by
  cases call with
  | outside | read => rfl
  | write phase => cases phase <;> rfl

def Transfer.Matches (k : ℕ) (events : List (State Byte × Action Byte)) : Transfer Byte → Prop
  | .write addr i => storedBy k events = addr.take i
  | .read n addr => takenBy k events = addr ∧ addr.length ≤ n

/-- The bytes of the events so far and of the calls under way. -/
structure Recorded (events : List (State Byte × Action Byte)) (state : State Byte) : Prop where
  buffered : ∃ items, events.flatMap stored = events.flatMap taken ++ items ∧
    Buffered state.pipe (events.flatMap taken).length items
  calls : ∀ (k : ℕ) (process : Process Byte) (transfer : Transfer Byte),
    state.procs[k]? = some process → process.call.transfer = some transfer →
      transfer.Matches k events

variable {events : List (State Byte × Action Byte)} {action : Action Byte}

/-- The process whose call an action starts or moves on. -/
def Action.actor : Action Byte → Option ℕ
  | .callWrite k _ | .callRead k _ | .proceed k => some k
  | .acquire _ | .closeWrite | .closeRead | .kill _ => none

theorem Transfer.Matches.concat {transfer : Transfer Byte} {j : ℕ}
    (matched : transfer.Matches j events) (other : action.actor ≠ some j) :
    transfer.Matches j (events ++ [(state, action)]) := by
  have same : storedBy j (events ++ [(state, action)]) = storedBy j events ∧
      takenBy j (events ++ [(state, action)]) = takenBy j events := by
    rw [storedBy_concat, takenBy_concat]
    cases action with
    | acquire | closeWrite | closeRead | kill => exact ⟨rfl, rfl⟩
    | callWrite i | callRead i | proceed i =>
        have different : i ≠ j := fun same => other (congrArg some same)
        simp [different]
  cases transfer with
  | write addr i => exact same.1.trans matched
  | read n addr => exact ⟨same.2.trans matched.1, matched.2⟩

/-- Steps that move no byte, except for the call of the process that takes them. -/
theorem Recorded.keep (recorded : Recorded events state) (put : stored (state, action) = [])
    (got : taken (state, action) = [])
    (pipe : next.pipe.data = state.pipe.data ∧ next.pipe.nread = state.pipe.nread ∧
      next.pipe.nwrite = state.pipe.nwrite)
    (calls : ∀ (j : ℕ) (process : Process Byte), next.procs[j]? = some process →
      (∀ transfer, process.call.transfer = some transfer →
        transfer.Matches j (events ++ [(state, action)])) ∨
      action.actor ≠ some j ∧ ∃ old, state.procs[j]? = some old ∧
        process.call.transfer = old.call.transfer) :
    Recorded (events ++ [(state, action)]) next := by
  obtain ⟨items, split, buffered⟩ := recorded.buffered
  refine ⟨⟨items, by simp [put, got, split], ?_⟩, ?_⟩
  · rw [List.flatMap_append, List.flatMap_singleton, got, List.append_nil]
    refine ⟨?_, pipe.2.1.trans buffered.nread, pipe.2.2.trans buffered.nwrite⟩
    rw [pipe.1]
    exact buffered.holds
  · intro j process transfer found moving
    rcases calls j process found with matched | ⟨other, old, before, same⟩
    · exact matched transfer moving
    · exact (recorded.calls j old transfer before (same.symm.trans moving)).concat other

/-- A turn in which the holder of the lock moves no byte. -/
theorem Recorded.still (recorded : Recorded events state)
    (put : stored (state, .proceed k) = []) (got : taken (state, .proceed k) = [])
    {awake : Call Byte → Call Byte} (wakes : ∀ call, (awake call).transfer = call.transfer)
    {call : Call Byte} {old : Process Byte} (lookup : state.procs[k]? = some old)
    (self : call.transfer = none ∨ call.transfer = old.call.transfer) (lock : Option ℕ) :
    Recorded (events ++ [(state, .proceed k)])
      { (state.wake awake).setCall k call with lock := lock } := by
  refine recorded.keep put got ⟨rfl, rfl, rfl⟩ ?_
  intro j process found
  rcases lookup_setCall found with ⟨rfl, same, -⟩ | ⟨different, found⟩
  · refine .inl fun transfer moving => ?_
    rw [same] at moving
    rcases self with none | kept
    · cases none.symm.trans moving
    · have matched := recorded.calls j old transfer lookup (kept.symm.trans moving)
      cases transfer with
      | write addr i =>
          rw [Transfer.Matches, storedBy_concat]
          rw [Transfer.Matches] at matched
          simpa [put] using matched
      | read n addr =>
          rw [Transfer.Matches, takenBy_concat]
          rw [Transfer.Matches] at matched
          simpa [got] using matched
  · obtain ⟨asleep, before, rfl⟩ := lookup_wake found
    exact .inr ⟨fun same => different (Option.some.inj same).symm, asleep, before, wakes _⟩

theorem Recorded.stay (recorded : Recorded events state)
    (put : stored (state, .proceed k) = []) (got : taken (state, .proceed k) = [])
    {call : Call Byte} {old : Process Byte} (lookup : state.procs[k]? = some old)
    (self : call.transfer = none ∨ call.transfer = old.call.transfer) (lock : Option ℕ) :
    Recorded (events ++ [(state, .proceed k)]) { state.setCall k call with lock := lock } := by
  have still : Recorded (events ++ [(state, .proceed k)])
      { (state.wake id).setCall k call with lock := lock } :=
    recorded.still put got (fun _ => rfl) lookup self lock
  rwa [wake_id] at still

theorem Recorded.store (recorded : Recorded events state) {addr : List Byte} {i : ℕ}
    {killed : Bool} {byte : Byte}
    (lookup : state.procs[k]? = some ⟨.write .copying addr i, killed⟩)
    (more : addr[i]? = some byte) (room : state.pipe.full = false) :
    Recorded (events ++ [(state, .proceed k)])
      { state.setCall k (.write .copying addr (i + 1)) with pipe := state.pipe.push byte } := by
  obtain ⟨items, split, buffered⟩ := recorded.buffered
  have put : stored (state, .proceed k) = [byte] := by simp [stored, lookup, room, more]
  have got : taken (state, .proceed k) = [] := by simp [taken, lookup]
  refine ⟨⟨items ++ [byte], by simp [put, got, split], ?_⟩, ?_⟩
  · rw [List.flatMap_append, List.flatMap_singleton, got, List.append_nil]
    exact buffered.push room byte
  · intro j process transfer found moving
    rcases lookup_setCall found with ⟨rfl, same, -⟩ | ⟨different, before⟩
    · rw [same] at moving
      cases moving
      have before : storedBy j events = addr.take i := recorded.calls j _ _ lookup rfl
      rw [Transfer.Matches, storedBy_concat]
      simp [put, before, List.take_add_one, more]
    · refine (recorded.calls j process transfer before moving).concat ?_
      exact fun same => different (Option.some.inj same).symm

theorem Recorded.take (recorded : Recorded events state) {n : ℕ} {addr : List Byte}
    {killed : Bool} (lookup : state.procs[k]? = some ⟨.read .copying n addr, killed⟩)
    (room : addr.length < n) (filled : state.pipe.empty = false) :
    Recorded (events ++ [(state, .proceed k)])
      { state.setCall k (.read .copying n (addr ++ [state.pipe.front])) with
        pipe := state.pipe.pop } := by
  obtain ⟨items, split, buffered⟩ := recorded.buffered
  obtain ⟨rest, rfl, popped⟩ := buffered.pop filled
  have put : stored (state, .proceed k) = [] := by simp [stored, lookup]
  have got : taken (state, .proceed k) = [state.pipe.front] := by
    simp [taken, lookup, room, filled]
  refine ⟨⟨rest, by simp [put, got, split], ?_⟩, ?_⟩
  · rw [List.flatMap_append, List.flatMap_singleton, got, List.length_append]
    exact popped
  · intro j process transfer found moving
    rcases lookup_setCall found with ⟨rfl, same, -⟩ | ⟨different, before⟩
    · rw [same] at moving
      cases moving
      obtain ⟨before, -⟩ := recorded.calls j _ _ lookup rfl
      rw [Transfer.Matches, takenBy_concat]
      simp only [got, before, if_true, true_and, List.length_append]
      exact room
    · refine (recorded.calls j process transfer before moving).concat ?_
      exact fun same => different (Option.some.inj same).symm

theorem Recorded.turn (recorded : Recorded events state) (turn : Turn state k next) :
    Recorded (events ++ [(state, .proceed k)]) next := by
  cases turn with
  | finish lookup done =>
      exact recorded.still (by simp [stored, lookup, done]) (by simp [taken, lookup])
        Call.transfer_wakeReader lookup (.inl rfl) none
  | abandon lookup more full reason =>
      exact recorded.stay (by simp [stored, lookup, full]) (by simp [taken, lookup]) lookup
        (.inl rfl) none
  | resign lookup full opened =>
      exact recorded.stay (by simp [stored, lookup, full]) (by simp [taken, lookup]) lookup
        (.inr (by rfl)) state.lock
  | store lookup more room => exact recorded.store lookup more room
  | sleepWriter lookup =>
      exact recorded.still (by simp [stored, lookup]) (by simp [taken, lookup])
        Call.transfer_wakeReader lookup (.inr (by rfl)) none
  | quit lookup =>
      exact recorded.stay (by simp [stored, lookup]) (by simp [taken, lookup]) lookup
        (.inl rfl) none
  | wait lookup empty opened =>
      exact recorded.stay (by simp [stored, lookup]) (by simp [taken, lookup]) lookup
        (.inr (by rfl)) state.lock
  | copy lookup =>
      exact recorded.stay (by simp [stored, lookup]) (by simp [taken, lookup]) lookup
        (.inr (by rfl)) state.lock
  | take lookup room filled => exact recorded.take lookup room filled
  | deliver lookup done =>
      exact recorded.still (by simp [stored, lookup]) (by simp [taken, lookup, done])
        Call.transfer_wakeWriter lookup (.inl rfl) none
  | sleepReader lookup =>
      exact recorded.stay (by simp [stored, lookup]) (by simp [taken, lookup]) lookup
        (.inr (by rfl)) none

theorem Recorded.enter (recorded : Recorded events state) {call : Call Byte}
    {transfer : Transfer Byte} (actor : action.actor = some k)
    (put : stored (state, action) = []) (got : taken (state, action) = [])
    (begun : call.transfer = some transfer)
    (matched : transfer.Matches k (events ++ [(state, action)])) :
    Recorded (events ++ [(state, action)]) (state.setCall k call) := by
  refine recorded.keep put got ⟨rfl, rfl, rfl⟩ ?_
  intro j process found
  rcases lookup_setCall found with ⟨rfl, same, -⟩ | ⟨different, before⟩
  · refine .inl fun moving same' => ?_
    rw [same, begun] at same'
    cases same'
    exact matched
  · refine .inr ⟨?_, process, before, rfl⟩
    rw [actor]
    exact fun same => different (Option.some.inj same).symm

theorem Recorded.acquire (recorded : Recorded events state)
    (stepped : acquire state k = some next) :
    Recorded (events ++ [(state, .acquire k)]) next := by
  have kept {call : Call Byte} {old : Process Byte} (lookup : state.procs[k]? = some old)
      (same : call.transfer = old.call.transfer) :
      Recorded (events ++ [(state, .acquire k)])
        { state.setCall k call with lock := some k } := by
    refine recorded.keep rfl rfl ⟨rfl, rfl, rfl⟩ ?_
    intro j process found
    refine .inr ⟨nofun, ?_⟩
    rcases lookup_setCall found with ⟨rfl, equal, -⟩ | ⟨-, before⟩
    · exact ⟨old, lookup, by rw [equal, same]⟩
    · exact ⟨process, before, rfl⟩
  unfold Pipe.acquire at stepped
  split at stepped
  · next lookup =>
      cases stepped
      exact kept lookup rfl
  · next lookup =>
      cases stepped
      exact kept lookup rfl
  · cases stepped

theorem Recorded.wake (recorded : Recorded events state) {awake : Call Byte → Call Byte}
    (wakes : ∀ call, (awake call).transfer = call.transfer) {pipe : Pipe Byte}
    (actor : action.actor = none) (put : stored (state, action) = [])
    (got : taken (state, action) = []) (same : pipe.data = state.pipe.data ∧
      pipe.nread = state.pipe.nread ∧ pipe.nwrite = state.pipe.nwrite) :
    Recorded (events ++ [(state, action)]) { state.wake awake with pipe := pipe } := by
  refine recorded.keep put got same ?_
  intro j process found
  obtain ⟨asleep, before, rfl⟩ := lookup_wake found
  exact .inr ⟨by rw [actor]; nofun, asleep, before, wakes _⟩

theorem Recorded.step (recorded : Recorded events state)
    (stepped : system.step state action = some next) :
    Recorded (events ++ [(state, action)]) next := by
  cases action with
  | callWrite k addr =>
      simp only [system] at stepped
      split at stepped
      · obtain ⟨-, stepped⟩ := Option.ite_none_right_eq_some.mp stepped
        cases stepped
        refine recorded.enter rfl rfl rfl rfl ?_
        rw [Transfer.Matches, storedBy_concat]
        simp
      · cases stepped
  | callRead k n =>
      simp only [system] at stepped
      split at stepped
      · obtain ⟨-, stepped⟩ := Option.ite_none_right_eq_some.mp stepped
        cases stepped
        refine recorded.enter rfl rfl rfl rfl ?_
        rw [Transfer.Matches, takenBy_concat]
        simp
      · cases stepped
  | acquire k => exact recorded.acquire (Option.ite_none_right_eq_some.mp stepped).2
  | proceed k =>
      exact recorded.turn (turn_of_proceed (Option.ite_none_right_eq_some.mp stepped).2)
  | closeWrite =>
      cases (Option.ite_none_right_eq_some.mp stepped).2
      exact recorded.wake Call.transfer_wakeReader rfl rfl rfl ⟨rfl, rfl, rfl⟩
  | closeRead =>
      cases (Option.ite_none_right_eq_some.mp stepped).2
      exact recorded.wake Call.transfer_wakeWriter rfl rfl rfl ⟨rfl, rfl, rfl⟩
  | kill k =>
      cases stepped
      refine recorded.keep rfl rfl ⟨rfl, rfl, rfl⟩ ?_
      intro j process found
      obtain ⟨old, before, same | same⟩ := lookup_kill found
      · exact .inr ⟨nofun, old, before, by rw [same]⟩
      · exact .inr ⟨nofun, old, before, by simp [same]⟩

theorem Recorded.fresh (fresh : Fresh state) : Recorded [] state := by
  refine ⟨⟨[], rfl, .nil _ _ _, fresh.nread, fresh.nwrite⟩, ?_⟩
  intro k process transfer found moving
  rw [fresh.procs process (List.mem_of_getElem? found)] at moving
  cases moving

/-- What has been read and what is still in the pipe is what has been written, in
order, and each call has moved the bytes it accounts for. -/
theorem pipe_fifo {start finish : State Byte} {events : List (State Byte × Action Byte)}
    (fresh : Fresh start) (run : system.Run start events finish) :
    events.flatMap stored = events.flatMap taken ++ finish.pipe.queue ∧
    finish.pipe.queue.length ≤ 512 ∧
    (∀ (k : ℕ) (phase : Phase) (addr : List Byte) (i : ℕ) (killed : Bool),
      finish.procs[k]? = some ⟨.write phase addr i, killed⟩ → storedBy k events = addr.take i) ∧
    (∀ (k : ℕ) (phase : Phase) (n : ℕ) (addr : List Byte) (killed : Bool),
      finish.procs[k]? = some ⟨.read phase n addr, killed⟩ →
        takenBy k events = addr ∧ addr.length ≤ n) := by
  have recorded : Recorded events finish :=
    run.history (fun _ _ => True) Recorded
      (fun _ _ _ _ recorded _ stepped => recorded.step stepped) (fun _ _ => trivial)
      (Recorded.fresh fresh)
  obtain ⟨items, split, buffered⟩ := recorded.buffered
  rw [buffered.queue_eq]
  refine ⟨split, buffered.holds.fits, ?_, ?_⟩
  · intro k phase addr i killed lookup
    exact recorded.calls k _ _ lookup rfl
  · intro k phase n addr killed lookup
    exact recorded.calls k _ _ lookup rfl

/-- A new pipe and the processes that share it. -/
def blank (byte : Byte) (count : ℕ) : State Byte where
  pipe := { data := fun _ => byte, nread := 0, nwrite := 0, readopen := true, writeopen := true }
  lock := none
  procs := List.replicate count ⟨.outside, false⟩

theorem blank_fresh (byte : Byte) (count : ℕ) : Fresh (blank byte count) :=
  ⟨rfl, rfl, rfl, rfl, rfl, fun process member => by rw [List.eq_of_mem_replicate member]⟩

/-- One process writes two bytes, and another has taken the first of them. -/
theorem pipe_fifo_two_bytes :
    ∃ events finish,
      events.map (·.2) = [.callWrite 0 [7, 8], .acquire 0, .proceed 0, .proceed 0, .proceed 0,
        .callRead 1 2, .acquire 1, .proceed 1, .proceed 1] ∧
      system.Run (blank 0 2) events finish ∧
      events.flatMap stored = events.flatMap taken ++ finish.pipe.queue ∧
      finish.pipe.queue.length ≤ 512 ∧ takenBy 1 events = [7] := by
  have reached : ∃ finish, system.execute (blank 0 2)
      [.callWrite 0 [7, 8], .acquire 0, .proceed 0, .proceed 0, .proceed 0,
        .callRead 1 2, .acquire 1, .proceed 1, .proceed 1] = some finish ∧
      finish.procs[1]? = some ⟨.read .copying 2 [7], false⟩ := ⟨_, rfl, rfl⟩
  obtain ⟨finish, executed, reading⟩ := reached
  obtain ⟨events, labels, run⟩ := System.run_of_execute executed
  obtain ⟨inOrder, fits, -, read⟩ := pipe_fifo (blank_fresh 0 2) run
  exact ⟨events, finish, labels, run, inOrder, fits, (read 1 _ 2 _ _ reading).1⟩

end Fifo

end Ence360.Xv6.Pipe
