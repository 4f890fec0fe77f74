import Mathlib.Algebra.Order.Ring.Abs
import Mathlib.Algebra.Order.Ring.Int
import Mathlib.Data.Nat.Init
import Ence360.Distributed.Ping

/-!
# Agreement and progress of the ping/pong protocol

Both roles of a pair move through four phases of a round. The invariant names
the phase; everything else about a pair is read off it.
-/

set_option autoImplicit false

namespace Ence360.Distributed.Ping

open Ence360.Semantics

def EvenIdle (value : ℤ) : Point → Prop
  | .start => value = 0
  | .loop => value ≤ 10
  | .sendPing => value < 10
  | .finalized => value = 10
  | _ => False

def EvenWaiting : Point → Prop
  | .awaitPing | .recvPong => True
  | _ => False

def OddReady (value : ℤ) : Point → Prop
  | .start => value = 0
  | .loop => value ≤ 10
  | .recvPing => value < 10
  | .awaitPong => True
  | .finalized => value = 10
  | _ => False

/-- The phases of a pair: its even process, its odd process, and the queues of
pings and of pongs. -/
inductive PairInvariant : Process → Process → List ℤ → List ℤ → Prop where
  | idle {even odd : Point} {value : ℤ} : 0 ≤ value → value ≤ 10 → EvenIdle value even →
      OddReady value odd → PairInvariant ⟨even, value⟩ ⟨odd, value⟩ [] []
  | ping {even odd : Point} {value : ℤ} : 0 ≤ value → value < 10 → EvenWaiting even →
      OddReady value odd → PairInvariant ⟨even, value⟩ ⟨odd, value⟩ [value] []
  | received {even : Point} {value : ℤ} : 0 ≤ value → value < 10 → EvenWaiting even →
      PairInvariant ⟨even, value⟩ ⟨.increment, value⟩ [] []
  | reply {even : Point} {value : ℤ} : 0 ≤ value → value < 10 → EvenWaiting even →
      PairInvariant ⟨even, value⟩ ⟨.sendPong, value + 1⟩ [] []
  | pong {even odd : Point} {value : ℤ} : 0 ≤ value → value < 10 → EvenWaiting even →
      OddReady (value + 1) odd → PairInvariant ⟨even, value⟩ ⟨odd, value + 1⟩ [] [value + 1]

section Steps

variable {worldSize worldRank : ℕ} {buffered : Bool}

theorem EvenWaiting.step_cases {even : Point} {value : ℤ} {incoming outgoing : List ℤ}
    {next : Endpoint} (waiting : EvenWaiting even)
    (stepped : Endpoint.step worldSize worldRank buffered ⟨⟨even, value⟩, incoming, outgoing⟩ =
      some next) :
    (outgoing = [] ∧ next = ⟨⟨.recvPong, value⟩, incoming, []⟩) ∨
      ∃ pong rest, incoming = pong :: rest ∧ next = ⟨⟨.loop, pong⟩, rest, outgoing⟩ := by
  cases even with
  | awaitPing =>
      cases outgoing with
      | nil =>
          simp only [Endpoint.step, Endpoint.await, Option.some.injEq] at stepped
          exact .inl ⟨rfl, stepped.symm⟩
      | cons => simp [Endpoint.step, Endpoint.await] at stepped
  | recvPong =>
      cases incoming with
      | nil => simp [Endpoint.step, Endpoint.receive] at stepped
      | cons pong rest =>
          simp only [Endpoint.step, Endpoint.receive, Option.some.injEq] at stepped
          exact .inr ⟨pong, rest, rfl, stepped.symm⟩
  | start | usageError | loop | recvPing | increment | sendPong | awaitPong | sendPing
  | finalized => exact waiting.elim

theorem OddReady.step_cases {odd : Point} {value : ℤ} {incoming outgoing : List ℤ}
    {next : Endpoint} (evenWorld : worldSize % 2 = 0) (oddRank : worldRank % 2 = 1)
    (high : value ≤ 10) (ready : OddReady value odd)
    (stepped : Endpoint.step worldSize worldRank buffered ⟨⟨odd, value⟩, incoming, outgoing⟩ =
      some next) :
    (∃ point, OddReady value point ∧ next = ⟨⟨point, value⟩, incoming, outgoing⟩) ∨
      ∃ ping rest, incoming = ping :: rest ∧ next = ⟨⟨.increment, ping⟩, rest, outgoing⟩ := by
  cases odd with
  | start =>
      simp only [Endpoint.step, evenWorld, ne_eq, not_true_eq_false, if_false,
        Option.some.injEq] at stepped
      exact .inl ⟨.loop, high, stepped.symm⟩
  | loop =>
      by_cases more : value < 10
      · simp only [Endpoint.step, oddRank, more, if_true, Option.some.injEq] at stepped
        exact .inl ⟨.recvPing, more, stepped.symm⟩
      · simp only [Endpoint.step, more, if_false, Option.some.injEq] at stepped
        exact .inl ⟨.finalized, by simp only [OddReady]; omega, stepped.symm⟩
  | recvPing =>
      cases incoming with
      | nil => simp [Endpoint.step, Endpoint.receive] at stepped
      | cons ping rest =>
          simp only [Endpoint.step, Endpoint.receive, Option.some.injEq] at stepped
          exact .inr ⟨ping, rest, rfl, stepped.symm⟩
  | awaitPong =>
      cases outgoing with
      | nil =>
          simp only [Endpoint.step, Endpoint.await, Option.some.injEq] at stepped
          exact .inl ⟨.loop, high, stepped.symm⟩
      | cons => simp [Endpoint.step, Endpoint.await] at stepped
  | finalized => simp [Endpoint.step] at stepped
  | usageError | increment | sendPong | sendPing | awaitPing | recvPong => exact ready.elim

theorem PairInvariant.even_step {even odd : Process} {pings pongs : List ℤ} {next : Endpoint}
    (evenWorld : worldSize % 2 = 0) (evenRank : worldRank % 2 = 0)
    (invariant : PairInvariant even odd pings pongs)
    (stepped : Endpoint.step worldSize worldRank buffered ⟨even, pongs, pings⟩ = some next) :
    PairInvariant next.process odd next.outgoing next.incoming := by
  cases invariant with
  | @idle even odd value low high evenIdle oddReady =>
      cases even with
      | start =>
          simp only [Endpoint.step, evenWorld, ne_eq, not_true_eq_false, if_false,
            Option.some.injEq] at stepped
          subst stepped
          exact .idle low high high oddReady
      | loop =>
          by_cases more : value < 10
          · simp only [Endpoint.step, evenRank, more, if_true, zero_ne_one, if_false,
              Option.some.injEq] at stepped
            subst stepped
            exact .idle low high more oddReady
          · simp only [Endpoint.step, more, if_false, Option.some.injEq] at stepped
            subst stepped
            exact .idle low high (by simp only [EvenIdle]; omega) oddReady
      | sendPing =>
          simp only [Endpoint.step, Option.some.injEq] at stepped
          subst stepped
          refine .ping low evenIdle ?_ oddReady
          cases buffered <;> trivial
      | finalized => simp [Endpoint.step] at stepped
      | usageError | recvPing | increment | sendPong | awaitPong | awaitPing | recvPong =>
          exact evenIdle.elim
  | ping low high waiting oddReady =>
      rcases waiting.step_cases stepped with ⟨impossible, _⟩ | ⟨_, _, impossible, _⟩
      · cases impossible
      · cases impossible
  | received low high waiting =>
      rcases waiting.step_cases stepped with ⟨_, rfl⟩ | ⟨_, _, impossible, _⟩
      · exact .received low high trivial
      · cases impossible
  | reply low high waiting =>
      rcases waiting.step_cases stepped with ⟨_, rfl⟩ | ⟨_, _, impossible, _⟩
      · exact .reply low high trivial
      · cases impossible
  | pong low high waiting oddReady =>
      rcases waiting.step_cases stepped with ⟨_, rfl⟩ | ⟨_, _, taken, rfl⟩
      · exact .pong low high trivial oddReady
      · cases taken
        exact .idle (by omega) (by omega) (by simp only [EvenIdle]; omega) oddReady

theorem PairInvariant.odd_step {even odd : Process} {pings pongs : List ℤ} {next : Endpoint}
    (evenWorld : worldSize % 2 = 0) (oddRank : worldRank % 2 = 1)
    (invariant : PairInvariant even odd pings pongs)
    (stepped : Endpoint.step worldSize worldRank buffered ⟨odd, pings, pongs⟩ = some next) :
    PairInvariant even next.process next.incoming next.outgoing := by
  cases invariant with
  | idle low high evenIdle oddReady =>
      rcases oddReady.step_cases evenWorld oddRank high stepped with
        ⟨_, ready, rfl⟩ | ⟨_, _, impossible, _⟩
      · exact .idle low high evenIdle ready
      · cases impossible
  | ping low high waiting oddReady =>
      rcases oddReady.step_cases evenWorld oddRank high.le stepped with
        ⟨_, ready, rfl⟩ | ⟨_, _, taken, rfl⟩
      · exact .ping low high waiting ready
      · cases taken
        exact .received low high waiting
  | received low high waiting =>
      simp only [Endpoint.step, Option.some.injEq] at stepped
      subst stepped
      exact .reply low high waiting
  | reply low high waiting =>
      simp only [Endpoint.step, Option.some.injEq] at stepped
      subst stepped
      refine .pong low high waiting ?_
      cases buffered
      · trivial
      · exact Int.add_one_le_iff.mpr high
  | pong low high waiting oddReady =>
      rcases oddReady.step_cases evenWorld oddRank (by omega) stepped with
        ⟨_, ready, rfl⟩ | ⟨_, _, impossible, _⟩
      · exact .pong low high waiting ready
      · cases impossible

end Steps

@[simp] theorem peer_even (pair : ℕ) : peer (2 * pair) = 2 * pair + 1 := by
  simp [peer]

@[simp] theorem peer_odd (pair : ℕ) : peer (2 * pair + 1) = 2 * pair := by
  simp [peer]

theorem peer_ne (worldRank : ℕ) : peer worldRank ≠ worldRank := by
  unfold peer
  split <;> omega

@[simp] theorem State.commit_process (state : State) (worldRank : ℕ) (endpoint : Endpoint) :
    (state.commit worldRank endpoint).process worldRank = endpoint.process := by
  simp [State.commit]

theorem State.commit_process_of_ne (state : State) {worldRank other : ℕ} (endpoint : Endpoint)
    (different : other ≠ worldRank) :
    (state.commit worldRank endpoint).process other = state.process other := by
  simp [State.commit, different]

@[simp] theorem State.commit_incoming (state : State) (worldRank : ℕ) (endpoint : Endpoint) :
    (state.commit worldRank endpoint).channel (peer worldRank) worldRank = endpoint.incoming := by
  simp [State.commit]

@[simp] theorem State.commit_outgoing (state : State) (worldRank : ℕ) (endpoint : Endpoint) :
    (state.commit worldRank endpoint).channel worldRank (peer worldRank) = endpoint.outgoing := by
  simp [State.commit, (peer_ne worldRank).symm]

theorem State.commit_channel_of_ne (state : State) {worldRank sender receiver : ℕ}
    (endpoint : Endpoint) (notSender : sender ≠ worldRank) (notReceiver : receiver ≠ worldRank) :
    (state.commit worldRank endpoint).channel sender receiver = state.channel sender receiver := by
  simp [State.commit, notSender, notReceiver]

/-- Every pair is in one of its phases, and no other queue is ever used. -/
structure WorldInvariant (worldSize : ℕ) (state : State) : Prop where
  pairs : ∀ pair, 2 * pair + 1 < worldSize →
    PairInvariant (state.process (2 * pair)) (state.process (2 * pair + 1))
      (state.channel (2 * pair) (2 * pair + 1)) (state.channel (2 * pair + 1) (2 * pair))
  quiet : ∀ sender receiver, worldSize ≤ sender ∨ receiver ≠ peer sender →
    state.channel sender receiver = []

theorem WorldInvariant.initial (worldSize : ℕ) : WorldInvariant worldSize State.initial where
  pairs _ _ := .idle le_rfl (by decide) rfl rfl
  quiet _ _ _ := rfl

theorem WorldInvariant.step {worldSize : ℕ} {state next : State} {action : Action}
    (evenWorld : worldSize % 2 = 0) (invariant : WorldInvariant worldSize state)
    (stepped : (system worldSize).step state action = some next) :
    WorldInvariant worldSize next := by
  obtain ⟨worldRank, buffered⟩ := action
  simp only [system] at stepped
  split at stepped
  · next inWorld =>
      obtain ⟨endpoint, moved, rfl⟩ := Option.map_eq_some_iff.mp stepped
      constructor
      · intro pair inside
        obtain rfl | rfl | other : worldRank = 2 * pair ∨ worldRank = 2 * pair + 1 ∨
            (worldRank ≠ 2 * pair ∧ worldRank ≠ 2 * pair + 1) := by omega
        · simp only [State.endpoint, peer_even] at moved
          have kept := (invariant.pairs pair inside).even_step evenWorld (by omega) moved
          have incoming := state.commit_incoming (2 * pair) endpoint
          have outgoing := state.commit_outgoing (2 * pair) endpoint
          rw [peer_even] at incoming outgoing
          rw [State.commit_process, State.commit_process_of_ne _ _ (by omega), incoming, outgoing]
          exact kept
        · simp only [State.endpoint, peer_odd] at moved
          have kept := (invariant.pairs pair inside).odd_step evenWorld (by omega) moved
          have incoming := state.commit_incoming (2 * pair + 1) endpoint
          have outgoing := state.commit_outgoing (2 * pair + 1) endpoint
          rw [peer_odd] at incoming outgoing
          rw [State.commit_process, State.commit_process_of_ne _ _ (by omega), incoming, outgoing]
          exact kept
        · rw [State.commit_process_of_ne _ _ other.1.symm,
            State.commit_process_of_ne _ _ other.2.symm,
            State.commit_channel_of_ne _ _ other.1.symm other.2.symm,
            State.commit_channel_of_ne _ _ other.2.symm other.1.symm]
          exact invariant.pairs pair inside
      · intro sender receiver unused
        have peerPeer : peer (peer worldRank) = worldRank := by
          unfold peer
          split <;> split <;> omega
        have peerIn : peer worldRank < worldSize := by
          unfold peer
          split <;> omega
        have notIncoming : ¬ (sender = peer worldRank ∧ receiver = worldRank) := by
          intro same
          obtain ⟨rfl, rfl⟩ := same
          rcases unused with outside | wrong
          · omega
          · exact wrong peerPeer.symm
        have notOutgoing : ¬ (sender = worldRank ∧ receiver = peer worldRank) := by
          intro same
          obtain ⟨rfl, rfl⟩ := same
          rcases unused with outside | wrong
          · omega
          · exact wrong rfl
        simp only [State.commit, if_neg notIncoming, if_neg notOutgoing]
        exact invariant.quiet sender receiver unused
  · cases stepped

theorem reachable_worldInvariant {worldSize : ℕ} (evenWorld : worldSize % 2 = 0) {state : State}
    (reachable : (system worldSize).Reachable state) : WorldInvariant worldSize state :=
  reachable.invariant (WorldInvariant worldSize)
    (by rintro _ rfl; exact WorldInvariant.initial worldSize)
    (fun _ _ _ before stepped => before.step evenWorld stepped)

/-- One message in flight at most, and all values of the pair within one. -/
structure PairAgrees (even odd : Process) (pings pongs : List ℤ) : Prop where
  inFlight : pings.length + pongs.length ≤ 1
  locals : |even.value - odd.value| ≤ 1
  messages : ∀ message ∈ pings ++ pongs,
    |message - even.value| ≤ 1 ∧ |message - odd.value| ≤ 1

theorem PairInvariant.agrees {even odd : Process} {pings pongs : List ℤ}
    (invariant : PairInvariant even odd pings pongs) : PairAgrees even odd pings pongs := by
  cases invariant <;> constructor <;> simp

section Progress

variable (worldSize worldRank : ℕ) (buffered : Bool)

theorem EvenIdle.enabled {even : Point} {value : ℤ} {incoming outgoing : List ℤ}
    (idle : EvenIdle value even) (running : even ≠ .finalized) :
    (Endpoint.step worldSize worldRank buffered
      ⟨⟨even, value⟩, incoming, outgoing⟩).isSome := by
  cases even with
  | start | loop =>
      simp only [Endpoint.step]
      split <;> (try split) <;> rfl
  | sendPing => rfl
  | finalized => exact absurd rfl running
  | usageError | recvPing | increment | sendPong | awaitPong | awaitPing | recvPong =>
      exact idle.elim

theorem EvenWaiting.enabled {even : Point} {value pong : ℤ} (waiting : EvenWaiting even) :
    (Endpoint.step worldSize worldRank buffered ⟨⟨even, value⟩, [pong], []⟩).isSome := by
  cases even with
  | awaitPing | recvPong => rfl
  | start | usageError | loop | recvPing | increment | sendPong | awaitPong | sendPing
  | finalized => exact waiting.elim

theorem OddReady.enabled {odd : Point} {value : ℤ} {incoming : List ℤ}
    (ready : OddReady value odd) (supplied : incoming ≠ [] ∨ value = 10)
    (running : odd ≠ .finalized) :
    (Endpoint.step worldSize worldRank buffered ⟨⟨odd, value⟩, incoming, []⟩).isSome := by
  cases odd with
  | start | loop =>
      simp only [Endpoint.step]
      split <;> (try split) <;> rfl
  | recvPing =>
      cases incoming with
      | nil =>
          simp only [OddReady] at ready
          rcases supplied with absurd | last
          · exact (absurd rfl).elim
          · omega
      | cons => rfl
  | awaitPong => rfl
  | finalized => exact absurd rfl running
  | usageError | increment | sendPong | sendPing | awaitPing | recvPong => exact ready.elim

end Progress

def PairDone (even odd : Process) (pings pongs : List ℤ) : Prop :=
  even = ⟨.finalized, 10⟩ ∧ odd = ⟨.finalized, 10⟩ ∧ pings = [] ∧ pongs = []

/-- In every phase one side can move, unless both have finished. -/
theorem PairInvariant.progress {even odd : Process} {pings pongs : List ℤ}
    (worldSize evenRank oddRank : ℕ) (evenBuffered oddBuffered : Bool)
    (invariant : PairInvariant even odd pings pongs) :
    (Endpoint.step worldSize evenRank evenBuffered ⟨even, pongs, pings⟩).isSome ∨
      (Endpoint.step worldSize oddRank oddBuffered ⟨odd, pings, pongs⟩).isSome ∨
      PairDone even odd pings pongs := by
  cases invariant with
  | @idle even odd value low high evenIdle oddReady =>
      by_cases evenDone : even = .finalized
      · subst evenDone
        cases evenIdle
        by_cases oddDone : odd = .finalized
        · subst oddDone
          exact .inr (.inr ⟨rfl, rfl, rfl, rfl⟩)
        · exact .inr (.inl (oddReady.enabled _ _ _ (.inr rfl) oddDone))
      · exact .inl (evenIdle.enabled _ _ _ evenDone)
  | @ping even odd value low high waiting oddReady =>
      refine .inr (.inl (oddReady.enabled _ _ _ (.inl (by simp)) ?_))
      rintro rfl
      simp only [OddReady] at oddReady
      omega
  | received | reply => exact .inr (.inl rfl)
  | pong low high waiting oddReady => exact .inl (waiting.enabled _ _ _)

theorem PairInvariant.not_abandoned {even odd : Process} {pings pongs : List ℤ}
    (worldSize evenRank oddRank : ℕ) (buffered : Bool)
    (invariant : PairInvariant even odd pings pongs) :
    (even.point = .finalized → odd.point ≠ .finalized →
      (Endpoint.step worldSize oddRank buffered ⟨odd, pings, pongs⟩).isSome) ∧
    (odd.point = .finalized → even.point ≠ .finalized →
      (Endpoint.step worldSize evenRank buffered ⟨even, pongs, pings⟩).isSome) := by
  cases invariant with
  | @idle even odd value low high evenIdle oddReady =>
      refine ⟨?_, fun _ running => evenIdle.enabled _ _ _ running⟩
      rintro rfl running
      exact oddReady.enabled _ _ _ (.inr evenIdle) running
  | @ping even odd value low high waiting oddReady =>
      constructor
      · rintro rfl
        exact waiting.elim
      · rintro rfl
        simp only [OddReady] at oddReady
        omega
  | received low high waiting | reply low high waiting =>
      constructor
      · rintro rfl
        exact waiting.elim
      · intro impossible
        cases impossible
  | pong low high waiting oddReady =>
      constructor
      · rintro rfl
        exact waiting.elim
      · intro _ _
        exact waiting.enabled _ _ _

section World

variable {worldSize : ℕ} {state : State}

theorem system_step_isSome {worldRank : ℕ} {buffered : Bool} (inWorld : worldRank < worldSize)
    (enabled : ((state.endpoint worldRank).step worldSize worldRank buffered).isSome) :
    ((system worldSize).step state ⟨worldRank, buffered⟩).isSome := by
  simpa [system, inWorld] using enabled

theorem rank_cases (evenWorld : worldSize % 2 = 0) {worldRank : ℕ}
    (inWorld : worldRank < worldSize) :
    ∃ pair, 2 * pair + 1 < worldSize ∧ (worldRank = 2 * pair ∨ worldRank = 2 * pair + 1) :=
  ⟨worldRank / 2, by omega, by omega⟩

theorem WorldInvariant.pair_progress (invariant : WorldInvariant worldSize state) {pair : ℕ}
    (inside : 2 * pair + 1 < worldSize) (mode : ℕ → Bool) :
    (∃ worldRank < worldSize, ((system worldSize).step state ⟨worldRank, mode worldRank⟩).isSome) ∨
      PairDone (state.process (2 * pair)) (state.process (2 * pair + 1))
        (state.channel (2 * pair) (2 * pair + 1)) (state.channel (2 * pair + 1) (2 * pair)) := by
  have phases := (invariant.pairs pair inside).progress worldSize (2 * pair) (2 * pair + 1)
    (mode (2 * pair)) (mode (2 * pair + 1))
  rcases phases with evenMoves | oddMoves | done
  · refine .inl ⟨2 * pair, by omega, system_step_isSome (by omega) ?_⟩
    simpa [State.endpoint] using evenMoves
  · refine .inl ⟨2 * pair + 1, inside, system_step_isSome inside ?_⟩
    simpa [State.endpoint] using oddMoves
  · exact .inr done

theorem WorldInvariant.final (evenWorld : worldSize % 2 = 0)
    (invariant : WorldInvariant worldSize state) (stuck : (system worldSize).Stuck state) :
    (∀ worldRank < worldSize, state.process worldRank = ⟨.finalized, 10⟩) ∧
      ∀ sender receiver, state.channel sender receiver = [] := by
  have done (pair : ℕ) (inside : 2 * pair + 1 < worldSize) :
      PairDone (state.process (2 * pair)) (state.process (2 * pair + 1))
        (state.channel (2 * pair) (2 * pair + 1)) (state.channel (2 * pair + 1) (2 * pair)) := by
    rcases invariant.pair_progress inside (fun _ => true) with ⟨worldRank, _, moves⟩ | done
    · rw [stuck] at moves
      cases moves
    · exact done
  constructor
  · intro worldRank inWorld
    obtain ⟨pair, inside, rfl | rfl⟩ := rank_cases evenWorld inWorld
    · exact (done pair inside).1
    · exact (done pair inside).2.1
  · intro sender receiver
    by_cases used : sender < worldSize ∧ receiver = peer sender
    · obtain ⟨inWorld, rfl⟩ := used
      obtain ⟨pair, inside, rfl | rfl⟩ := rank_cases evenWorld inWorld
      · simpa using (done pair inside).2.2.1
      · simpa using (done pair inside).2.2.2
    · exact invariant.quiet sender receiver (by omega)

/-- Safety, progress under either send mode, and the shape of final states, for
every interleaving of an even world. -/
theorem ping_deadlock_free (evenWorld : worldSize % 2 = 0)
    (reachable : (system worldSize).Reachable state) :
    (∀ pair, 2 * pair + 1 < worldSize →
      PairAgrees (state.process (2 * pair)) (state.process (2 * pair + 1))
        (state.channel (2 * pair) (2 * pair + 1)) (state.channel (2 * pair + 1) (2 * pair))) ∧
    (∀ mode : ℕ → Bool,
      (∃ worldRank < worldSize, (state.process worldRank).point ≠ .finalized) →
      ∃ worldRank < worldSize,
        ((system worldSize).step state ⟨worldRank, mode worldRank⟩).isSome) ∧
    (∀ worldRank < worldSize, ∀ buffered, (state.process (peer worldRank)).point = .finalized →
      (state.process worldRank).point ≠ .finalized →
      ((system worldSize).step state ⟨worldRank, buffered⟩).isSome) ∧
    ((system worldSize).Stuck state →
      (∀ worldRank < worldSize, state.process worldRank = ⟨.finalized, 10⟩) ∧
        ∀ sender receiver, state.channel sender receiver = []) := by
  have invariant := reachable_worldInvariant evenWorld reachable
  refine ⟨fun pair inside => (invariant.pairs pair inside).agrees, ?_, ?_,
    invariant.final evenWorld⟩
  · rintro mode ⟨worldRank, inWorld, running⟩
    obtain ⟨pair, inside, rank⟩ := rank_cases evenWorld inWorld
    rcases invariant.pair_progress inside mode with moves | ⟨evenDone, oddDone, _⟩
    · exact moves
    · rcases rank with rfl | rfl
      · exact absurd (by rw [evenDone]) running
      · exact absurd (by rw [oddDone]) running
  · intro worldRank inWorld buffered peerDone running
    apply system_step_isSome inWorld
    obtain ⟨pair, inside, rfl | rfl⟩ := rank_cases evenWorld inWorld
    · rw [peer_even] at peerDone
      simpa [State.endpoint] using ((invariant.pairs pair inside).not_abandoned worldSize
        (2 * pair) (2 * pair + 1) buffered).2 peerDone running
    · rw [peer_odd] at peerDone
      simpa [State.endpoint] using ((invariant.pairs pair inside).not_abandoned worldSize
        (2 * pair) (2 * pair + 1) buffered).1 peerDone running

end World

/-- Rank 1 of four has sent its last pong and is done, the others are not. -/
theorem ping_deadlock_free_four : ∃ state : State, (system 4).Reachable state ∧
    state.channel 1 0 = [10] ∧ (state.process 1).point = .finalized ∧
    PairAgrees (state.process 0) (state.process 1) (state.channel 0 1) (state.channel 1 0) ∧
    (∃ worldRank < 4, ((system 4).step state ⟨worldRank, false⟩).isSome) ∧
    ((system 4).step state ⟨0, false⟩).isSome ∧ ¬ (system 4).Stuck state := by
  let round : List Action :=
    [⟨0, true⟩, ⟨0, true⟩, ⟨1, true⟩, ⟨1, true⟩, ⟨1, true⟩, ⟨1, true⟩, ⟨0, true⟩]
  have reached : ∃ state, (system 4).execute State.initial
      (⟨0, true⟩ :: ⟨1, true⟩ :: ((List.replicate 9 round).flatten ++
        [⟨0, true⟩, ⟨0, true⟩, ⟨1, true⟩, ⟨1, true⟩, ⟨1, true⟩, ⟨1, true⟩, ⟨1, true⟩])) =
          some state ∧
      state.channel 1 0 = [10] ∧ (state.process 1).point = .finalized ∧
      (state.process 0).point = .recvPong := ⟨_, rfl, rfl, rfl, rfl⟩
  obtain ⟨state, executed, pong, done, waiting⟩ := reached
  have reachable := (System.Reachable.of_initial rfl).execute executed
  have running : (state.process 0).point ≠ .finalized := by
    rw [waiting]
    decide
  obtain ⟨agrees, moves, notLeft, final⟩ := ping_deadlock_free (by decide) reachable
  refine ⟨state, reachable, pong, done, agrees 0 (by decide),
    moves (fun _ => false) ⟨0, by decide, running⟩, notLeft 0 (by decide) false done running, ?_⟩
  intro stuck
  have drained := (final stuck).2 1 0
  rw [pong] at drained
  cases drained

end Ence360.Distributed.Ping
