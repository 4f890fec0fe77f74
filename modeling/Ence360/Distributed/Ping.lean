import Mathlib.Data.Int.Notation
import Mathlib.Logic.Function.Basic
import Ence360.Semantics.Transition

/-!
# Ping and pong between pairs of ranks (`lab8Distributed/ping.c`)

A channel is a FIFO queue for each ordered pair of ranks. `MPI_Send` posts its
message and then either returns at once, the message being buffered, or waits
until the message has been received; the action says which.
-/

set_option autoImplicit false

namespace Ence360.Distributed.Ping

open Ence360.Semantics

/-- Program points of `main`. `recvPing`, `increment`, `sendPong` and `awaitPong`
are the loop body of an odd rank, `sendPing`, `awaitPing` and `recvPong` that of
an even one. -/
inductive Point where
  | start
  | usageError
  | loop
  | recvPing
  | increment
  | sendPong
  | awaitPong
  | sendPing
  | awaitPing
  | recvPong
  | finalized
  deriving DecidableEq, Repr

structure Process where
  point : Point
  value : ℤ
  deriving DecidableEq, Repr

def peer (worldRank : ℕ) : ℕ :=
  if worldRank % 2 = 1 then worldRank - 1 else worldRank + 1

structure Endpoint where
  process : Process
  incoming : List ℤ
  outgoing : List ℤ
  deriving DecidableEq, Repr

/-- Post `value` and go on at `after`, or wait at `await` for its receive. -/
def Endpoint.send (endpoint : Endpoint) (buffered : Bool) (after await : Point) : Endpoint where
  process := { endpoint.process with point := if buffered then after else await }
  incoming := endpoint.incoming
  outgoing := endpoint.outgoing ++ [endpoint.process.value]

/-- A waiting send returns once its message, the last one posted, is received. -/
def Endpoint.await (endpoint : Endpoint) (after : Point) : Option Endpoint :=
  match endpoint.outgoing with
  | [] => some { endpoint with process := { endpoint.process with point := after } }
  | _ :: _ => none

/-- Take the oldest message into `value`; blocked while there is none. -/
def Endpoint.receive (endpoint : Endpoint) (after : Point) : Option Endpoint :=
  match endpoint.incoming with
  | [] => none
  | value :: rest => some { endpoint with process := ⟨after, value⟩, incoming := rest }

def Endpoint.step (worldSize worldRank : ℕ) (buffered : Bool) (endpoint : Endpoint) :
    Option Endpoint :=
  let process := endpoint.process
  let goto point := some { endpoint with process := { process with point := point } }
  match process.point with
  | .start => if worldSize % 2 ≠ 0 then goto .usageError else goto .loop
  | .usageError => none
  | .loop =>
      if process.value < 10 then
        if worldRank % 2 = 1 then goto .recvPing else goto .sendPing
      else goto .finalized
  | .recvPing => endpoint.receive .increment
  | .increment =>
      some { endpoint with process := ⟨.sendPong, process.value + 1⟩ }
  | .sendPong => some (endpoint.send buffered .loop .awaitPong)
  | .awaitPong => endpoint.await .loop
  | .sendPing => some (endpoint.send buffered .recvPong .awaitPing)
  | .awaitPing => endpoint.await .recvPong
  | .recvPong => endpoint.receive .loop
  | .finalized => none

/-- All processes, and the queue from each sender to each receiver. -/
structure State where
  process : ℕ → Process
  channel : ℕ → ℕ → List ℤ

/-- The rank that moves, and the mode `MPI_Send` uses should it send. -/
structure Action where
  worldRank : ℕ
  buffered : Bool
  deriving DecidableEq, Repr

def State.endpoint (state : State) (worldRank : ℕ) : Endpoint where
  process := state.process worldRank
  incoming := state.channel (peer worldRank) worldRank
  outgoing := state.channel worldRank (peer worldRank)

/-- Store an endpoint back, leaving every other process and queue alone. -/
def State.commit (state : State) (worldRank : ℕ) (endpoint : Endpoint) : State where
  process := Function.update state.process worldRank endpoint.process
  channel sender receiver :=
    if sender = peer worldRank ∧ receiver = worldRank then endpoint.incoming
    else if sender = worldRank ∧ receiver = peer worldRank then endpoint.outgoing
    else state.channel sender receiver

def State.initial : State where
  process _ := ⟨.start, 0⟩
  channel _ _ := []

def system (worldSize : ℕ) : System State Action where
  initial state := state = State.initial
  step state action :=
    if action.worldRank < worldSize then
      ((state.endpoint action.worldRank).step worldSize action.worldRank action.buffered).map
        (state.commit action.worldRank)
    else none

end Ence360.Distributed.Ping
