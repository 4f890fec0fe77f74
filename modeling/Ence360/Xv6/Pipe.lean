import Ence360.Semantics.Transition
import Mathlib.Logic.Function.Basic
import Mathlib.Tactic.Common

/-!
# Pipes (`lab10xv6/xv6/pipe.c`)

Any number of processes read and write one pipe, one loop turn at a time, under
its lock; `sleep` gives the lock back. A signal to a process may come at any
point, also between its last look at `killed` and `sleep`.
-/

set_option autoImplicit false

namespace Ence360.Xv6

open Semantics

structure Pipe (Byte : Type) where
  data : ℕ → Byte
  nread : UInt32
  nwrite : UInt32
  readopen : Bool
  writeopen : Bool

namespace Pipe

def pipeSize : UInt32 := 512

section Buffer

variable {Byte : Type} (pipe : Pipe Byte)

def full : Bool :=
  pipe.nwrite == pipe.nread + pipeSize

def empty : Bool :=
  pipe.nread == pipe.nwrite

def push (byte : Byte) : Pipe Byte :=
  { pipe with
    data := Function.update pipe.data (pipe.nwrite % pipeSize).toNat byte
    nwrite := pipe.nwrite + 1 }

def front : Byte :=
  pipe.data (pipe.nread % pipeSize).toNat

def pop : Pipe Byte :=
  { pipe with nread := pipe.nread + 1 }

end Buffer

/-- Where a call stands: `entering` waits for the lock, for the first time or after
`sleep`; `dozing` has decided to sleep. A read is `waiting` at the test of its
first loop; both calls copy in the second one. -/
inductive Phase where
  | entering
  | waiting
  | copying
  | dozing
  | sleeping
  deriving DecidableEq

/-- The lock is held. -/
def Phase.holds : Phase → Bool
  | .waiting | .copying | .dozing => true
  | .entering | .sleeping => false

/-- `pipewrite` has copied `addr[0]` to `addr[i - 1]`, `piperead` has filled `addr`. -/
inductive Call (Byte : Type) where
  | outside
  | write (phase : Phase) (addr : List Byte) (i : ℕ)
  | read (phase : Phase) (n : ℕ) (addr : List Byte)

namespace Call

variable {Byte : Type}

def isWrite : Call Byte → Bool
  | .write _ _ _ => true
  | .outside | .read _ _ _ => false

def isRead : Call Byte → Bool
  | .read _ _ _ => true
  | .outside | .write _ _ _ => false

/-- `wakeup(&p->nread)`. -/
def wakeReader : Call Byte → Call Byte
  | .read .sleeping n addr => .read .entering n addr
  | call => call

/-- `wakeup(&p->nwrite)`. -/
def wakeWriter : Call Byte → Call Byte
  | .write .sleeping addr i => .write .entering addr i
  | call => call

end Call

structure Process (Byte : Type) where
  call : Call Byte
  killed : Bool

structure State (Byte : Type) where
  pipe : Pipe Byte
  lock : Option ℕ
  procs : List (Process Byte)

inductive Action (Byte : Type) where
  | callWrite (k : ℕ) (addr : List Byte)
  | callRead (k n : ℕ)
  | acquire (k : ℕ)
  | proceed (k : ℕ)
  | closeWrite
  | closeRead
  | kill (k : ℕ)

namespace State

variable {Byte : Type} (state : State Byte)

def setCall (k : ℕ) (call : Call Byte) : State Byte :=
  { state with procs := state.procs.modify k fun process => { process with call := call } }

def wake (awake : Call Byte → Call Byte) : State Byte :=
  { state with procs := state.procs.map fun process => { process with call := awake process.call } }

/-- `release`, with the call of process `k` as it goes on without the lock. -/
def leave (k : ℕ) (call : Call Byte) : State Byte :=
  { state.setCall k call with lock := none }

end State

variable {Byte : Type}

/-- One turn of the loops of `pipewrite`. -/
def pipewrite (state : State Byte) (k : ℕ) (killed : Bool) (phase : Phase) (addr : List Byte)
    (i : ℕ) : Option (State Byte) :=
  match phase with
  | .copying =>
      match addr[i]? with
      | none => some ((state.wake Call.wakeReader).leave k .outside)
      | some byte =>
          if state.pipe.full then
            if state.pipe.readopen = false ∨ killed = true then some (state.leave k .outside)
            else some (state.setCall k (.write .dozing addr i))
          else
            some { state.setCall k (.write .copying addr (i + 1)) with
              pipe := state.pipe.push byte }
  | .dozing => some ((state.wake Call.wakeReader).leave k (.write .sleeping addr i))
  | .entering | .waiting | .sleeping => none

/-- One turn of the loops of `piperead`. -/
def piperead (state : State Byte) (k : ℕ) (killed : Bool) (phase : Phase) (n : ℕ)
    (addr : List Byte) : Option (State Byte) :=
  match phase with
  | .waiting =>
      if state.pipe.empty ∧ state.pipe.writeopen then
        if killed then some (state.leave k .outside)
        else some (state.setCall k (.read .dozing n addr))
      else some (state.setCall k (.read .copying n addr))
  | .copying =>
      if addr.length < n ∧ state.pipe.empty = false then
        some { state.setCall k (.read .copying n (addr ++ [state.pipe.front])) with
          pipe := state.pipe.pop }
      else some ((state.wake Call.wakeWriter).leave k .outside)
  | .dozing => some (state.leave k (.read .sleeping n addr))
  | .entering | .sleeping => none

def proceed (state : State Byte) (k : ℕ) : Option (State Byte) :=
  match state.procs[k]? with
  | some ⟨.write phase addr i, killed⟩ => pipewrite state k killed phase addr i
  | some ⟨.read phase n addr, killed⟩ => piperead state k killed phase n addr
  | _ => none

def acquire (state : State Byte) (k : ℕ) : Option (State Byte) :=
  match state.procs[k]? with
  | some ⟨.write .entering addr i, _⟩ =>
      some { state.setCall k (.write .copying addr i) with lock := some k }
  | some ⟨.read .entering n addr, _⟩ =>
      some { state.setCall k (.read .waiting n addr) with lock := some k }
  | _ => none

/-- `pipeclose` for the end that `writable` names. -/
def pipeclose (state : State Byte) (writable : Bool) : State Byte :=
  if writable then
    { state.wake Call.wakeReader with pipe := { state.pipe with writeopen := false } }
  else
    { state.wake Call.wakeWriter with pipe := { state.pipe with readopen := false } }

/-- `kill` also ends a sleep. -/
def kill (state : State Byte) (k : ℕ) : State Byte :=
  { state with procs := state.procs.modify k fun process =>
      { call := process.call.wakeReader.wakeWriter, killed := true } }

/-- What `pipealloc` makes. -/
structure Fresh (state : State Byte) : Prop where
  nread : state.pipe.nread = 0
  nwrite : state.pipe.nwrite = 0
  readopen : state.pipe.readopen = true
  writeopen : state.pipe.writeopen = true
  lock : state.lock = none
  procs : ∀ process ∈ state.procs, process.call = .outside

/-- A call on an end comes from a process that has it open, and `fileclose` closes
it for good when no process is left that has. -/
def system : System (State Byte) (Action Byte) where
  initial := Fresh
  step state action :=
    match action with
    | .callWrite k addr =>
        match state.procs[k]? with
        | some ⟨.outside, _⟩ =>
            if state.pipe.writeopen then some (state.setCall k (.write .entering addr 0)) else none
        | _ => none
    | .callRead k n =>
        match state.procs[k]? with
        | some ⟨.outside, _⟩ =>
            if state.pipe.readopen then some (state.setCall k (.read .entering n [])) else none
        | _ => none
    | .acquire k => if state.lock = none then acquire state k else none
    | .proceed k => if state.lock = some k then proceed state k else none
    | .closeWrite =>
        if state.lock = none ∧ state.pipe.writeopen ∧
            state.procs.all fun process => !process.call.isWrite then
          some (pipeclose state true)
        else none
    | .closeRead =>
        if state.lock = none ∧ state.pipe.readopen ∧
            state.procs.all fun process => !process.call.isRead then
          some (pipeclose state false)
        else none
    | .kill k => some (kill state k)

end Pipe

end Ence360.Xv6
