import Ence360.Assignment.Workers
import Ence360.Semantics.Transition

/-!
# The pool of child processes (`assignment/process.c`, `processThread.c`)

The parent forks a child for every accepted query and bounds their number with
a semaphore. Children are reaped by the handler of `SIGCHLD` and, at the end of
the input, by the final loop over `wait`. The run starts after `sem_init`.
-/

set_option autoImplicit false

namespace Ence360.Assignment.ChildPool

open Semantics Stdio

/-- The point of the parent's `main`, named after the call it makes next. -/
inductive ParentPoint (D : Type) where
  | sigaction
  | prompt
  | semWait
  | getValidInput
  | fork (index : ℕ) (query : Query D)
  | forkError
  | forkPost
  | spawned (pid : ℕ)
  | wait
  | waitPost (pid : ℕ)
  | waitPrint (pid : ℕ)
  | waitFlush
  | exit
  | exited
  | failed

/-- The point of `handleChildExit`; while it is not `idle`, the parent's own
code is suspended and the signal blocked. -/
inductive HandlerPoint where
  | idle
  | waitpid
  | post (pid : ℕ)
  | print (pid : ℕ)
  | leave

inductive ChildPhase {D : Type} (computation : Computation D) where
  | computing (memory : computation.State)
  | printed
  | zombie

structure Child {D : Type} (config : Config) (computation : Computation D) where
  pid : ℕ
  /-- The number of the query the child was forked for. -/
  index : ℕ
  buffer : Buffer config Source
  phase : ChildPhase computation

structure State {D : Type} (config : Config) (computation : Computation D) where
  point : ParentPoint D
  handler : HandlerPoint
  pending : Bool
  semaphore : ℕ
  children : List (Child config computation)
  remaining : List (Query D)
  /-- The number of queries read so far. -/
  taken : ℕ
  buffer : Buffer config Source
  /-- What has reached the descriptor that all processes share. -/
  written : List (Cell Source)

/-- `parent` and `handler` are the next step of the parent's code; `kill` is
the end of a child by a signal. -/
inductive Action {D : Type} (computation : Computation D) where
  | parent
  | sigactionFails
  | fork (pid : ℕ)
  | forkFails
  | reap (k : ℕ)
  | deliver
  | handler
  | handlerReap (k : ℕ)
  | compute (k : ℕ) (action : computation.Action)
  | print (k : ℕ)
  | exit (k : ℕ)
  | abort (k : ℕ)
  | kill (k : ℕ)

variable {D : Type} {config : Config} {computation : Computation D}

def Action.fault : Action computation → Bool
  | .sigactionFails | .forkFails | .kill _ => true
  | .compute _ action => computation.fault action
  | .parent | .fork _ | .reap _ | .deliver | .handler | .handlerReap _ | .print _ | .exit _
  | .abort _ => false

def start (config : Config) (computation : Computation D) (maxChildren : ℕ)
    (queries : List (Query D)) : State config computation where
  point := .sigaction
  handler := .idle
  pending := false
  semaphore := maxChildren
  children := []
  remaining := queries
  taken := 0
  buffer := .empty
  written := []

def ChildPhase.isZombie : ChildPhase computation → Bool
  | .zombie => true
  | .computing _ | .printed => false

namespace State

def print (state : State config computation) (source : Source) (text : List Char) :
    State config computation :=
  let output := state.buffer.print (tag source text)
  { state with buffer := output.buffer, written := state.written ++ output.written }

def setChild (state : State config computation) (k : ℕ) (child : Child config computation) :
    State config computation :=
  { state with children := state.children.set k child }

/-- The end of a child raises `SIGCHLD`. -/
def endChild (state : State config computation) (k : ℕ) (child : Child config computation) :
    State config computation :=
  { state.setChild k { child with phase := .zombie } with pending := true }

def removeChild (state : State config computation) (k : ℕ) : State config computation :=
  { state with children := state.children.eraseIdx k }

def interruptible (state : State config computation) : Bool :=
  match state.point with
  | .sigaction | .exited | .failed => false
  | .prompt | .semWait | .getValidInput | .fork _ _ | .forkError | .forkPost | .spawned _ | .wait
  | .waitPost _ | .waitPrint _ | .waitFlush | .exit => true

def parentStep (state : State config computation) : Option (State config computation) :=
  match state.point with
  | .sigaction => some { state with point := .prompt }
  | .prompt => some { state.print .prompt promptLine with point := .semWait }
  | .semWait =>
      if 0 < state.semaphore then
        some { state with point := .getValidInput, semaphore := state.semaphore - 1 }
      else none
  | .getValidInput =>
      match state.remaining with
      | [] => some { state with point := .wait }
      | query :: rest =>
          some { state with
            point := .fork state.taken query
            remaining := rest
            taken := state.taken + 1 }
  | .forkError => some { state with point := .forkPost }
  | .forkPost => some { state with point := .semWait, semaphore := state.semaphore + 1 }
  | .spawned pid => some { state.print .spawned (spawnedLine pid) with point := .semWait }
  | .wait => if state.children.isEmpty then some { state with point := .exit } else none
  | .waitPost pid => some { state with point := .waitPrint pid, semaphore := state.semaphore + 1 }
  | .waitPrint pid =>
      some { state.print .slotFreed (slotFreedLine pid) with point := .waitFlush }
  | .waitFlush =>
      some { state with
        point := .wait
        buffer := .empty
        written := state.written ++ state.buffer.flush.written }
  | .exit => some { state with point := .exited }
  | .fork _ _ | .exited | .failed => none

def sigactionFails (state : State config computation) : Option (State config computation) :=
  match state.point with
  | .sigaction => some { state with point := .failed }
  | _ => none

/-- The child starts with a copy of the parent's memory and buffer. -/
def forkStep (state : State config computation) (pid : ℕ) : Option (State config computation) :=
  match state.point with
  | .fork index query =>
      if pid = 0 ∨ pid ∈ state.children.map (·.pid) then none
      else
        some { state with
          point := .spawned pid
          children := state.children ++
            [{ pid
               index
               buffer := state.buffer
               phase := .computing (computation.enter computation.initial query) }] }
  | _ => none

def forkFails (state : State config computation) : Option (State config computation) :=
  match state.point with
  | .fork _ _ => some { state with point := .forkError }
  | _ => none

def reap (state : State config computation) (k : ℕ) : Option (State config computation) :=
  match state.point, state.children[k]? with
  | .wait, some { pid, phase := .zombie, .. } =>
      some { state.removeChild k with point := .waitPost pid }
  | _, _ => none

def handlerStep (state : State config computation) : Option (State config computation) :=
  match state.handler with
  | .idle => none
  | .waitpid =>
      if state.children.any (·.phase.isZombie) then none
      else some { state with handler := .leave }
  | .post pid => some { state with handler := .print pid, semaphore := state.semaphore + 1 }
  | .print pid => some { state.print .slotFreed (slotFreedLine pid) with handler := .waitpid }
  | .leave => some { state with handler := .idle }

def handlerReap (state : State config computation) (k : ℕ) : Option (State config computation) :=
  match state.handler, state.children[k]? with
  | .waitpid, some { pid, phase := .zombie, .. } =>
      some { state.removeChild k with handler := .post pid }
  | _, _ => none

def compute (state : State config computation) (k : ℕ) (action : computation.Action) :
    Option (State config computation) :=
  state.children[k]?.bind fun child =>
    match child.phase with
    | .computing memory =>
        (computation.step memory action).map fun memory =>
          state.setChild k { child with phase := .computing memory }
    | .printed | .zombie => none

def childPrint (state : State config computation) (k : ℕ) : Option (State config computation) :=
  state.children[k]?.bind fun child =>
    match child.phase with
    | .computing memory =>
        (computation.line memory child.pid).map fun text =>
          let output := child.buffer.print (tag (.result child.index) text)
          { state.setChild k { child with phase := .printed, buffer := output.buffer } with
            written := state.written ++ output.written }
    | .printed | .zombie => none

/-- `_exit(0)` in a child leaves its buffer unwritten. -/
def childExit (state : State config computation) (k : ℕ) : Option (State config computation) :=
  state.children[k]?.bind fun child =>
    match child.phase with
    | .printed => some (state.endChild k child)
    | .computing _ | .zombie => none

/-- `exit(1)` in a child flushes its buffer. -/
def childAbort (state : State config computation) (k : ℕ) : Option (State config computation) :=
  state.children[k]?.bind fun child =>
    match child.phase with
    | .computing memory =>
        if computation.failed memory then
          some { state.endChild k child with
            written := state.written ++ child.buffer.flush.written }
        else none
    | .printed | .zombie => none

def childKill (state : State config computation) (k : ℕ) : Option (State config computation) :=
  state.children[k]?.bind fun child =>
    match child.phase with
    | .computing _ | .printed => some (state.endChild k child)
    | .zombie => none

def whenIdle (state : State config computation) (next : Option (State config computation)) :
    Option (State config computation) :=
  match state.handler with
  | .idle => next
  | .waitpid | .post _ | .print _ | .leave => none

def deliver (state : State config computation) : Option (State config computation) :=
  if state.pending && state.interruptible then
    some { state with pending := false, handler := .waitpid }
  else none

end State

def step (state : State config computation) :
    Action computation → Option (State config computation)
  | .parent => state.whenIdle state.parentStep
  | .sigactionFails => state.whenIdle state.sigactionFails
  | .fork pid => state.whenIdle (state.forkStep pid)
  | .forkFails => state.whenIdle state.forkFails
  | .reap k => state.whenIdle (state.reap k)
  | .deliver => state.whenIdle state.deliver
  | .handler => state.handlerStep
  | .handlerReap k => state.handlerReap k
  | .compute k action => state.compute k action
  | .print k => state.childPrint k
  | .exit k => state.childExit k
  | .abort k => state.childAbort k
  | .kill k => state.childKill k

def system (config : Config) (computation : Computation D) (maxChildren : ℕ)
    (queries : List (Query D)) : System (State config computation) (Action computation) where
  initial state := state = start config computation maxChildren queries
  step := step

end ChildPool

variable {D : Type} [Zero D] [NatCast D] [Add D] [Sub D] [Mul D] [Div D]

open Semantics Stdio

/-- `MAX_CHILDREN` is 10. -/
def process (config : Config) (format : Format D) (queries : List (Query D)) :
    System (ChildPool.State config (processComputation format))
      (ChildPool.Action (processComputation format)) :=
  ChildPool.system config (processComputation format) 10 queries

/-- `THREADS` and `MAX_CHILDREN` are 4. -/
def processThread (config : Config) (format : Format D) (queries : List (Query D)) :
    System (ChildPool.State config (threadComputation 4 format))
      (ChildPool.Action (threadComputation 4 format)) :=
  ChildPool.system config (threadComputation 4 format) 4 queries

end Ence360.Assignment
