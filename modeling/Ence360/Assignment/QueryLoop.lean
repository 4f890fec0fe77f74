import Ence360.Assignment.Computation
import Ence360.Assignment.Workers
import Ence360.Semantics.Transition

/-!
# The loop over the queries (`assignment/serial.c`, `thread.c`)

One process computes and prints one query after the other. The input is the
list of queries that `getValidInput` accepts before it first returns false.
-/

set_option autoImplicit false

namespace Ence360.Assignment.QueryLoop

open Semantics Stdio

inductive Point where
  | prompt
  | getValidInput
  | computing
  | exited
  | failed
  deriving DecidableEq

structure State {D : Type} (config : Config) (computation : Computation D) where
  point : Point
  remaining : List (Query D)
  index : ℕ
  memory : computation.State
  buffer : Buffer config Source
  written : List (Cell Source)

inductive Action {D : Type} (computation : Computation D) where
  | main
  | compute (action : computation.Action)

variable {D : Type} {config : Config} {computation : Computation D}

def start (config : Config) (computation : Computation D) (queries : List (Query D)) :
    State config computation where
  point := .prompt
  remaining := queries
  index := 0
  memory := computation.initial
  buffer := .empty
  written := []

def State.print (state : State config computation) (source : Source) (text : List Char) :
    State config computation :=
  let output := state.buffer.print (tag source text)
  { state with buffer := output.buffer, written := state.written ++ output.written }

def step (pid : ℕ) (state : State config computation) :
    Action computation → Option (State config computation)
  | .main =>
      match state.point with
      | .prompt => some { state.print .prompt promptLine with point := .getValidInput }
      | .getValidInput =>
          match state.remaining with
          -- `_exit(0)` leaves the buffer unwritten.
          | [] => some { state with point := .exited }
          | query :: rest =>
              some { state with
                point := .computing
                remaining := rest
                memory := computation.enter state.memory query }
      | .computing =>
          match computation.line state.memory pid with
          | some text =>
              some { state.print (.result state.index) text with
                point := .getValidInput
                index := state.index + 1 }
          | none =>
              -- `exit(1)` flushes the buffer.
              if computation.failed state.memory then
                some { state with
                  point := .failed
                  buffer := .empty
                  written := state.written ++ state.buffer.flush.written }
              else none
      | .exited | .failed => none
  | .compute action =>
      match state.point with
      | .computing =>
          (computation.step state.memory action).map fun memory => { state with memory }
      | .prompt | .getValidInput | .exited | .failed => none

def system (config : Config) (computation : Computation D) (pid : ℕ) (queries : List (Query D)) :
    System (State config computation) (Action computation) where
  initial state := state = start config computation queries
  step := step pid

end QueryLoop

variable {D : Type} [Zero D] [NatCast D] [Add D] [Sub D] [Mul D] [Div D]

open Semantics Stdio

def serial (config : Config) (format : Format D) (pid : ℕ) (queries : List (Query D)) :
    System (QueryLoop.State config (serialComputation format))
      (QueryLoop.Action (serialComputation format)) :=
  QueryLoop.system config (serialComputation format) pid queries

/-- `THREADS` is 7. -/
def thread (config : Config) (format : Format D) (pid : ℕ) (queries : List (Query D)) :
    System (QueryLoop.State config (threadComputation 7 format))
      (QueryLoop.Action (threadComputation 7 format)) :=
  QueryLoop.system config (threadComputation 7 format) pid queries

end Ence360.Assignment
