import Ence360.Assignment.Computation
import Ence360.Semantics.LockedSum

/-!
# One query on several threads (`assignment/thread.c`, `processThread.c`)

The main thread creates the workers, joins them in order and then reads the
total. `total` and the mutex outlive the query in `thread.c`, where they are
global.
-/

set_option autoImplicit false

namespace Ence360.Assignment

open Semantics

inductive MainPoint (D : Type) where
  | idle
  | creating (query : Query D) (i : ℕ) (currentStart : D)
  | joining (query : Query D) (i : ℕ)
  | ready (query : Query D)
  | failed (query : Query D)

structure Session (D : Type) where
  shared : LockedSum.State (ThreadArgs D) D
  point : MainPoint D

/-- `main` is the main thread with `pthread_create` succeeding, `worker i` the
next step of a worker. -/
inductive SessionAction where
  | main
  | createFails
  | worker (i : ℕ)

def SessionAction.fault : SessionAction → Bool
  | .createFails => true
  | .main | .worker _ => false

namespace Session

variable {D : Type} [Zero D] [NatCast D] [Add D] [Sub D] [Mul D] [Div D]

def initial : Session D where
  shared := { total := 0, holder := none, workers := [] }
  point := .idle

def enter (session : Session D) (query : Query D) : Session D where
  shared := { session.shared with total := 0, workers := [] }
  point := .creating query 0 query.rangeStart

/-- `pthread_join` returns once the worker is done. -/
def joined (session : Session D) (i : ℕ) : Bool :=
  match session.shared.workers[i]? with
  | some { point := .finished, .. } => true
  | some _ | none => false

def step (threads : ℕ) (session : Session D) : SessionAction → Option (Session D)
  | .main =>
      match session.point with
      | .creating query i currentStart =>
          if i < threads then
            let args := threadArgs threads query currentStart i
            some { shared := session.shared.spawn args
                   point := .creating query (i + 1) args.finish }
          else some { session with point := .joining query 0 }
      | .joining query i =>
          if i < threads then
            if session.joined i then some { session with point := .joining query (i + 1) }
            else none
          else some { session with point := .ready query }
      | .idle | .ready _ | .failed _ => none
  | .createFails =>
      match session.point with
      | .creating query i _ =>
          if i < threads then some { session with point := .failed query } else none
      | .idle | .joining _ _ | .ready _ | .failed _ => none
  | .worker i =>
      (LockedSum.step ThreadArgs.area session.shared i).map fun shared => { session with shared }

def line (format : Format D) (session : Session D) (_pid : ℕ) : Option (List Char) :=
  match session.point with
  | .ready query => some (integralLine format query session.shared.total)
  | .idle | .creating _ _ _ | .joining _ _ | .failed _ => none

def failed (session : Session D) : Bool :=
  match session.point with
  | .failed _ => true
  | .idle | .creating _ _ _ | .joining _ _ | .ready _ => false

end Session

variable {D : Type} [Zero D] [NatCast D] [Add D] [Sub D] [Mul D] [Div D]

def threadComputation (threads : ℕ) (format : Format D) : Computation D where
  State := Session D
  Action := SessionAction
  initial := .initial
  enter := Session.enter
  step := Session.step threads
  fault := SessionAction.fault
  line := Session.line format
  failed := Session.failed
  line_ends session pid text printed := by
    unfold Session.line at printed
    split at printed
    · cases printed
      exact ⟨_, rfl⟩
    all_goals cases printed

end Ence360.Assignment
