import Ence360.Semantics.LinkedRing
import Ence360.Semantics.Transition
import Mathlib.Data.Fintype.Basic

/-!
# The buffer cache and its disk (`lab10xv6/xv6/bio.c`, `ide.c`, `sleeplock.c`)

A session is one use of a block, from `bread` to `brelse`; a process that has
several buffers at a time has as many sessions. What is done under `bcache.lock`,
`idelock` or the lock of a sleeplock is one step. Data that are written leave for
the disk in `idestart`, and data that are read come with the interrupt, unless the
drive reports an error.
-/

set_option autoImplicit false

namespace Ence360.Xv6.Bio

open Semantics

def nbuf : ℕ := 30

def fssize : UInt32 := 1000

abbrev Index := Fin nbuf

structure Buf (Data Session : Type) where
  valid : Bool
  dirty : Bool
  dev : UInt32
  blockno : UInt32
  /-- The session that has the sleeplock of the buffer. -/
  lock : Option Session
  refcnt : ℕ
  data : Data

/-- Where a session is. -/
inductive Phase where
  | idle
  /-- In `acquiresleep`. -/
  | waiting (b : Index)
  /-- In `bread` with the lock. -/
  | locked (b : Index)
  /-- Asleep in `iderw`. -/
  | io (b : Index)
  /-- Between `bread` and `brelse`; `stored` when the data were changed since the
  buffer was last marked or written. -/
  | holding (b : Index) (stored : Bool)
  /-- In `brelse` without the lock. -/
  | releasing (b : Index)
  deriving DecidableEq

inductive Panic where
  | noBuffers
  | bwrite
  | brelse
  | notLocked
  | nothingToDo
  | noDisk1
  | blockno
  deriving DecidableEq

structure State (Data Session : Type) where
  buf : Index → Buf Data Session
  links : Links Index
  idequeue : List Index
  /-- What is on the drives. -/
  disk : UInt32 → UInt32 → Data
  phase : Session → Phase
  panicked : Option Panic

inductive Action (Data Session : Type) where
  /-- `bget` under `bcache.lock`. -/
  | bget (i : Session) (dev blockno : UInt32)
  | acquiresleep (i : Session)
  /-- `bread` after `bget`. -/
  | bread (i : Session)
  /-- `ready` when `idewait(1)` finds no error. -/
  | ideintr (ready : Bool)
  /-- `iderw` after its loop. -/
  | wake (i : Session)
  /-- The session changes the data. -/
  | store (i : Session) (data : Data)
  /-- `log_write` sets `B_DIRTY`. -/
  | mark (i : Session)
  | bwrite (i : Session)
  /-- `brelse` up to `releasesleep`. -/
  | releasesleep (i : Session)
  /-- `brelse` under `bcache.lock`. -/
  | brelse (i : Session)

section Operations

variable {Data Session : Type} [DecidableEq Session]

def State.panic (state : State Data Session) (panic : Panic) : State Data Session :=
  { state with panicked := some panic }

def State.setBuf (state : State Data Session) (b : Index) (buf : Buf Data Session) :
    State Data Session :=
  { state with buf := Function.update state.buf b buf }

def State.setPhase (state : State Data Session) (i : Session) (phase : Phase) :
    State Data Session :=
  { state with phase := Function.update state.phase i phase }

def bget (state : State Data Session) (i : Session) (dev blockno : UInt32) :
    State Data Session :=
  let cached (b : Index) := (state.buf b).dev = dev ∧ (state.buf b).blockno = blockno
  let unused (b : Index) := (state.buf b).refcnt = 0 ∧ (state.buf b).dirty = false
  match Links.search state.links.next (fun b => cached b) nbuf (state.links.next none) with
  | some b =>
      let buf := state.buf b
      (state.setBuf b { buf with refcnt := buf.refcnt + 1 }).setPhase i (.waiting b)
  | none =>
      match Links.search state.links.prev (fun b => unused b) nbuf (state.links.prev none) with
      | some b =>
          (state.setBuf b { state.buf b with
            dev, blockno, valid := false, dirty := false, refcnt := 1 }).setPhase i (.waiting b)
      | none => state.panic .noBuffers

def acquiresleep (state : State Data Session) (i : Session) (b : Index) : State Data Session :=
  (state.setBuf b { state.buf b with lock := some i }).setPhase i (.locked b)

/-- The drive of a device. -/
def drive (dev : UInt32) : UInt32 :=
  dev &&& 1

def idestart (state : State Data Session) (b : Index) : State Data Session :=
  let buf := state.buf b
  if fssize ≤ buf.blockno then state.panic .blockno
  else if buf.dirty then
    { state with
      disk := Function.update state.disk (drive buf.dev)
        (Function.update (state.disk (drive buf.dev)) buf.blockno buf.data) }
  else state

/-- `iderw` until it sleeps. -/
def iderw (havedisk1 : Bool) (state : State Data Session) (i : Session) (b : Index) :
    State Data Session :=
  let buf := state.buf b
  if buf.lock ≠ some i then state.panic .notLocked
  else if buf.valid ∧ ¬ buf.dirty then state.panic .nothingToDo
  else if buf.dev ≠ 0 ∧ ¬ havedisk1 then state.panic .noDisk1
  else
    let state := { state with idequeue := state.idequeue ++ [b] }.setPhase i (.io b)
    if state.idequeue.head? = some b then idestart state b else state

def bread (havedisk1 : Bool) (state : State Data Session) (i : Session) (b : Index) :
    State Data Session :=
  if (state.buf b).valid then state.setPhase i (.holding b false) else iderw havedisk1 state i b

/-- The buffer is marked valid also when its data could not be read. -/
def ideintr (state : State Data Session) (b : Index) (queue : List Index) (ready : Bool) :
    State Data Session :=
  let buf := state.buf b
  let data := if ¬ buf.dirty ∧ ready then state.disk (drive buf.dev) buf.blockno else buf.data
  let state := { state with idequeue := queue }.setBuf b
    { buf with data, valid := true, dirty := false }
  match queue with
  | [] => state
  | next :: _ => idestart state next

def mark (state : State Data Session) (i : Session) (b : Index) : State Data Session :=
  (state.setBuf b { state.buf b with dirty := true }).setPhase i (.holding b false)

def bwrite (havedisk1 : Bool) (state : State Data Session) (i : Session) (b : Index) :
    State Data Session :=
  if (state.buf b).lock ≠ some i then state.panic .bwrite
  else iderw havedisk1 (state.setBuf b { state.buf b with dirty := true }) i b

def releasesleep (state : State Data Session) (i : Session) (b : Index) : State Data Session :=
  if (state.buf b).lock ≠ some i then state.panic .brelse
  else (state.setBuf b { state.buf b with lock := none }).setPhase i (.releasing b)

def brelse (state : State Data Session) (i : Session) (b : Index) : State Data Session :=
  let buf := { state.buf b with refcnt := (state.buf b).refcnt - 1 }
  let state := (state.setBuf b buf).setPhase i .idle
  if buf.refcnt = 0 then { state with links := (state.links.unlink b).pushFront b } else state

def step (havedisk1 : Bool) (state : State Data Session) :
    Action Data Session → Option (State Data Session)
  | .bget i dev blockno =>
      if state.phase i = .idle then some (bget state i dev blockno) else none
  | .acquiresleep i =>
      match state.phase i with
      | .waiting b => if (state.buf b).lock = none then some (acquiresleep state i b) else none
      | _ => none
  | .bread i =>
      match state.phase i with
      | .locked b => some (bread havedisk1 state i b)
      | _ => none
  | .ideintr ready =>
      match state.idequeue with
      | b :: queue => some (ideintr state b queue ready)
      | [] => none
  | .wake i =>
      match state.phase i with
      | .io b =>
          if (state.buf b).valid ∧ ¬ (state.buf b).dirty then
            some (state.setPhase i (.holding b false))
          else none
      | _ => none
  | .store i data =>
      match state.phase i with
      | .holding b _ =>
          some ((state.setBuf b { state.buf b with data }).setPhase i (.holding b true))
      | _ => none
  | .mark i =>
      match state.phase i with
      | .holding b _ => some (mark state i b)
      | _ => none
  | .bwrite i =>
      match state.phase i with
      | .holding b _ => some (bwrite havedisk1 state i b)
      | _ => none
  | .releasesleep i =>
      match state.phase i with
      | .holding b _ => some (releasesleep state i b)
      | _ => none
  | .brelse i =>
      match state.phase i with
      | .releasing b => some (brelse state i b)
      | _ => none

/-- The buffers at `binit`. -/
def blank (zero : Data) : Buf Data Session where
  valid := false
  dirty := false
  dev := 0
  blockno := 0
  lock := none
  refcnt := 0
  data := zero

def binit (links : Links Index) : Links Index :=
  (List.finRange nbuf).foldl (fun links b => links.pushFront b) links.clear

def initial (zero : Data) (links : Links Index) (disk : UInt32 → UInt32 → Data) :
    State Data Session where
  buf _ := blank zero
  links := binit links
  idequeue := []
  disk
  phase _ := .idle
  panicked := none

/-- No step is taken after a panic. -/
def system (havedisk1 : Bool) (zero : Data) :
    Semantics.System (State Data Session) (Action Data Session) where
  initial state := ∃ links disk, state = initial zero links disk
  step state action := if state.panicked = none then step havedisk1 state action else none

end Operations

end Ence360.Xv6.Bio
