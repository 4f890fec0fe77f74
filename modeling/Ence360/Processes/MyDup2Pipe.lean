import Ence360.Semantics.Descriptors
import Ence360.Semantics.Transition

/-!
# A pipeline of three programs (`lab2Processes/myDup2Pipe.c`)

The calls of `main` up to `execl`, in any interleaving of the three processes.
The parent becomes `head`. The calls of `pipe` and `fork` succeed.
-/

set_option autoImplicit false

namespace Ence360.Processes.MyDup2Pipe

open Semantics

inductive PipeName where
  | pipe1
  | pipe2
  deriving DecidableEq

/-- `OUTP` is the read end of a pipe, `INP` its write end. -/
inductive End where
  | outp
  | inp
  deriving DecidableEq

/-- What a descriptor refers to: a file that was open at the start, or an end of
one of the two pipes. -/
inductive File (Inherited : Type) where
  | inherited (file : Inherited)
  | pipe (name : PipeName) (side : End)
  deriving DecidableEq

/-- An array of `pipe`, by the meaning of its two entries. -/
structure PipeFds where
  outp : ℕ
  inp : ℕ

def PipeFds.fd (fds : PipeFds) : End → ℕ
  | .outp => fds.outp
  | .inp => fds.inp

inductive Call where
  | dup2 (name : PipeName) (side : End) (target : ℕ)
  | close (name : PipeName) (side : End)
  deriving DecidableEq

def lsCalls : List Call :=
  [.dup2 .pipe1 .inp 1,
    .close .pipe1 .outp, .close .pipe1 .inp, .close .pipe2 .inp, .close .pipe2 .outp]

def sortCalls : List Call :=
  [.dup2 .pipe1 .outp 0, .dup2 .pipe2 .inp 1,
    .close .pipe1 .outp, .close .pipe1 .inp, .close .pipe2 .inp, .close .pipe2 .outp]

def headCalls : List Call :=
  [.dup2 .pipe2 .outp 0,
    .close .pipe1 .outp, .close .pipe1 .inp, .close .pipe2 .inp, .close .pipe2 .outp]

/-- Where a process is; without calls left it is at `execl`. -/
inductive Point where
  | makePipe1
  | makePipe2
  | forkLs
  | forkSort
  | calls (rest : List Call)
  deriving DecidableEq

variable {Inherited : Type}

structure Process (Inherited : Type) where
  pipe1 : PipeFds
  pipe2 : PipeFds
  point : Point
  table : DescriptorTable (File Inherited)

def Process.fd (process : Process Inherited) : PipeName → End → ℕ
  | .pipe1 => process.pipe1.fd
  | .pipe2 => process.pipe2.fd

def Process.call (process : Process Inherited) : Call → DescriptorTable (File Inherited)
  | .dup2 name side target => process.table.dup2 (process.fd name side) target
  | .close name side => process.table.close (process.fd name side)

def makePipe (name : PipeName) (table : DescriptorTable (File Inherited)) :
    PipeFds × DescriptorTable (File Inherited) :=
  let (outp, inp, table) := table.pipe (.pipe name .outp) (.pipe name .inp)
  ({ outp, inp }, table)

inductive Role where
  | ls
  | sort
  | head
  deriving DecidableEq

/-- The processes that have been started. -/
abbrev State (Inherited : Type) := Role → Option (Process Inherited)

/-- The process of a role makes its next call. -/
def step (state : State Inherited) (role : Role) : Option (State Inherited) := do
  let process ← state role
  match process.point with
  | .makePipe1 =>
      let (pipe1, table) := makePipe .pipe1 process.table
      return Function.update state role (some { process with pipe1, table, point := .makePipe2 })
  | .makePipe2 =>
      let (pipe2, table) := makePipe .pipe2 process.table
      return Function.update state role (some { process with pipe2, table, point := .forkLs })
  | .forkLs =>
      let state := Function.update state .ls (some { process with point := .calls lsCalls })
      return Function.update state role (some { process with point := .forkSort })
  | .forkSort =>
      let state := Function.update state .sort (some { process with point := .calls sortCalls })
      return Function.update state role (some { process with point := .calls headCalls })
  | .calls [] => none
  | .calls (call :: rest) =>
      return Function.update state role
        (some { process with table := process.call call, point := .calls rest })

/-- The parent alone, with the descriptors it inherited. -/
def Starts (inherited : DescriptorTable Inherited) (state : State Inherited) : Prop :=
  ∃ pipe1 pipe2, state = Function.update (fun _ => none) .head
    (some { pipe1, pipe2, point := .makePipe1, table := inherited.map .inherited })

def system (inherited : DescriptorTable Inherited) : System (State Inherited) Role where
  initial := Starts inherited
  step := step

end Ence360.Processes.MyDup2Pipe
