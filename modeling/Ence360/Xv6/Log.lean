import Ence360.Semantics.Transition
import Mathlib.Logic.Function.Basic
import Mathlib.Tactic.Common

/-!
# The log (`lab10xv6/xv6/log.c`)

System calls of the file system between `begin_op` and `end_op`, the commit of
the last one to end, and the recovery after a crash. A write of one block is
atomic; a crash may come between any two of them. Buffers with unwritten data
are dirty and stay in the cache, every other block reads as it is on disk.
-/

set_option autoImplicit false

namespace Ence360.Xv6.Log

open Semantics

def maxOpBlocks : ℕ := 10

def logSize : ℕ := maxOpBlocks * 3

/-- The blocks of the log: its header, then the logged data. -/
structure Layout where
  start : ℕ
  size : ℕ

namespace Layout

variable (layout : Layout)

/-- The file system keeps its own blocks outside the log. -/
def Home (block : ℕ) : Prop :=
  block < layout.start ∨ layout.start + layout.size ≤ block

instance : DecidablePred layout.Home := fun block =>
  inferInstanceAs (Decidable (block < layout.start ∨ layout.start + layout.size ≤ block))

def slot (tail : ℕ) : ℕ :=
  layout.start + tail + 1

end Layout

/-- The header block is kept apart from the others, as the numbers it counts. -/
structure Disk (Block : Type) where
  block : ℕ → Block
  head : List ℕ

def Disk.write {Block : Type} (disk : Disk Block) (number : ℕ) (data : Block) : Disk Block :=
  { disk with block := Function.update disk.block number data }

/-- `entering` is about to test in `begin_op`, `storing` has passed the tests of
`log_write` and waits for the lock. The program does not record which `blocks`
an operation has logged. -/
inductive Process (Block : Type) where
  | outside
  | entering
  | sleeping
  | working (blocks : List ℕ)
  | storing (blocks : List ℕ) (block : ℕ) (data : Block)

def Process.blocks {Block : Type} : Process Block → List ℕ
  | .working blocks | .storing blocks _ _ => blocks
  | .outside | .entering | .sleeping => []

def Process.woken {Block : Type} : Process Block → Process Block
  | .sleeping => .entering
  | process => process

/-- The next action of `commit` or `recover_from_log`; `idle` is neither. -/
inductive Point where
  | idle
  | writeLog (tail : ℕ)
  | writeHead
  | install (tail : ℕ)
  | clear
  | release
  | readHead
  | panicked
  deriving DecidableEq

structure State (Block : Type) where
  disk : Disk Block
  dirty : ℕ → Option Block
  lh : List ℕ
  outstanding : ℕ
  committing : Bool
  procs : List (Process Block)
  point : Point

inductive Action (Block : Type) where
  | beginOp (i : ℕ)
  | logWrite (i block : ℕ) (data : Block)
  | logStore (i : ℕ)
  | endOp (i : ℕ)
  | proceed
  | crash

namespace State

variable {Block : Type} (state : State Block)

def bread (number : ℕ) : Block :=
  (state.dirty number).getD (state.disk.block number)

def bwrite (number : ℕ) (data : Block) : State Block :=
  { state with
    disk := state.disk.write number data
    dirty := Function.update state.dirty number none }

def setProc (i : ℕ) (process : Process Block) : State Block :=
  { state with procs := state.procs.set i process }

def blocks (i : ℕ) : List ℕ :=
  (state.procs[i]?.map Process.blocks).getD []

/-- `wakeup(&log)`. -/
def wakeup : State Block :=
  { state with procs := state.procs.map Process.woken }

/-- Processes run, possibly beside a commit; they do not during the recovery. -/
def live : Bool :=
  match state.point with
  | .idle => true
  | .panicked => false
  | .writeLog _ | .writeHead | .install _ | .clear | .release | .readHead => state.committing

def panic : State Block :=
  { state with point := .panicked }

end State

variable {Block : Type} (layout : Layout)

/-- One turn of the loop of `begin_op`. -/
def beginOp (state : State Block) (i : ℕ) : Option (State Block) :=
  match state.procs[i]? with
  | some .outside | some .entering =>
      if state.committing then some (state.setProc i .sleeping)
      else if state.lh.length + (state.outstanding + 1) * maxOpBlocks > logSize then
        some (state.setProc i .sleeping)
      else
        some { state.setProc i (.working []) with outstanding := state.outstanding + 1 }
  | _ => none

/-- The tests of `log_write`, which come before it takes the lock. -/
def logWrite (state : State Block) (i block : ℕ) (data : Block) : Option (State Block) :=
  match state.procs[i]? with
  | some (.working blocks) =>
      if state.lh.length ≥ logSize ∨ state.lh.length + 1 ≥ layout.size then some state.panic
      else if state.outstanding < 1 then some state.panic
      else some (state.setProc i (.storing blocks block data))
  | _ => none

/-- Where `log_write` finds the block in the header it stores the number again. -/
def absorb (lh : List ℕ) (block : ℕ) : List ℕ :=
  let i := lh.idxOf block
  if i = lh.length then lh ++ [block] else lh.set i block

/-- `log_write` under the lock. -/
def logStore (state : State Block) (i : ℕ) : Option (State Block) :=
  match state.procs[i]? with
  | some (.storing blocks block data) => some {
      state.setProc i (.working (blocks.insert block)) with
      lh := absorb state.lh block
      dirty := Function.update state.dirty block (some data) }
  | _ => none

/-- `end_op` up to the call of `commit`. -/
def endOp (state : State Block) (i : ℕ) : Option (State Block) :=
  match state.procs[i]? with
  | some (.working _) =>
      let ended := { state.setProc i .outside with outstanding := state.outstanding - 1 }
      if state.committing then some ended.panic
      else if state.outstanding - 1 = 0 then
        some { ended with
          committing := true
          point := if state.lh.length > 0 then .writeLog 0 else .release }
      else some ended.wakeup
  | _ => none

/-- The next block that `commit` or `recover_from_log` copies or writes. -/
def proceed (state : State Block) : Option (State Block) :=
  match state.point with
  | .idle | .panicked => none
  | .writeLog tail =>
      match state.lh[tail]? with
      | some block => some { state.bwrite (layout.slot tail) (state.bread block) with
          point := .writeLog (tail + 1) }
      | none => some { state with point := .writeHead }
  | .writeHead => some { state with
      disk := { state.disk with head := state.lh }
      point := .install 0 }
  | .install tail =>
      match state.lh[tail]? with
      | some block => some { state.bwrite block (state.bread (layout.slot tail)) with
          point := .install (tail + 1) }
      | none => some { state with lh := [], point := .clear }
  | .clear => some { state with
      disk := { state.disk with head := state.lh }
      point := if state.committing then .release else .idle }
  | .release => some { state.wakeup with committing := false, point := .idle }
  | .readHead => some { state with lh := state.disk.head, point := .install 0 }

/-- Only the disk survives. -/
def crash (state : State Block) : State Block where
  disk := state.disk
  dirty _ := none
  lh := []
  outstanding := 0
  committing := false
  procs := state.procs.map fun _ => .outside
  point := .readHead

/-- A header of some earlier run. -/
structure Disk.Valid (disk : Disk Block) : Prop where
  home : ∀ block ∈ disk.head, layout.Home block
  nodup : disk.head.Nodup
  fits : disk.head.length ≤ layout.size - 1

/-- The machine is switched on with any number of processes to come. -/
structure Boot (state : State Block) : Prop where
  valid : state.disk.Valid layout
  clean : ∀ block, state.dirty block = none
  lh : state.lh = []
  outstanding : state.outstanding = 0
  committing : state.committing = false
  procs : ∀ process ∈ state.procs, process = .outside
  point : state.point = .readHead

/-- What `log_write` expects of its callers: they change blocks outside the log,
and at most `bound` of them in one operation. -/
def Promised (bound : ℕ) (state : State Block) (i block : ℕ) : Prop :=
  layout.Home block ∧ ((state.blocks i).insert block).length ≤ bound

instance (bound : ℕ) (state : State Block) (i block : ℕ) :
    Decidable (Promised layout bound state i block) :=
  inferInstanceAs
    (Decidable (layout.Home block ∧ ((state.blocks i).insert block).length ≤ bound))

def system (bound : ℕ) : System (State Block) (Action Block) where
  initial := Boot layout
  step state action :=
    match action with
    | .beginOp i => if state.live then beginOp state i else none
    | .logWrite i block data =>
        if state.live ∧ Promised layout bound state i block then
          logWrite layout state i block data
        else none
    | .logStore i => if state.live then logStore state i else none
    | .endOp i => if state.live then endOp state i else none
    | .proceed => proceed layout state
    | .crash => some (crash state)

end Ence360.Xv6.Log
