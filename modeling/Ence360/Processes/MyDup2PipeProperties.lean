import Ence360.Processes.MyDup2Pipe
import Mathlib.Data.Set.Insert

/-!
# The ends of the pipes at `execl`

Whatever the order of the processes, the calls that a process has left lead to
the same descriptor table. For every process it is the inherited table with the
redirections of its branch, and with nothing else that refers to a pipe.
-/

set_option autoImplicit false

namespace Ence360.Processes.MyDup2Pipe

open Semantics

variable {Inherited : Type}

section Tables

variable (inherited : DescriptorTable Inherited)

/-- The descriptors of the start. -/
def base (fd : ℕ) : Option (File Inherited) :=
  (inherited.file fd).map .inherited

/-- The descriptors each program is to have. -/
def wiredFile : Role → ℕ → Option (File Inherited)
  | .ls => Function.update (base inherited) 1 (some (.pipe .pipe1 .inp))
  | .sort => Function.update (Function.update (base inherited) 0 (some (.pipe .pipe1 .outp))) 1
      (some (.pipe .pipe2 .inp))
  | .head => Function.update (base inherited) 0 (some (.pipe .pipe2 .outp))

/-- The parent after its first call of `pipe`. -/
structure OnePipe (parent : Process Inherited) : Prop where
  outp1_free : base inherited parent.pipe1.outp = none
  inp1_free : base inherited parent.pipe1.inp = none
  distinct1 : parent.pipe1.outp ≠ parent.pipe1.inp
  file_eq : parent.table.file = Function.update (Function.update (base inherited)
    parent.pipe1.outp (some (.pipe .pipe1 .outp))) parent.pipe1.inp (some (.pipe .pipe1 .inp))

/-- The parent after both calls of `pipe`: four free descriptors, all different. -/
structure Piped (parent : Process Inherited) : Prop where
  outp1_free : base inherited parent.pipe1.outp = none
  inp1_free : base inherited parent.pipe1.inp = none
  outp2_free : base inherited parent.pipe2.outp = none
  inp2_free : base inherited parent.pipe2.inp = none
  distinct : [parent.pipe1.outp, parent.pipe1.inp, parent.pipe2.outp, parent.pipe2.inp].Nodup
  file_eq : parent.table.file = Function.update (Function.update
    (Function.update (Function.update (base inherited)
      parent.pipe1.outp (some (.pipe .pipe1 .outp))) parent.pipe1.inp (some (.pipe .pipe1 .inp)))
    parent.pipe2.outp (some (.pipe .pipe2 .outp))) parent.pipe2.inp (some (.pipe .pipe2 .inp))

end Tables

variable {inherited : DescriptorTable Inherited}

theorem makePipe_spec (name : PipeName) (table : DescriptorTable (File Inherited)) :
    ∃ fds opened, makePipe name table = (fds, opened) ∧
      table.file fds.outp = none ∧ table.file fds.inp = none ∧ fds.outp ≠ fds.inp ∧
      opened.file = Function.update (Function.update table.file fds.outp
        (some (.pipe name .outp))) fds.inp (some (.pipe name .inp)) := by
  obtain ⟨outp, inp, opened, made, outpFree, inpFree, different, file⟩ :=
    table.pipe_spec (.pipe name .outp) (.pipe name .inp)
  refine ⟨{ outp, inp }, opened, ?_, outpFree, inpFree, different, file⟩
  rw [makePipe, made]

theorem update_eq_none {Entry : Type} {file : ℕ → Option Entry} {fd other : ℕ} {entry : Entry}
    (free : Function.update file fd (some entry) other = none) :
    other ≠ fd ∧ file other = none := by
  have different : other ≠ fd := by
    intro same
    rw [same, Function.update_self] at free
    cases free
  rw [Function.update_of_ne different] at free
  exact ⟨different, free⟩

theorem OnePipe.piped {parent : Process Inherited} (one : OnePipe inherited parent)
    {fds : PipeFds} {opened : DescriptorTable (File Inherited)} {point : Point}
    (outpFree : parent.table.file fds.outp = none) (inpFree : parent.table.file fds.inp = none)
    (different : fds.outp ≠ fds.inp)
    (file : opened.file = Function.update (Function.update parent.table.file fds.outp
      (some (.pipe .pipe2 .outp))) fds.inp (some (.pipe .pipe2 .inp))) :
    Piped inherited { parent with pipe2 := fds, table := opened, point } := by
  rw [one.file_eq] at outpFree inpFree file
  obtain ⟨outpNeInp1, outpFree⟩ := update_eq_none outpFree
  obtain ⟨outpNeOutp1, outpFree⟩ := update_eq_none outpFree
  obtain ⟨inpNeInp1, inpFree⟩ := update_eq_none inpFree
  obtain ⟨inpNeOutp1, inpFree⟩ := update_eq_none inpFree
  refine ⟨one.outp1_free, one.inp1_free, outpFree, inpFree, ?_, file⟩
  simp [one.distinct1, outpNeInp1.symm, outpNeOutp1.symm, inpNeInp1.symm, inpNeOutp1.symm,
    different]

/-- The table after the calls that are left. -/
def outcome (process : Process Inherited) : List Call → DescriptorTable (File Inherited)
  | [] => process.table
  | call :: rest =>
      outcome { process with table := process.call call, point := .calls rest } rest

/-- The descriptors 0, 1 and 2 are open. -/
def StandardOpen (inherited : DescriptorTable Inherited) : Prop :=
  ∀ fd < 3, (inherited.file fd).isSome

theorem StandardOpen.ne_of_free (standard : StandardOpen inherited) {fd target : ℕ}
    (low : target < 3) (free : base inherited fd = none) : fd ≠ target := by
  intro same
  subst same
  have opened := standard fd low
  rw [base, Option.map_eq_none_iff] at free
  rw [free] at opened
  cases opened

section Branches

/-- The descriptors of the pipes. -/
def Process.ends (process : Process Inherited) : List ℕ :=
  [process.pipe1.outp, process.pipe1.inp, process.pipe2.outp, process.pipe2.inp]

def closeCalls : List Call :=
  [.close .pipe1 .outp, .close .pipe1 .inp, .close .pipe2 .inp, .close .pipe2 .outp]

theorem outcome_closeCalls (process : Process Inherited) (fd : ℕ) :
    (outcome process closeCalls).file fd =
      if fd ∈ process.ends then none else process.table.file fd := by
  simp only [outcome, closeCalls, Process.call, Process.fd, PipeFds.fd, DescriptorTable.close,
    DescriptorTable.set_file, Function.update_apply, Process.ends, List.mem_cons,
    List.not_mem_nil, or_false]
  split_ifs <;> simp_all

variable {parent : Process Inherited}

theorem Piped.at_point (piped : Piped inherited parent) (point : Point) :
    Piped inherited { parent with point } where
  outp1_free := piped.outp1_free
  inp1_free := piped.inp1_free
  outp2_free := piped.outp2_free
  inp2_free := piped.inp2_free
  distinct := piped.distinct
  file_eq := piped.file_eq

theorem Piped.base_of_mem (piped : Piped inherited parent) {fd : ℕ} (member : fd ∈ parent.ends) :
    base inherited fd = none := by
  simp only [Process.ends, List.mem_cons, List.not_mem_nil, or_false] at member
  rcases member with rfl | rfl | rfl | rfl
  · exact piped.outp1_free
  · exact piped.inp1_free
  · exact piped.outp2_free
  · exact piped.inp2_free

theorem Piped.file_of_not_mem (piped : Piped inherited parent) {fd : ℕ}
    (outside : fd ∉ parent.ends) : parent.table.file fd = base inherited fd := by
  simp only [Process.ends, List.mem_cons, List.not_mem_nil, or_false, not_or] at outside
  obtain ⟨outp1, inp1, outp2, inp2⟩ := outside
  rw [piped.file_eq, Function.update_of_ne inp2, Function.update_of_ne outp2,
    Function.update_of_ne inp1, Function.update_of_ne outp1]

theorem Piped.file_fd (piped : Piped inherited parent) (name : PipeName) (side : End) :
    parent.table.file (parent.fd name side) = some (.pipe name side) := by
  have distinct := piped.distinct
  simp only [List.nodup_cons, List.mem_cons, List.not_mem_nil, or_false, not_or] at distinct
  obtain ⟨⟨outp1Inp1, outp1Outp2, outp1Inp2⟩, ⟨inp1Outp2, inp1Inp2⟩, outp2Inp2, _⟩ := distinct
  rw [piped.file_eq]
  cases name with
  | pipe1 =>
      cases side with
      | outp =>
          rw [Process.fd, PipeFds.fd, Function.update_of_ne outp1Inp2,
            Function.update_of_ne outp1Outp2, Function.update_of_ne outp1Inp1,
            Function.update_self]
      | inp =>
          rw [Process.fd, PipeFds.fd, Function.update_of_ne inp1Inp2,
            Function.update_of_ne inp1Outp2, Function.update_self]
  | pipe2 =>
      cases side with
      | outp => rw [Process.fd, PipeFds.fd, Function.update_of_ne outp2Inp2, Function.update_self]
      | inp => rw [Process.fd, PipeFds.fd, Function.update_self]

theorem Process.fd_mem_ends (process : Process Inherited) (name : PipeName) (side : End) :
    process.fd name side ∈ process.ends := by
  cases name with
  | pipe1 => cases side <;> simp [fd, PipeFds.fd, ends]
  | pipe2 => cases side <;> simp [fd, PipeFds.fd, ends]

/-- A process of a branch before its closing calls: `file` is what it is to be left with. -/
structure Redirected (parent process : Process Inherited) (file : ℕ → Option (File Inherited)) :
    Prop where
  fd_eq : process.fd = parent.fd
  ends_eq : process.ends = parent.ends
  ends_kept : ∀ fd ∈ parent.ends, process.table.file fd = parent.table.file fd
  others : ∀ fd ∉ parent.ends, process.table.file fd = file fd
  clean : ∀ fd ∈ parent.ends, file fd = none

theorem Piped.redirected (piped : Piped inherited parent) (point : Point) :
    Redirected parent { parent with point } (base inherited) where
  fd_eq := rfl
  ends_eq := rfl
  ends_kept := fun _ _ => rfl
  others := fun _ outside => piped.file_of_not_mem outside
  clean := fun _ member => piped.base_of_mem member

theorem Redirected.dup2 {process : Process Inherited} {file : ℕ → Option (File Inherited)}
    (redirected : Redirected parent process file) (piped : Piped inherited parent)
    (standard : StandardOpen inherited) (name : PipeName) (side : End) {target : ℕ}
    (low : target < 3) (point : Point) :
    Redirected parent
      { process with table := process.call (.dup2 name side target), point }
      (Function.update file target (some (.pipe name side))) := by
  obtain ⟨fds, ends, kept, others, clean⟩ := redirected
  have different : ∀ fd ∈ parent.ends, fd ≠ target := fun fd member =>
    standard.ne_of_free low (piped.base_of_mem member)
  have opened : process.table.file (process.fd name side) = some (.pipe name side) := by
    rw [fds, kept _ (parent.fd_mem_ends name side), piped.file_fd]
  have table : process.call (.dup2 name side target) =
      process.table.set target (some (.pipe name side)) :=
    DescriptorTable.dup2_of_open opened target
  rw [table]
  refine ⟨fds, ends, ?_, ?_, ?_⟩
  · intro fd member
    rw [DescriptorTable.set_file, Function.update_of_ne (different fd member), kept fd member]
  · intro fd outside
    rw [DescriptorTable.set_file, Function.update_apply, Function.update_apply, others fd outside]
  · intro fd member
    rw [Function.update_of_ne (different fd member), clean fd member]

theorem Redirected.outcome_closeCalls {process : Process Inherited}
    {file : ℕ → Option (File Inherited)} (redirected : Redirected parent process file) :
    (outcome process closeCalls).file = file := by
  funext fd
  rw [MyDup2Pipe.outcome_closeCalls, redirected.ends_eq]
  split
  · next member => rw [redirected.clean fd member]
  · next outside => exact redirected.others fd outside

/-- The calls of a branch. -/
def branchCalls : Role → List Call
  | .ls => lsCalls
  | .sort => sortCalls
  | .head => headCalls

/-- Each branch leaves its process with the descriptors it is to have. -/
theorem Piped.branch_outcome (piped : Piped inherited parent) (standard : StandardOpen inherited)
    (role : Role) (point : Point) :
    (outcome { parent with point } (branchCalls role)).file = wiredFile inherited role := by
  have start := piped.redirected point
  cases role with
  | ls =>
      have output := start.dup2 piped standard .pipe1 .inp (by decide : 1 < 3)
        (.calls closeCalls)
      exact output.outcome_closeCalls
  | sort =>
      have input := start.dup2 piped standard .pipe1 .outp (by decide : 0 < 3)
        (.calls (.dup2 .pipe2 .inp 1 :: closeCalls))
      have output := input.dup2 piped standard .pipe2 .inp (by decide : 1 < 3)
        (.calls closeCalls)
      exact output.outcome_closeCalls
  | head =>
      have input := start.dup2 piped standard .pipe2 .outp (by decide : 0 < 3)
        (.calls closeCalls)
      exact input.outcome_closeCalls

end Branches

section Runs

variable {state next : State Inherited} {role : Role}

/-- A process of a branch, on its way to the descriptors it is to have. -/
def Branch (inherited : DescriptorTable Inherited) (role : Role) (process : Process Inherited) :
    Prop :=
  ∃ rest, process.point = .calls rest ∧ (outcome process rest).file = wiredFile inherited role

/-- The parent before its first `fork`. -/
inductive Setup (inherited : DescriptorTable Inherited) (parent : Process Inherited) : Prop where
  | start : parent.point = .makePipe1 → parent.table = inherited.map .inherited →
      Setup inherited parent
  | onePipe : parent.point = .makePipe2 → OnePipe inherited parent → Setup inherited parent
  | twoPipes : parent.point = .forkLs → Piped inherited parent → Setup inherited parent

inductive Phase (inherited : DescriptorTable Inherited) (state : State Inherited) : Prop where
  | alone {parent : Process Inherited} :
      state .ls = none → state .sort = none → state .head = some parent →
      Setup inherited parent → Phase inherited state
  | oneFork {parent ls : Process Inherited} :
      state .ls = some ls → state .sort = none → state .head = some parent →
      Branch inherited .ls ls → parent.point = .forkSort → Piped inherited parent →
      Phase inherited state
  | allStarted :
      (∀ role, ∃ process, state role = some process ∧ Branch inherited role process) →
      Phase inherited state

/-- A turn of a process in its branch moves that process along. -/
theorem Branch.step {process : Process Inherited} (branch : Branch inherited role process)
    (found : state role = some process) (stepped : step state role = some next) :
    ∃ later, next = Function.update state role (some later) ∧ Branch inherited role later := by
  obtain ⟨rest, point, result⟩ := branch
  cases rest with
  | nil =>
      simp [MyDup2Pipe.step, found, point] at stepped
  | cons call rest =>
      simp [MyDup2Pipe.step, found, point] at stepped
      exact ⟨_, stepped.symm, rest, rfl, result⟩

theorem Piped.branch {parent : Process Inherited} (piped : Piped inherited parent)
    (standard : StandardOpen inherited) (role : Role) :
    Branch inherited role { parent with point := .calls (branchCalls role) } :=
  ⟨branchCalls role, rfl, piped.branch_outcome standard role _⟩

theorem Setup.step {parent : Process Inherited} (setup : Setup inherited parent)
    (standard : StandardOpen inherited) (ls : state .ls = none) (sort : state .sort = none)
    (head : state .head = some parent) (stepped : step state .head = some next) :
    Phase inherited next := by
  cases setup with
  | start point table =>
      obtain ⟨fds, opened, made, outpFree, inpFree, different, file⟩ :=
        makePipe_spec .pipe1 parent.table
      simp [MyDup2Pipe.step, head, point, made] at stepped
      subst stepped
      rw [table] at outpFree inpFree file
      exact .alone ls sort rfl (.onePipe rfl ⟨outpFree, inpFree, different, file⟩)
  | onePipe point one =>
      obtain ⟨fds, opened, made, outpFree, inpFree, different, file⟩ :=
        makePipe_spec .pipe2 parent.table
      simp [MyDup2Pipe.step, head, point, made] at stepped
      subst stepped
      exact .alone ls sort rfl (.twoPipes rfl (one.piped outpFree inpFree different file))
  | twoPipes point piped =>
      simp [MyDup2Pipe.step, head, point] at stepped
      subst stepped
      exact .oneFork rfl sort rfl (piped.branch standard .ls) rfl (piped.at_point .forkSort)

theorem Phase.step (phase : Phase inherited state) (standard : StandardOpen inherited)
    (stepped : step state role = some next) : Phase inherited next := by
  cases phase with
  | alone ls sort head setup =>
      cases role with
      | ls => simp [MyDup2Pipe.step, ls] at stepped
      | sort => simp [MyDup2Pipe.step, sort] at stepped
      | head => exact setup.step standard ls sort head stepped
  | oneFork ls sort head branch point piped =>
      cases role with
      | ls =>
          obtain ⟨later, rfl, moved⟩ := branch.step ls stepped
          exact .oneFork rfl sort head moved point piped
      | sort => simp [MyDup2Pipe.step, sort] at stepped
      | head =>
          simp [MyDup2Pipe.step, head, point] at stepped
          subst stepped
          refine .allStarted fun role => ?_
          cases role with
          | ls => exact ⟨_, ls, branch⟩
          | sort => exact ⟨_, rfl, piped.branch standard .sort⟩
          | head => exact ⟨_, rfl, piped.branch standard .head⟩
  | allStarted branches =>
      obtain ⟨process, found, branch⟩ := branches role
      obtain ⟨later, rfl, moved⟩ := branch.step found stepped
      refine .allStarted fun other => ?_
      by_cases same : other = role
      · subst same
        exact ⟨later, Function.update_self .., moved⟩
      · rw [Function.update_of_ne same]
        exact branches other

theorem reachable_phase (standard : StandardOpen inherited)
    (reachable : (system inherited).Reachable state) : Phase inherited state := by
  refine reachable.invariant (Phase inherited) ?_ fun _ _ _ phase => phase.step standard
  intro start starts
  obtain ⟨pipe1, pipe2, rfl⟩ := starts
  exact .alone rfl rfl rfl (.start rfl rfl)

/-- All three processes have reached `execl`. -/
def AllAtExecl (state : State Inherited) : Prop :=
  ∀ role, ∃ process, state role = some process ∧ process.point = .calls []

theorem Phase.file_at_execl (phase : Phase inherited state) (atExecl : AllAtExecl state)
    {process : Process Inherited} (found : state role = some process) :
    process.table.file = wiredFile inherited role := by
  cases phase with
  | alone ls _ _ _ =>
      obtain ⟨_, missing, _⟩ := atExecl .ls
      rw [ls] at missing
      cases missing
  | oneFork _ sort _ _ _ _ =>
      obtain ⟨_, missing, _⟩ := atExecl .sort
      rw [sort] at missing
      cases missing
  | allStarted branches =>
      obtain ⟨_, same, rest, point, result⟩ := branches role
      obtain ⟨_, again, done⟩ := atExecl role
      rw [found] at same again
      cases same
      cases again
      rw [done] at point
      cases point
      exact result

/-- A process can go on until it is at `execl`, so no run ends before. -/
theorem Phase.atExecl_of_stuck (phase : Phase inherited state)
    (stuck : (system inherited).Stuck state) : AllAtExecl state := by
  cases phase with
  | alone _ _ head setup =>
      have blocked : MyDup2Pipe.step state .head = none := stuck .head
      cases setup with
      | start point _ => simp [MyDup2Pipe.step, head, point] at blocked
      | onePipe point _ => simp [MyDup2Pipe.step, head, point] at blocked
      | twoPipes point _ => simp [MyDup2Pipe.step, head, point] at blocked
  | oneFork _ _ head _ point _ =>
      have blocked : MyDup2Pipe.step state .head = none := stuck .head
      simp [MyDup2Pipe.step, head, point] at blocked
  | allStarted branches =>
      intro role
      obtain ⟨process, found, rest, point, _⟩ := branches role
      have blocked : MyDup2Pipe.step state role = none := stuck role
      cases rest with
      | nil => exact ⟨process, found, point⟩
      | cons call rest => simp [MyDup2Pipe.step, found, point] at blocked

end Runs

section Wiring

/-- The open descriptors of all processes that refer to a file. -/
def references (state : State Inherited) (file : File Inherited) : Set (Role × ℕ) :=
  {reference | ∃ process, state reference.1 = some process ∧
    process.table.file reference.2 = some file}

/-- The descriptors a program gets redirected. -/
def redirectedFds : Role → List ℕ
  | .ls => [1]
  | .sort => [0, 1]
  | .head => [0]

structure Wired (inherited : DescriptorTable Inherited) (state : State Inherited) : Prop where
  pipe1_inp : references state (.pipe .pipe1 .inp) = {(.ls, 1)}
  pipe1_outp : references state (.pipe .pipe1 .outp) = {(.sort, 0)}
  pipe2_inp : references state (.pipe .pipe2 .inp) = {(.sort, 1)}
  pipe2_outp : references state (.pipe .pipe2 .outp) = {(.head, 0)}
  others : ∀ role process, state role = some process → ∀ fd ∉ redirectedFds role,
    process.table.file fd = (inherited.file fd).map .inherited

theorem base_ne_pipe (inherited : DescriptorTable Inherited) (fd : ℕ) (name : PipeName)
    (side : End) : base inherited fd ≠ some (.pipe name side) := by
  intro same
  obtain ⟨_, _, wrong⟩ := Option.map_eq_some_iff.mp same
  cases wrong

/-- The one descriptor that is to refer to an end of a pipe. -/
def holder : PipeName → End → Role × ℕ
  | .pipe1, .inp => (.ls, 1)
  | .pipe1, .outp => (.sort, 0)
  | .pipe2, .inp => (.sort, 1)
  | .pipe2, .outp => (.head, 0)

theorem wiredFile_eq_pipe_iff (inherited : DescriptorTable Inherited) (role : Role) (fd : ℕ)
    (name : PipeName) (side : End) :
    wiredFile inherited role fd = some (.pipe name side) ↔ (role, fd) = holder name side := by
  have notBase := base_ne_pipe inherited fd name side
  cases role with
  | ls =>
      rw [wiredFile, Function.update_apply]
      split <;> cases name <;> cases side <;> simp_all [holder]
  | sort =>
      rw [wiredFile, Function.update_apply, Function.update_apply]
      split_ifs <;> cases name <;> cases side <;> simp_all [holder]
  | head =>
      rw [wiredFile, Function.update_apply]
      split <;> cases name <;> cases side <;> simp_all [holder]

theorem wiredFile_of_not_redirected (inherited : DescriptorTable Inherited) {role : Role} {fd : ℕ}
    (outside : fd ∉ redirectedFds role) : wiredFile inherited role fd = base inherited fd := by
  cases role with
  | ls =>
      have different : fd ≠ 1 := by simpa [redirectedFds] using outside
      exact Function.update_of_ne different ..
  | sort =>
      obtain ⟨input, output⟩ : fd ≠ 0 ∧ fd ≠ 1 := by simpa [redirectedFds] using outside
      rw [wiredFile, Function.update_of_ne output, Function.update_of_ne input]
  | head =>
      have different : fd ≠ 0 := by simpa [redirectedFds] using outside
      exact Function.update_of_ne different ..

theorem references_eq_holder {state : State Inherited} (phase : Phase inherited state)
    (atExecl : AllAtExecl state) (name : PipeName) (side : End) :
    references state (.pipe name side) = {holder name side} := by
  ext reference
  obtain ⟨role, fd⟩ := reference
  rw [Set.mem_singleton_iff, ← wiredFile_eq_pipe_iff inherited]
  constructor
  · intro refers
    obtain ⟨process, found, entry⟩ := refers
    rwa [phase.file_at_execl atExecl found] at entry
  · intro entry
    obtain ⟨process, found, _⟩ := atExecl role
    exact ⟨process, found, by rwa [phase.file_at_execl atExecl found]⟩

/-- In every interleaving, once all three processes have reached `execl` each end
of a pipe has the one reference it is to have, and every other descriptor is as
it was; and every run that cannot go on has got there. -/
theorem pipeline_wired (standard : StandardOpen inherited) (state : State Inherited)
    (reachable : (system inherited).Reachable state) :
    (AllAtExecl state → Wired inherited state) ∧
    ((system inherited).Stuck state → AllAtExecl state) := by
  have phase := reachable_phase standard reachable
  refine ⟨fun atExecl => ?_, phase.atExecl_of_stuck⟩
  constructor
  · exact references_eq_holder phase atExecl .pipe1 .inp
  · exact references_eq_holder phase atExecl .pipe1 .outp
  · exact references_eq_holder phase atExecl .pipe2 .inp
  · exact references_eq_holder phase atExecl .pipe2 .outp
  · intro role process found fd outside
    rw [phase.file_at_execl atExecl found, wiredFile_of_not_redirected inherited outside]
    rfl

/-- The three standard descriptors and descriptor 4. -/
def sampleTable : DescriptorTable ℕ where
  file fd := if fd < 3 ∨ fd = 4 then some fd else none
  bound := 5
  closed fd high := if_neg (by omega)

theorem sampleTable_standardOpen : StandardOpen sampleTable := by
  intro fd low
  have opened : sampleTable.file fd = some fd := if_pos (Or.inl low)
  rw [opened]
  rfl

def sampleStart : State ℕ :=
  Function.update (fun _ => none) .head (some
    { pipe1 := ⟨0, 0⟩, pipe2 := ⟨0, 0⟩, point := .makePipe1, table := sampleTable.map .inherited })

/-- The second child overtakes the first and the parent. -/
def sampleRun : List Role :=
  [.head, .head, .head, .ls, .head, .sort, .sort, .sort, .sort, .sort, .sort,
    .head, .ls, .ls, .head, .head, .ls, .ls, .head, .head]

theorem sampleRun_atExecl :
    ∃ state, (system sampleTable).execute sampleStart sampleRun = some state ∧
      AllAtExecl state := by
  refine ⟨_, rfl, ?_⟩
  intro role
  cases role with
  | ls => exact ⟨_, rfl, rfl⟩
  | sort => exact ⟨_, rfl, rfl⟩
  | head => exact ⟨_, rfl, rfl⟩

theorem pipeline_wired_sample :
    ∃ state, (system sampleTable).Reachable state ∧ AllAtExecl state ∧
      Wired sampleTable state := by
  obtain ⟨state, executed, atExecl⟩ := sampleRun_atExecl
  have initial : (system sampleTable).initial sampleStart := ⟨⟨0, 0⟩, ⟨0, 0⟩, rfl⟩
  have reachable := (System.Reachable.of_initial initial).execute executed
  exact ⟨state, reachable, atExecl,
    (pipeline_wired sampleTable_standardOpen state reachable).1 atExecl⟩

end Wiring

end Ence360.Processes.MyDup2Pipe
