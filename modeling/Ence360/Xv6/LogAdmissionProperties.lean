import Ence360.Semantics.IndexedList
import Ence360.Xv6.Log

/-!
# Operations that wait for the log

`begin_op` admits an operation when no commit is under way and there is room for
it, and puts the process to sleep otherwise. A sleeping process is always woken
by the operations and the commit it waits for.
-/

set_option autoImplicit false

namespace Ence360.Xv6.Log

open Semantics Semantics.IndexedList

variable {Block : Type} {layout : Layout} {bound : ℕ}

section Steps

def Process.busy : Process Block → Bool
  | .working _ | .storing _ _ _ => true
  | .outside | .entering | .sleeping => false

theorem Process.blocks_of_not_busy {process : Process Block} (idle : process.busy = false) :
    process.blocks = [] := by
  cases process with
  | outside | entering | sleeping => rfl
  | working | storing => cases idle

@[simp] theorem Process.busy_woken (process : Process Block) :
    process.woken.busy = process.busy := by
  cases process <;> rfl

@[simp] theorem Process.blocks_woken (process : Process Block) :
    process.woken.blocks = process.blocks := by
  cases process <;> rfl

variable {state next : State Block} {i : ℕ}

def State.Full (state : State Block) : Prop :=
  logSize < state.lh.length + (state.outstanding + 1) * maxOpBlocks

instance (state : State Block) : Decidable state.Full :=
  inferInstanceAs (Decidable (logSize < state.lh.length + (state.outstanding + 1) * maxOpBlocks))

theorem beginOp_cases (stepped : beginOp state i = some next) :
    ∃ process, state.procs[i]? = some process ∧ process.busy = false ∧
      (((state.committing = true ∨ state.Full) ∧ next = state.setProc i .sleeping) ∨
        (state.committing = false ∧ ¬ state.Full ∧
          next = { state.setProc i (.working []) with
            outstanding := state.outstanding + 1 })) := by
  unfold beginOp at stepped
  split at stepped
  all_goals try cases stepped
  all_goals
    next lookup =>
      refine ⟨_, lookup, rfl, ?_⟩
      split at stepped
      · next committing => exact .inl ⟨.inl committing, (Option.some.inj stepped).symm⟩
      · next admits =>
          split at stepped
          · next full => exact .inl ⟨.inr full, (Option.some.inj stepped).symm⟩
          · next room =>
              exact .inr ⟨Bool.eq_false_iff.mpr admits, room, (Option.some.inj stepped).symm⟩

theorem logWrite_cases {block : ℕ} {data : Block}
    (stepped : logWrite layout state i block data = some next) :
    ∃ blocks, state.procs[i]? = some (.working blocks) ∧
      (((logSize ≤ state.lh.length ∨ layout.size ≤ state.lh.length + 1 ∨
          state.outstanding = 0) ∧ next = state.panic) ∨
        (state.lh.length < logSize ∧ state.lh.length + 1 < layout.size ∧
          next = state.setProc i (.storing blocks block data))) := by
  unfold logWrite at stepped
  split at stepped
  · next blocks lookup =>
      refine ⟨blocks, lookup, ?_⟩
      split at stepped
      · next large => exact .inl ⟨by omega, (Option.some.inj stepped).symm⟩
      · split at stepped
        · exact .inl ⟨by omega, (Option.some.inj stepped).symm⟩
        · exact .inr ⟨by omega, by omega, (Option.some.inj stepped).symm⟩
  · cases stepped

theorem absorb_eq (lh : List ℕ) (block : ℕ) :
    absorb lh block = if block ∈ lh then lh else lh ++ [block] := by
  unfold absorb
  by_cases member : block ∈ lh
  · have inside := List.idxOf_lt_length_of_mem member
    rw [if_neg (by omega), if_pos member]
    apply List.ext_getElem? fun k => ?_
    rw [List.getElem?_set]
    split
    · next same =>
        subst same
        rw [List.getElem?_eq_getElem inside, List.getElem_idxOf]
    · rfl
  · rw [if_pos (List.idxOf_eq_length member), if_neg member]

theorem logStore_cases (stepped : logStore state i = some next) :
    ∃ blocks block data, state.procs[i]? = some (.storing blocks block data) ∧
      next = { state.setProc i (.working (blocks.insert block)) with
        lh := if block ∈ state.lh then state.lh else state.lh ++ [block]
        dirty := Function.update state.dirty block (some data) } := by
  unfold logStore at stepped
  split at stepped
  · next blocks block data lookup =>
      rw [absorb_eq] at stepped
      exact ⟨blocks, block, data, lookup, (Option.some.inj stepped).symm⟩
  · cases stepped

theorem endOp_cases (stepped : endOp state i = some next) :
    ∃ blocks, state.procs[i]? = some (.working blocks) ∧
      ((state.committing = true ∧ next.point = .panicked ∧ next.disk = state.disk) ∨
        (state.committing = false ∧ state.outstanding - 1 = 0 ∧
          next = { state.setProc i .outside with
            outstanding := 0
            committing := true
            point := if state.lh.length > 0 then .writeLog 0 else .release }) ∨
        (state.committing = false ∧ state.outstanding - 1 ≠ 0 ∧
          next = { state with
            procs := (state.procs.set i .outside).map Process.woken
            outstanding := state.outstanding - 1 })) := by
  unfold endOp at stepped
  split at stepped
  · next blocks lookup =>
      refine ⟨blocks, lookup, ?_⟩
      split at stepped
      · next committing =>
          cases stepped
          exact .inl ⟨committing, rfl, rfl⟩
      · next admits =>
          have closed := Bool.eq_false_iff.mpr admits
          split at stepped
          · next last =>
              cases stepped
              exact .inr (.inl ⟨closed, last, by rw [last]⟩)
          · next others =>
              cases stepped
              exact .inr (.inr ⟨closed, others, rfl⟩)
  · cases stepped

end Steps

section Admission

/-- What `begin_op` and `end_op` rely on, until a panic. -/
structure Admitted (state : State Block) : Prop where
  outstanding : state.procs.countP Process.busy = state.outstanding
  quiet : state.point ≠ .idle → state.outstanding = 0
  committing : state.point = .idle → state.committing = false
  empty : state.point = .idle → state.outstanding = 0 → state.lh = []
  cleared : state.point = .clear ∨ state.point = .release → state.lh = []
  stopped : state.live = false → ∀ process ∈ state.procs, process = .outside
  waiting : .sleeping ∈ state.procs → state.committing = true ∨ state.Full

variable {state next : State Block} {i : ℕ}

theorem countP_set {process : Process Block} (lookup : state.procs[i]? = some process)
    (replaced : Process Block) :
    (state.procs.set i replaced).countP Process.busy + process.busy.toNat =
      state.procs.countP Process.busy + replaced.busy.toNat := by
  have weighed (procs : List (Process Block)) :
      procs.countP Process.busy = (procs.map fun process => process.busy.toNat).sum := by
    induction procs with
    | nil => rfl
    | cons head tail ih =>
        rw [List.countP_cons, ih, List.map_cons, List.sum_cons, add_comm]
        cases head.busy <;> rfl
  rw [weighed, weighed]
  exact sum_map_set lookup

theorem countP_woken (procs : List (Process Block)) :
    (procs.map Process.woken).countP Process.busy = procs.countP Process.busy := by
  rw [List.countP_map]
  congr 1
  funext process
  exact process.busy_woken

theorem not_sleeping_mem_woken (procs : List (Process Block)) :
    .sleeping ∉ procs.map Process.woken := by
  intro member
  obtain ⟨process, -, woken⟩ := List.mem_map.mp member
  cases process <;> cases woken

theorem Admitted.idle_of_busy (admitted : Admitted state) {process : Process Block}
    (lookup : state.procs[i]? = some process) (busy : process.busy = true) :
    state.point = .idle ∧ 0 < state.outstanding := by
  have someBusy : 0 < state.procs.countP Process.busy :=
    List.countP_pos_iff.mpr ⟨process, List.mem_of_getElem? lookup, busy⟩
  rw [admitted.outstanding] at someBusy
  refine ⟨?_, someBusy⟩
  by_contra active
  have noneBusy := admitted.quiet active
  omega

theorem Admitted.sleep (admitted : Admitted state) {process : Process Block}
    (live : state.live = true) (lookup : state.procs[i]? = some process)
    (idle : process.busy = false) (blocked : state.committing = true ∨ state.Full) :
    Admitted (state.setProc i .sleeping) where
  outstanding := by
    have counted := countP_set lookup .sleeping
    rw [idle] at counted
    exact (Nat.add_right_cancel counted).trans admitted.outstanding
  quiet := admitted.quiet
  committing := admitted.committing
  empty := admitted.empty
  cleared := admitted.cleared
  stopped stopped := absurd live (Bool.eq_false_iff.mp stopped)
  waiting _ := blocked

theorem Admitted.begin (admitted : Admitted state) {process : Process Block}
    (live : state.live = true) (lookup : state.procs[i]? = some process)
    (idle : process.busy = false) (closed : state.committing = false) :
    Admitted { state.setProc i (.working []) with outstanding := state.outstanding + 1 } := by
  have resting : state.point = .idle := by
    rw [State.live] at live
    cases point : state.point <;> simp_all
  refine ⟨?_, fun active => absurd resting active, fun _ => closed,
    fun _ noneBusy => absurd noneBusy (Nat.succ_ne_zero _), ?_,
    fun stopped => absurd live (Bool.eq_false_iff.mp stopped), ?_⟩
  · have counted := countP_set lookup (.working [])
    rw [idle, admitted.outstanding] at counted
    exact counted
  · rintro (cleared | cleared)
    all_goals exact absurd (resting.symm.trans cleared) (by decide)
  · intro member
    rcases mem_set_cases member with same | member
    · cases same
    · refine .inr ?_
      have full := (admitted.waiting member).resolve_left (Bool.eq_false_iff.mp closed)
      simp only [State.Full, State.setProc, maxOpBlocks] at full ⊢
      omega

/-- `log_write` replaces one busy process by another and the header only grows. -/
theorem Admitted.write (admitted : Admitted state) {process replaced : Process Block}
    (lookup : state.procs[i]? = some process) (busy : process.busy = true)
    (still : replaced.busy = true) {lh : List ℕ} (grows : state.lh.length ≤ lh.length)
    (dirty : ℕ → Option Block) :
    Admitted { state.setProc i replaced with lh := lh, dirty := dirty } := by
  obtain ⟨resting, someBusy⟩ := admitted.idle_of_busy lookup busy
  refine ⟨?_, fun active => absurd resting active, fun _ => admitted.committing resting,
    fun _ noneBusy => absurd noneBusy (by simp only [State.setProc]; omega), ?_, ?_, ?_⟩
  · have counted := countP_set lookup replaced
    rw [busy, still] at counted
    exact (Nat.add_right_cancel counted).trans admitted.outstanding
  · rintro (cleared | cleared)
    all_goals exact absurd (resting.symm.trans cleared) (by decide)
  · intro stopped
    simp [State.live, State.setProc, resting] at stopped
  · intro member
    rcases mem_set_cases member with same | member
    · rw [← same] at still
      cases still
    · refine (admitted.waiting member).imp_right fun full => ?_
      simp only [State.Full, State.setProc] at full ⊢
      omega

theorem Admitted.store (admitted : Admitted state) (stepped : logStore state i = some next) :
    Admitted next := by
  obtain ⟨blocks, block, data, lookup, rfl⟩ := logStore_cases stepped
  refine admitted.write lookup rfl rfl ?_ _
  split <;> simp

theorem Admitted.last (admitted : Admitted state) {blocks : List ℕ}
    (lookup : state.procs[i]? = some (.working blocks)) (last : state.outstanding - 1 = 0) :
    Admitted { state.setProc i .outside with
      outstanding := 0
      committing := true
      point := if state.lh.length > 0 then .writeLog 0 else .release } := by
  obtain ⟨-, someBusy⟩ := admitted.idle_of_busy lookup rfl
  have noneBusy : (state.procs.set i .outside).countP Process.busy = 0 := by
    have counted := countP_set lookup .outside
    rw [admitted.outstanding] at counted
    simp only [Process.busy, Bool.toNat_true, Bool.toNat_false] at counted
    omega
  by_cases logged : state.lh.length > 0
  · rw [if_pos logged]
    exact ⟨noneBusy, fun _ => rfl, nofun, nofun, nofun, nofun, fun _ => .inl rfl⟩
  · have empty : state.lh = [] := List.eq_nil_of_length_eq_zero (by omega)
    rw [if_neg logged]
    exact ⟨noneBusy, fun _ => rfl, nofun, nofun, fun _ => empty, nofun, fun _ => .inl rfl⟩

theorem Admitted.leave (admitted : Admitted state) {blocks : List ℕ}
    (lookup : state.procs[i]? = some (.working blocks)) (others : state.outstanding - 1 ≠ 0) :
    Admitted { state with
      procs := (state.procs.set i .outside).map Process.woken
      outstanding := state.outstanding - 1 } := by
  obtain ⟨resting, -⟩ := admitted.idle_of_busy lookup rfl
  refine ⟨?_, fun active => absurd resting active, admitted.committing,
    fun _ noneBusy => absurd noneBusy others, admitted.cleared, ?_,
    fun member => absurd member (not_sleeping_mem_woken _)⟩
  · have counted := countP_set lookup .outside
    rw [admitted.outstanding] at counted
    simp only [countP_woken, Process.busy, Bool.toNat_true, Bool.toNat_false] at counted ⊢
    omega
  · intro stopped
    simp [State.live, resting] at stopped

/-- `commit` and the recovery touch neither the counters nor the processes before
they are done. -/
theorem Admitted.copy (admitted : Admitted state) (active : state.point ≠ .idle)
    (disk : Disk Block) (dirty : ℕ → Option Block) {lh : List ℕ} {point : Point}
    (resumes : point ≠ .idle) (cleared : point = .clear ∨ point = .release → lh = [])
    (same : State.live { state with disk := disk, dirty := dirty, lh := lh, point := point } =
      state.live) :
    Admitted { state with disk := disk, dirty := dirty, lh := lh, point := point } where
  outstanding := admitted.outstanding
  quiet _ := admitted.quiet active
  committing idle := absurd idle resumes
  empty idle := absurd idle resumes
  cleared := cleared
  stopped stopped := admitted.stopped (same.symm.trans stopped)
  waiting member := by
    by_contra! closed
    have recovering : state.live = false := by
      rw [State.live]
      cases point : state.point <;> simp_all
    cases admitted.stopped recovering _ member

theorem Admitted.proceed (admitted : Admitted state)
    (stepped : proceed layout state = some next) : Admitted next := by
  unfold Log.proceed at stepped
  cases point : state.point with
  | idle | panicked => simp [point] at stepped
  | writeLog tail =>
      simp only [point] at stepped
      split at stepped <;> cases stepped
      all_goals exact admitted.copy (by simp [point]) _ _ nofun nofun (by simp [State.live, point])
  | writeHead =>
      simp only [point] at stepped
      cases stepped
      exact admitted.copy (by simp [point]) _ _ nofun nofun (by simp [State.live, point])
  | install tail =>
      simp only [point] at stepped
      split at stepped <;> cases stepped
      · exact admitted.copy (by simp [point]) _ _ nofun nofun (by simp [State.live, point])
      · exact admitted.copy (by simp [point]) _ _ nofun (fun _ => rfl) (by simp [State.live, point])
  | clear =>
      have empty := admitted.cleared (.inl point)
      simp only [point] at stepped
      cases committing : state.committing with
      | true =>
          rw [if_pos committing] at stepped
          cases stepped
          exact admitted.copy (by simp [point]) _ _ nofun (fun _ => empty)
            (by simp [State.live, point])
      | false =>
          rw [if_neg (Bool.eq_false_iff.mp committing)] at stepped
          cases stepped
          have allOutside := admitted.stopped (by simp [State.live, point, committing])
          refine ⟨admitted.outstanding, fun active => absurd rfl active, fun _ => committing,
            fun _ _ => empty, nofun, nofun, fun member => ?_⟩
          cases allOutside _ member
  | release =>
      simp only [point] at stepped
      cases stepped
      refine ⟨?_, fun active => absurd rfl active, fun _ => rfl,
        fun _ _ => admitted.cleared (.inr point), nofun, nofun,
        fun member => absurd member (not_sleeping_mem_woken _)⟩
      exact (countP_woken _).trans admitted.outstanding
  | readHead =>
      simp only [point] at stepped
      cases stepped
      exact admitted.copy (by simp [point]) _ _ nofun nofun (by simp [State.live, point])

theorem Admitted.crash (state : State Block) : Admitted (crash state) := by
  have allOutside : ∀ process ∈ (Log.crash state).procs, process = .outside := by
    intro process member
    obtain ⟨_, -, same⟩ := List.mem_map.mp member
    exact same.symm
  refine ⟨?_, fun _ => rfl, nofun, nofun, nofun, fun _ => allOutside, fun member => ?_⟩
  · refine List.countP_eq_zero.mpr fun process member => ?_
    rw [allOutside process member]
    exact Bool.false_ne_true
  · cases allOutside _ member

theorem Admitted.boot (boot : Boot layout state) : Admitted state := by
  refine ⟨?_, fun _ => boot.outstanding, ?_, ?_, ?_, fun _ => boot.procs, fun member => ?_⟩
  · rw [boot.outstanding]
    refine List.countP_eq_zero.mpr fun process member => ?_
    rw [boot.procs process member]
    exact Bool.false_ne_true
  · simp [boot.point]
  · simp [boot.point]
  · simp [boot.point]
  · cases boot.procs _ member

theorem not_panicked_of_live (live : state.live = true) : state.point ≠ .panicked := by
  intro panicked
  simp [State.live, panicked] at live

theorem Admitted.step {action : Action Block}
    (before : state.point ≠ .panicked → Admitted state)
    (stepped : (system layout bound).step state action = some next)
    (sound : next.point ≠ .panicked) : Admitted next := by
  cases action with
  | beginOp i =>
      obtain ⟨live, stepped⟩ := Option.ite_none_right_eq_some.mp stepped
      have admitted := before (not_panicked_of_live live)
      obtain ⟨process, lookup, idle, ⟨blocked, rfl⟩ | ⟨closed, -, rfl⟩⟩ := beginOp_cases stepped
      · exact admitted.sleep live lookup idle blocked
      · exact admitted.begin live lookup idle closed
  | logWrite i block data =>
      obtain ⟨⟨live, -⟩, stepped⟩ := Option.ite_none_right_eq_some.mp stepped
      have admitted := before (not_panicked_of_live live)
      obtain ⟨blocks, lookup, ⟨-, rfl⟩ | ⟨-, -, rfl⟩⟩ := logWrite_cases stepped
      · exact absurd rfl sound
      · exact admitted.write lookup rfl rfl le_rfl state.dirty
  | logStore i =>
      obtain ⟨live, stepped⟩ := Option.ite_none_right_eq_some.mp stepped
      exact (before (not_panicked_of_live live)).store stepped
  | endOp i =>
      obtain ⟨live, stepped⟩ := Option.ite_none_right_eq_some.mp stepped
      have admitted := before (not_panicked_of_live live)
      obtain ⟨blocks, lookup, ⟨-, panicked, -⟩ | ⟨-, last, rfl⟩ | ⟨-, others, rfl⟩⟩ :=
        endOp_cases stepped
      · exact absurd panicked sound
      · exact admitted.last lookup last
      · exact admitted.leave lookup others
  | proceed =>
      refine (before ?_).proceed stepped
      intro panicked
      simp [system, Log.proceed, panicked] at stepped
  | crash =>
      cases stepped
      exact Admitted.crash state

theorem admitted_of_reachable (reachable : (system layout bound).Reachable state)
    (sound : state.point ≠ .panicked) : Admitted state :=
  System.Reachable.invariant (fun state => state.point ≠ .panicked → Admitted state)
    (fun _ boot _ => Admitted.boot boot)
    (fun _ _ _ before stepped sound => Admitted.step before stepped sound) reachable sound

end Admission

section Wakeup

variable {state next : State Block} {i : ℕ}

/-- What is left of `commit`. -/
def State.remaining (state : State Block) : ℕ :=
  match state.point with
  | .idle | .panicked => 0
  | .writeLog tail => state.lh.length - tail + state.lh.length + 6
  | .writeHead => state.lh.length + 5
  | .install tail => state.lh.length - tail + 4
  | .clear => 2
  | .release => 1
  | .readHead => state.disk.head.length + 5

theorem getElem?_woken (lookup : state.procs[i]? = some .sleeping) :
    (state.procs.map Process.woken)[i]? = some .entering := by
  rw [List.getElem?_map, lookup]
  rfl

theorem proceed_progress (layout : Layout) (committing : state.committing = true)
    (active : state.point ≠ .idle) (sound : state.point ≠ .panicked) :
    ∃ next, proceed layout state = some next ∧
      (next.procs = state.procs.map Process.woken ∨
        next.procs = state.procs ∧ next.committing = true ∧ next.point ≠ .idle ∧
          next.point ≠ .panicked ∧ next.remaining < state.remaining) := by
  unfold proceed
  cases point : state.point with
  | idle => exact absurd point active
  | panicked => exact absurd point sound
  | writeLog tail =>
      cases lookup : state.lh[tail]? with
      | none =>
          simp only [lookup]
          refine ⟨_, rfl, .inr ⟨rfl, committing, nofun, nofun, ?_⟩⟩
          simp only [State.remaining, point]
          omega
      | some block =>
          have inside := (List.getElem?_eq_some_iff.mp lookup).1
          simp only [lookup]
          refine ⟨_, rfl, .inr ⟨rfl, committing, nofun, nofun, ?_⟩⟩
          simp only [State.remaining, point, State.bwrite]
          omega
  | writeHead =>
      refine ⟨_, rfl, .inr ⟨rfl, committing, nofun, nofun, ?_⟩⟩
      simp [State.remaining, point]
  | install tail =>
      cases lookup : state.lh[tail]? with
      | none =>
          simp only [lookup]
          refine ⟨_, rfl, .inr ⟨rfl, committing, nofun, nofun, ?_⟩⟩
          simp only [State.remaining, point]
          omega
      | some block =>
          have inside := (List.getElem?_eq_some_iff.mp lookup).1
          simp only [lookup]
          refine ⟨_, rfl, .inr ⟨rfl, committing, nofun, nofun, ?_⟩⟩
          simp only [State.remaining, point, State.bwrite]
          omega
  | clear =>
      simp only [if_pos committing]
      refine ⟨_, rfl, .inr ⟨rfl, committing, nofun, nofun, ?_⟩⟩
      simp [State.remaining, point]
  | release => exact ⟨_, rfl, .inl rfl⟩
  | readHead =>
      refine ⟨_, rfl, .inr ⟨rfl, committing, nofun, nofun, ?_⟩⟩
      simp [State.remaining, point]

/-- A commit comes to its end, and then wakes everyone. -/
theorem exists_commit_run (layout : Layout) (bound : ℕ)
    (committing : state.committing = true) (active : state.point ≠ .idle)
    (sound : state.point ≠ .panicked) (lookup : state.procs[i]? = some .sleeping) :
    ∃ events finish, (system layout bound).Run state events finish ∧
      (∀ event ∈ events, event.2 = .proceed) ∧ finish.procs[i]? = some .entering := by
  induction left : state.remaining using Nat.strongRecOn generalizing state with
  | ind left ih =>
      subst left
      obtain ⟨next, stepped, later⟩ := proceed_progress layout committing active sound
      have first : (system layout bound).Run state [(state, .proceed)] next :=
        System.Run.single stepped
      rcases later with woken | ⟨procs, committing, active, sound, less⟩
      · refine ⟨_, next, first, by simp, ?_⟩
        rw [woken, getElem?_woken lookup]
      · obtain ⟨events, finish, run, proceeds, awake⟩ :=
          ih _ less committing active sound (procs ▸ lookup) rfl
        exact ⟨_, finish, first.trans run, by simpa using proceeds, awake⟩

/-- The actions that let a sleeping process go on: operations end, the commit proceeds. -/
def Action.Finishing : Action Block → Prop
  | .logStore _ | .endOp _ | .proceed => True
  | .beginOp _ | .logWrite _ _ _ | .crash => False

theorem exists_endOp_run (admitted : Admitted state) {blocks : List ℕ} {k : ℕ}
    (working : state.procs[k]? = some (.working blocks))
    (lookup : state.procs[i]? = some .sleeping) :
    ∃ events finish, (system layout bound).Run state events finish ∧
      (∀ event ∈ events, event.2.Finishing) ∧ finish.procs[i]? = some .entering := by
  obtain ⟨resting, someBusy⟩ := admitted.idle_of_busy working rfl
  have closed := admitted.committing resting
  have different : k ≠ i := by
    rintro rfl
    rw [working] at lookup
    cases lookup
  have live : state.live = true := by rw [State.live, resting]
  have others : (state.procs.set k .outside)[i]? = some .sleeping := by
    rw [List.getElem?_set_ne different, lookup]
  obtain ⟨next, stepped⟩ : ∃ next, endOp state k = some next := by
    rw [endOp, working]
    dsimp only
    split
    · exact ⟨_, rfl⟩
    · split <;> exact ⟨_, rfl⟩
  have first : (system layout bound).Run state [(state, .endOp k)] next :=
    System.Run.single (Option.ite_none_right_eq_some.mpr ⟨live, stepped⟩)
  obtain ⟨-, -, ⟨committing, -⟩ | ⟨-, last, rfl⟩ | ⟨-, -, rfl⟩⟩ := endOp_cases stepped
  · exact absurd (committing.symm.trans closed) (by decide)
  · have after := admitted.last working last
    obtain ⟨events, finish, run, proceeds, awake⟩ := exists_commit_run layout bound rfl
      (fun idle => by cases after.committing idle) (by dsimp only; split <;> nofun) others
    refine ⟨_, finish, first.trans run, ?_, awake⟩
    intro event member
    rcases List.mem_append.mp member with member | member
    · rw [List.mem_singleton.mp member]
      trivial
    · rw [proceeds event member]
      trivial
  · refine ⟨_, _, first, ?_, ?_⟩
    · intro event member
      rw [List.mem_singleton.mp member]
      trivial
    · rw [List.getElem?_map, others]
      rfl

theorem exists_busy_run (admitted : Admitted state) {process : Process Block} {k : ℕ}
    (found : state.procs[k]? = some process) (busy : process.busy = true)
    (lookup : state.procs[i]? = some .sleeping) :
    ∃ events finish, (system layout bound).Run state events finish ∧
      (∀ event ∈ events, event.2.Finishing) ∧ finish.procs[i]? = some .entering := by
  obtain ⟨resting, -⟩ := admitted.idle_of_busy found busy
  cases process with
  | outside | entering | sleeping => cases busy
  | working blocks => exact exists_endOp_run admitted found lookup
  | storing blocks block data =>
      have live : state.live = true := by rw [State.live, resting]
      obtain ⟨next, stepped⟩ : ∃ next, logStore state k = some next := by
        rw [logStore, found]
        exact ⟨_, rfl⟩
      have first : (system layout bound).Run state [(state, .logStore k)] next :=
        System.Run.single (Option.ite_none_right_eq_some.mpr ⟨live, stepped⟩)
      have after := admitted.store stepped
      obtain ⟨_, _, _, _, rfl⟩ := logStore_cases stepped
      have inside := (List.getElem?_eq_some_iff.mp found).1
      have different : k ≠ i := by
        rintro rfl
        rw [found] at lookup
        cases lookup
      obtain ⟨events, finish, run, finishing, awake⟩ := exists_endOp_run after
        (List.getElem?_set_self inside) ((List.getElem?_set_ne different).trans lookup)
      refine ⟨_, finish, first.trans run, ?_, awake⟩
      intro event member
      rcases List.mem_append.mp member with member | member
      · rw [List.mem_singleton.mp member]
        trivial
      · exact finishing event member

theorem Admitted.busy_of_full (admitted : Admitted state) (closed : state.committing = false)
    (member : .sleeping ∈ state.procs) (full : state.Full) :
    ∃ process ∈ state.procs, process.busy = true := by
  have resting : state.point = .idle := by
    by_contra active
    have recovering : state.live = false := by
      rw [State.live]
      cases point : state.point <;> simp_all
    cases admitted.stopped recovering _ member
  refine List.countP_pos_iff.mp ?_
  rw [admitted.outstanding]
  by_contra noneBusy
  have zero : state.outstanding = 0 := by omega
  rw [State.Full, admitted.empty resting zero, zero] at full
  exact absurd full (by decide)

/-- No wakeup is lost: while a process sleeps in `begin_op`, either a commit is
under way or the log is full and an operation is, and once these end it wakes. -/
theorem sleeping_until_wakeup (reachable : (system layout bound).Reachable state)
    (sound : state.point ≠ .panicked) (lookup : state.procs[i]? = some .sleeping) :
    (state.committing = true ∧ state.outstanding = 0 ∨
      state.Full ∧ ∃ process ∈ state.procs, process.busy = true) ∧
    ∃ events finish, (system layout bound).Run state events finish ∧
      (∀ event ∈ events, event.2.Finishing) ∧ finish.procs[i]? = some .entering := by
  have admitted := admitted_of_reachable reachable sound
  have member := List.mem_of_getElem? lookup
  cases committing : state.committing with
  | true =>
      have active : state.point ≠ .idle := by
        intro idle
        cases committing.symm.trans (admitted.committing idle)
      obtain ⟨events, finish, run, proceeds, awake⟩ :=
        exists_commit_run layout bound committing active sound lookup
      refine ⟨.inl ⟨rfl, admitted.quiet active⟩, events, finish, run, ?_, awake⟩
      intro event member
      rw [proceeds event member]
      trivial
  | false =>
      have full := (admitted.waiting member).resolve_left (Bool.eq_false_iff.mp committing)
      have someBusy := admitted.busy_of_full committing member full
      refine ⟨.inr ⟨full, someBusy⟩, ?_⟩
      obtain ⟨process, found, busy⟩ := someBusy
      obtain ⟨k, found⟩ := List.mem_iff_getElem?.mp found
      exact exists_busy_run admitted found busy lookup

/-- A machine switched on for the first time. -/
def blank (data : Block) (count : ℕ) : State Block where
  disk := { block := fun _ => data, head := [] }
  dirty _ := none
  lh := []
  outstanding := 0
  committing := false
  procs := List.replicate count .outside
  point := .readHead

theorem blank_boot (layout : Layout) (data : Block) (count : ℕ) :
    Boot layout (blank data count) :=
  ⟨⟨nofun, List.nodup_nil, Nat.zero_le _⟩, fun _ => rfl, rfl, rfl, rfl,
    fun _ member => List.eq_of_mem_replicate member, rfl⟩

/-- The second process comes while the first one commits. -/
theorem sleeping_until_wakeup_commit :
    ∃ state : State Bool, (system ⟨2, 30⟩ 9).Reachable state ∧ state.point ≠ .panicked ∧
      state.procs[1]? = some .sleeping ∧
      ∃ events finish, (system ⟨2, 30⟩ 9).Run state events finish ∧
        (∀ event ∈ events, event.2.Finishing) ∧ finish.procs[1]? = some .entering := by
  let state : State Bool := { blank false 2 with
    committing := true
    procs := [.outside, .sleeping]
    point := .release }
  have executed : (system ⟨2, 30⟩ 9).execute (blank false 2)
      [.proceed, .proceed, .proceed, .beginOp 0, .endOp 0, .beginOp 1] = some state := rfl
  have reachable : (system ⟨2, 30⟩ 9).Reachable state :=
    (System.Reachable.of_initial (blank_boot ⟨2, 30⟩ false 2)).execute executed
  exact ⟨state, reachable, nofun, rfl, (sleeping_until_wakeup reachable nofun rfl).2⟩

end Wakeup

end Ence360.Xv6.Log
