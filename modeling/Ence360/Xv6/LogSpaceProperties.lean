import Ence360.Xv6.LogAdmissionProperties
import Mathlib

/-!
# Space in the log

The room that `begin_op` reserves is enough exactly for operations that write
fewer than `maxOpBlocks` blocks.
-/

set_option autoImplicit false

namespace Ence360.Xv6.Log

open Semantics Semantics.IndexedList

variable {Block : Type} {layout : Layout} {bound : ℕ}

section Reservation

variable {state next : State Block} {i : ℕ}

/-- Blocks that an operation may still write. -/
def Process.owed (bound : ℕ) : Process Block → ℕ
  | .working blocks | .storing blocks _ _ => bound - blocks.length
  | .outside | .entering | .sleeping => 0

def Process.Within (bound : ℕ) : Process Block → Prop
  | .working blocks => blocks.length ≤ bound
  | .storing blocks block _ => (blocks.insert block).length ≤ bound
  | .outside | .entering | .sleeping => True

def State.owed (bound : ℕ) (state : State Block) : ℕ :=
  (state.procs.map (Process.owed bound)).sum

/-- The header holds all that was written, and room for what still may be. -/
structure Reserved (bound : ℕ) (state : State Block) : Prop where
  sound : state.point ≠ .panicked
  admitted : Admitted state
  known : ∀ process ∈ state.procs, process.blocks ⊆ state.lh
  within : ∀ process ∈ state.procs, process.Within bound
  space : state.point = .idle → state.lh.length + state.owed bound ≤ maxOpBlocks + 2 * bound

@[simp] theorem Process.owed_woken (process : Process Block) :
    process.woken.owed bound = process.owed bound := by
  cases process <;> rfl

theorem Process.within_woken {process : Process Block} (within : process.Within bound) :
    process.woken.Within bound := by
  cases process with
  | outside | entering | sleeping => trivial
  | working | storing => exact within

theorem owed_woken (procs : List (Process Block)) :
    ((procs.map Process.woken).map (Process.owed bound)).sum =
      (procs.map (Process.owed bound)).sum := by
  rw [List.map_map]
  congr 2
  funext process
  exact process.owed_woken

theorem owed_le (bound : ℕ) (procs : List (Process Block)) :
    (procs.map (Process.owed bound)).sum ≤ procs.countP Process.busy * bound := by
  induction procs with
  | nil => simp
  | cons head tail ih =>
      rw [List.map_cons, List.sum_cons, List.countP_cons]
      cases head with
      | outside | entering | sleeping => simpa [Process.owed, Process.busy] using ih
      | working blocks | storing blocks block data =>
          simp only [Process.owed, Process.busy, if_true, Nat.add_mul]
          omega

theorem State.owed_set (bound : ℕ) {process : Process Block}
    (lookup : state.procs[i]? = some process) (replaced : Process Block) :
    (state.setProc i replaced).owed bound + process.owed bound =
      state.owed bound + replaced.owed bound :=
  sum_map_set lookup

theorem Process.owed_of_not_busy {process : Process Block} (idle : process.busy = false) :
    process.owed bound = 0 := by
  cases process with
  | outside | entering | sleeping => rfl
  | working | storing => cases idle

theorem Process.within_of_not_busy {process : Process Block} (idle : process.busy = false) :
    process.Within bound := by
  cases process with
  | outside | entering | sleeping => trivial
  | working | storing => cases idle

theorem Reserved.of_quiet (sound : state.point ≠ .panicked) (admitted : Admitted state)
    (quiet : state.outstanding = 0) : Reserved bound state := by
  have noneBusy : state.procs.countP Process.busy = 0 := admitted.outstanding.trans quiet
  have idle : ∀ process ∈ state.procs, process.busy = false := fun process member =>
    Bool.eq_false_iff.mpr (List.countP_eq_zero.mp noneBusy process member)
  refine ⟨sound, admitted, ?_, ?_, ?_⟩
  · intro process member
    rw [Process.blocks_of_not_busy (idle process member)]
    exact List.nil_subset _
  · intro process member
    exact Process.within_of_not_busy (idle process member)
  · intro resting
    have noneOwed := owed_le bound state.procs
    rw [noneBusy, Nat.zero_mul] at noneOwed
    rw [admitted.empty resting quiet, State.owed]
    simp only [List.length_nil]
    omega

private theorem space_of_room {n outstanding owed : ℕ} (fits : bound < maxOpBlocks)
    (room : n + (outstanding + 1) * maxOpBlocks ≤ logSize) (reserved : owed ≤ outstanding * bound)
    (empty : outstanding = 0 → n = 0) : n + (owed + bound) ≤ maxOpBlocks + 2 * bound := by
  simp only [logSize, maxOpBlocks] at fits room ⊢
  have few : outstanding ≤ 2 := by omega
  obtain rfl | rfl | rfl : outstanding = 0 ∨ outstanding = 1 ∨ outstanding = 2 := by omega
  all_goals omega

theorem Reserved.begin (reserved : Reserved bound state) (fits : bound < maxOpBlocks)
    {process : Process Block} (lookup : state.procs[i]? = some process)
    (idle : process.busy = false) (room : ¬ state.Full)
    (admitted : Admitted { state.setProc i (.working []) with
      outstanding := state.outstanding + 1 }) :
    Reserved bound { state.setProc i (.working []) with
      outstanding := state.outstanding + 1 } := by
  refine ⟨reserved.sound, admitted, ?_, ?_, ?_⟩
  · intro process member
    rcases mem_set_cases member with rfl | member
    · exact List.nil_subset _
    · exact reserved.known process member
  · intro process member
    rcases mem_set_cases member with rfl | member
    · exact Nat.zero_le _
    · exact reserved.within process member
  · intro resting
    have owed := State.owed_set bound lookup (.working [])
    rw [Process.owed_of_not_busy idle, Process.owed, List.length_nil, Nat.sub_zero,
      Nat.add_zero] at owed
    have reservedSpace := owed_le bound state.procs
    rw [reserved.admitted.outstanding, ← State.owed] at reservedSpace
    have empty : state.outstanding = 0 → state.lh.length = 0 := fun noneBusy =>
      List.length_eq_zero_iff.mpr (reserved.admitted.empty resting noneBusy)
    change state.lh.length + (state.setProc i (.working [])).owed bound ≤ _
    rw [owed]
    exact space_of_room fits (Nat.not_lt.mp room) reservedSpace empty

/-- A process whose step changes neither the header nor what it may still write. -/
theorem Reserved.replace (reserved : Reserved bound state) {process replaced : Process Block}
    (lookup : state.procs[i]? = some process) (known : replaced.blocks = process.blocks)
    (within : replaced.Within bound) (owed : replaced.owed bound = process.owed bound)
    (admitted : Admitted (state.setProc i replaced)) :
    Reserved bound (state.setProc i replaced) := by
  refine ⟨reserved.sound, admitted, ?_, ?_, ?_⟩
  · intro other member
    rcases mem_set_cases member with rfl | member
    · rw [known]
      exact reserved.known process (List.mem_of_getElem? lookup)
    · exact reserved.known other member
  · intro other member
    rcases mem_set_cases member with rfl | member
    · exact within
    · exact reserved.within other member
  · intro resting
    have total := State.owed_set bound lookup replaced
    rw [owed] at total
    rw [Nat.add_right_cancel total]
    exact reserved.space resting

theorem Reserved.store (reserved : Reserved bound state)
    (stepped : logStore state i = some next) : Reserved bound next := by
  have admitted := reserved.admitted.store stepped
  obtain ⟨blocks, block, data, lookup, rfl⟩ := logStore_cases stepped
  have member := List.mem_of_getElem? lookup
  have known : blocks ⊆ state.lh := reserved.known _ member
  have within : (blocks.insert block).length ≤ bound := reserved.within _ member
  have grows : state.lh ⊆ if block ∈ state.lh then state.lh else state.lh ++ [block] := by
    split
    · exact List.Subset.refl _
    · exact List.subset_append_left _ _
  refine ⟨reserved.sound, admitted, ?_, ?_, ?_⟩
  · intro other found
    rcases mem_set_cases found with rfl | found
    · intro number inserted
      rcases List.mem_insert_iff.mp inserted with rfl | earlier
      · dsimp only
        split
        · assumption
        · simp
      · exact grows (known earlier)
    · exact fun number earlier => grows (reserved.known other found earlier)
  · intro other found
    rcases mem_set_cases found with rfl | found
    · exact within
    · exact reserved.within other found
  · intro resting
    have total := State.owed_set bound lookup (.working (blocks.insert block))
    have space := reserved.space resting
    simp only [Process.owed] at total
    change (if block ∈ state.lh then state.lh else state.lh ++ [block]).length +
      (state.setProc i (.working (blocks.insert block))).owed bound ≤ _
    split
    · have longer : blocks.length ≤ (blocks.insert block).length :=
        List.length_le_length_insert
      omega
    · next absent =>
        have fresh : block ∉ blocks := fun earlier => absent (known earlier)
        have longer := List.length_insert_of_not_mem fresh
        rw [List.length_append, List.length_singleton]
        omega

theorem Reserved.leave (reserved : Reserved bound state) {blocks : List ℕ}
    (lookup : state.procs[i]? = some (.working blocks))
    (admitted : Admitted { state with
      procs := (state.procs.set i .outside).map Process.woken
      outstanding := state.outstanding - 1 }) :
    Reserved bound { state with
      procs := (state.procs.set i .outside).map Process.woken
      outstanding := state.outstanding - 1 } := by
  refine ⟨reserved.sound, admitted, ?_, ?_, ?_⟩
  · intro process member
    obtain ⟨asleep, found, rfl⟩ := List.mem_map.mp member
    rw [Process.blocks_woken]
    rcases mem_set_cases found with rfl | found
    · exact List.nil_subset _
    · exact reserved.known asleep found
  · intro process member
    obtain ⟨asleep, found, rfl⟩ := List.mem_map.mp member
    refine Process.within_woken ?_
    rcases mem_set_cases found with rfl | found
    · trivial
    · exact reserved.within asleep found
  · intro resting
    have total := State.owed_set bound lookup .outside
    have space := reserved.space resting
    rw [State.owed, owed_woken]
    simp only [State.owed, State.setProc, Process.owed] at total space ⊢
    omega

theorem Reserved.lh_length_le (reserved : Reserved bound state) (fits : bound < maxOpBlocks)
    (resting : state.point = .idle) : state.lh.length + 1 < logSize := by
  have space := reserved.space resting
  simp only [logSize, maxOpBlocks] at *
  omega

theorem proceed_frame (stepped : proceed layout state = some next) :
    next.outstanding = state.outstanding ∧ next.point ≠ .panicked := by
  unfold proceed at stepped
  split at stepped
  · cases stepped
  · cases stepped
  · split at stepped <;> cases stepped <;> exact ⟨rfl, nofun⟩
  · cases stepped
    exact ⟨rfl, nofun⟩
  · split at stepped <;> cases stepped <;> exact ⟨rfl, nofun⟩
  · cases stepped
    refine ⟨rfl, ?_⟩
    dsimp only
    split <;> nofun
  · cases stepped
    exact ⟨rfl, nofun⟩
  · cases stepped
    exact ⟨rfl, nofun⟩

theorem Reserved.step {action : Action Block} (fits : bound < maxOpBlocks)
    (large : logSize ≤ layout.size) (reserved : Reserved bound state)
    (stepped : (system layout bound).step state action = some next) : Reserved bound next := by
  have admittedNext := Admitted.step (fun _ => reserved.admitted) stepped
  cases action with
  | beginOp i =>
      obtain ⟨live, stepped⟩ := Option.ite_none_right_eq_some.mp stepped
      obtain ⟨process, lookup, idle, ⟨-, rfl⟩ | ⟨-, room, rfl⟩⟩ := beginOp_cases stepped
      · refine reserved.replace lookup (Process.blocks_of_not_busy idle).symm trivial
          (Process.owed_of_not_busy idle).symm (admittedNext reserved.sound)
      · exact reserved.begin fits lookup idle room (admittedNext reserved.sound)
  | logWrite i block data =>
      obtain ⟨⟨live, -, promised⟩, stepped⟩ := Option.ite_none_right_eq_some.mp stepped
      obtain ⟨blocks, lookup, ⟨refused, rfl⟩ | ⟨-, -, rfl⟩⟩ := logWrite_cases stepped
      · obtain ⟨resting, someBusy⟩ := reserved.admitted.idle_of_busy lookup rfl
        have short := reserved.lh_length_le fits resting
        omega
      · refine reserved.replace lookup rfl ?_ rfl (admittedNext reserved.sound)
        rw [State.blocks, lookup] at promised
        exact promised
  | logStore i => exact reserved.store (Option.ite_none_right_eq_some.mp stepped).2
  | endOp i =>
      obtain ⟨live, stepped⟩ := Option.ite_none_right_eq_some.mp stepped
      obtain ⟨blocks, lookup, ⟨committing, -⟩ | ⟨-, -, rfl⟩ | ⟨-, -, rfl⟩⟩ := endOp_cases stepped
      · obtain ⟨resting, -⟩ := reserved.admitted.idle_of_busy lookup rfl
        cases committing.symm.trans (reserved.admitted.committing resting)
      · have sound : (if state.lh.length > 0 then Point.writeLog 0 else .release) ≠ .panicked := by
          split <;> simp
        exact .of_quiet sound (admittedNext sound) rfl
      · exact reserved.leave lookup (admittedNext reserved.sound)
  | proceed =>
      have active : state.point ≠ .idle := by
        intro idle
        simp [system, Log.proceed, idle] at stepped
      obtain ⟨same, sound⟩ := proceed_frame stepped
      exact .of_quiet sound (admittedNext sound) (same.trans (reserved.admitted.quiet active))
  | crash =>
      cases stepped
      exact .of_quiet (by simp [Log.crash]) (Admitted.crash state) rfl

theorem reserved_of_reachable (fits : bound < maxOpBlocks) (large : logSize ≤ layout.size)
    (reachable : (system layout bound).Reachable state) : Reserved bound state := by
  refine System.Reachable.invariant (Reserved bound) ?_ ?_ reachable
  · intro origin boot
    exact .of_quiet (by simp [boot.point]) (Admitted.boot boot) boot.outstanding
  · intro state action next reserved stepped
    exact reserved.step fits large stepped

end Reservation

section Overflow

variable {state : State Block} {i : ℕ} {blocks : List ℕ}

/-- An operation of process `i` that goes on to write the blocks after the log. -/
structure Filling (layout : Layout) (bound : ℕ) (state : State Block) (i : ℕ)
    (blocks : List ℕ) : Prop where
  reachable : (system layout bound).Reachable state
  point : state.point = .idle
  outstanding : 0 < state.outstanding
  lookup : state.procs[i]? = some (.working blocks)
  known : blocks ⊆ state.lh
  beyond : ∀ block ∈ state.lh, layout.start + layout.size ≤ block ∧
    block < layout.start + layout.size + state.lh.length

theorem Filling.live (filling : Filling layout bound state i blocks) : state.live = true := by
  rw [State.live, filling.point]

theorem Filling.next (filling : Filling layout bound state i blocks)
    (short : state.lh.length < logSize) (room : state.lh.length + 1 < layout.size)
    (promise : blocks.length < bound) :
    ∃ next more, Filling layout bound next i more ∧
      next.procs = state.procs.set i (.working more) ∧ more.length = blocks.length + 1 ∧
      next.lh.length = state.lh.length + 1 ∧ next.outstanding = state.outstanding ∧
      next.committing = state.committing := by
  have inside := (List.getElem?_eq_some_iff.mp filling.lookup).1
  have data : Block := state.disk.block 0
  obtain ⟨block, number⟩ : ∃ block, block = layout.start + layout.size + state.lh.length :=
    ⟨_, rfl⟩
  have fresh : block ∉ state.lh := fun member => by
    have before := (filling.beyond block member).2
    omega
  have longer : (blocks.insert block).length = blocks.length + 1 :=
    List.length_insert_of_not_mem fun member => fresh (filling.known member)
  have promised : Promised layout bound state i block := by
    refine ⟨.inr (by omega), ?_⟩
    rw [State.blocks, filling.lookup]
    exact longer.trans_le promise
  have checked : (system layout bound).step state (.logWrite i block data) =
      some (state.setProc i (.storing blocks block data)) := by
    refine Option.ite_none_right_eq_some.mpr ⟨⟨filling.live, promised⟩, ?_⟩
    have busy := filling.outstanding
    rw [logWrite, filling.lookup]
    dsimp only
    rw [if_neg (by omega), if_neg (by omega)]
  have stored : (system layout bound).step (state.setProc i (.storing blocks block data))
      (.logStore i) = some { state.setProc i (.working (blocks.insert block)) with
        lh := state.lh ++ [block]
        dirty := Function.update state.dirty block (some data) } := by
    refine Option.ite_none_right_eq_some.mpr ⟨filling.live, ?_⟩
    rw [logStore, State.setProc, List.getElem?_set_self inside]
    simp only [absorb_eq, if_neg fresh, State.setProc, List.set_set]
  refine ⟨_, blocks.insert block, ⟨(filling.reachable.next _ checked).next _ stored,
    filling.point, filling.outstanding, List.getElem?_set_self inside, ?_, ?_⟩,
    rfl, longer, ?_, rfl, rfl⟩
  · intro other member
    rcases List.mem_insert_iff.mp member with rfl | member
    · simp
    · exact List.mem_append_left _ (filling.known member)
  · intro other member
    simp only [List.length_append, List.length_singleton]
    rcases List.mem_append.mp member with member | member
    · have before := filling.beyond other member
      omega
    · rw [List.mem_singleton] at member
      omega
  · simp

theorem Filling.many (filling : Filling layout bound state i blocks)
    (large : logSize ≤ layout.size) (k : ℕ) (room : state.lh.length + k < logSize)
    (promise : blocks.length + k ≤ bound) :
    ∃ next more, Filling layout bound next i more ∧
      next.procs = state.procs.set i (.working more) ∧ more.length = blocks.length + k ∧
      next.lh.length = state.lh.length + k ∧ next.outstanding = state.outstanding ∧
      next.committing = state.committing := by
  induction k with
  | zero =>
      have inside := (List.getElem?_eq_some_iff.mp filling.lookup)
      refine ⟨state, blocks, filling, ?_, rfl, rfl, rfl, rfl⟩
      rw [← inside.2, List.set_getElem_self]
  | succ k ih =>
      obtain ⟨middle, part, filled, procs, count, length, outstanding, committing⟩ :=
        ih (by omega) (by omega)
      obtain ⟨next, more, filled, procs', count', length', outstanding', committing'⟩ :=
        filled.next (by omega) (by omega) (by omega)
      refine ⟨next, more, filled, ?_, by omega, by omega, by omega, by rw [committing', committing]⟩
      rw [procs', procs, List.set_set]

theorem Filling.panics (filling : Filling layout bound state i blocks)
    (full : logSize ≤ state.lh.length ∨ layout.size ≤ state.lh.length + 1) (block : ℕ)
    (promised : Promised layout bound state i block) :
    ∃ next : State Block, (system layout bound).Reachable next ∧ next.point = .panicked := by
  refine ⟨state.panic, filling.reachable.next (.logWrite i block (state.disk.block 0)) ?_, rfl⟩
  refine Option.ite_none_right_eq_some.mpr ⟨⟨filling.live, promised⟩, ?_⟩
  rw [logWrite, filling.lookup]
  dsimp only
  rw [if_pos full]

/-- With one block short of a full log, an operation that may still write one
block panics on it, or when it writes it again. -/
theorem Filling.overflows (filling : Filling layout bound state i blocks)
    (length : state.lh.length + 1 = logSize)
    (promise : blocks.length < bound) :
    ∃ next : State Block, (system layout bound).Reachable next ∧ next.point = .panicked := by
  rcases Nat.lt_or_ge (state.lh.length + 1) layout.size with room | full
  · obtain ⟨next, more, filled, -, count, length', -, -⟩ := filling.next (by omega) room promise
    obtain ⟨block, member⟩ := List.exists_mem_of_length_pos (l := more) (by omega)
    refine filled.panics (.inl (by omega)) block ⟨.inr ?_, ?_⟩
    · exact (filled.beyond block (filled.known member)).1
    · rw [State.blocks, filled.lookup]
      have same := List.length_insert_of_mem member
      exact same.trans_le (by omega)
  · refine filling.panics (.inr full) (layout.start + layout.size + state.lh.length)
      ⟨.inr (by omega), ?_⟩
    have fresh : layout.start + layout.size + state.lh.length ∉ blocks := fun member => by
      have before := (filling.beyond _ (filling.known member)).2
      omega
    rw [State.blocks, filling.lookup]
    exact (List.length_insert_of_not_mem fresh).trans_le promise

/-- Two operations of which the first has filled its share, and a third one that
`begin_op` admits beside the second. -/
theorem exists_third_admitted (layout : Layout) (data : Block) (large : logSize ≤ layout.size)
    (promise : maxOpBlocks ≤ bound) :
    ∃ state : State Block, (system layout bound).Reachable state ∧ state.point = .idle ∧
      state.outstanding = 2 ∧ state.procs = [.outside, .working [], .working []] ∧
      state.lh.length = maxOpBlocks ∧
      ∀ block ∈ state.lh, layout.start + layout.size ≤ block ∧
        block < layout.start + layout.size + state.lh.length := by
  let begun : State Block := { blank data 3 with
    outstanding := 2
    procs := [.working [], .working [], .outside]
    point := .idle }
  have executed : (system layout bound).execute (blank data 3)
      [.proceed, .proceed, .proceed, .beginOp 0, .beginOp 1] = some begun := rfl
  have filling : Filling layout bound begun 0 [] :=
    ⟨(System.Reachable.of_initial (blank_boot layout data 3)).execute executed, rfl,
      by simp [begun], rfl, by simp, by simp [begun, blank]⟩
  obtain ⟨filled, more, filling, procs, -, length, outstanding, committing⟩ :=
    filling.many large maxOpBlocks (by simp [begun, blank, logSize, maxOpBlocks])
      (by simpa using promise)
  have length : filled.lh.length = maxOpBlocks := by simpa [begun, blank] using length
  have ended : (system layout bound).execute filled [.endOp 0, .beginOp 2] = some { filled with
      procs := [.outside, .working [], .working []], outstanding := 2 } := by
    have procs : filled.procs = [.working more, .working [], .outside] := procs
    have outstanding : filled.outstanding = 2 := outstanding
    have committing : filled.committing = false := committing
    simp [System.execute, system, State.live, filling.point, endOp, beginOp, procs, outstanding,
      committing, State.setProc, State.wakeup, Process.woken, length, logSize, maxOpBlocks]
  exact ⟨_, filling.reachable.execute ended, filling.point, rfl, rfl, length, filling.beyond⟩

/-- The log never panics exactly when every operation writes fewer blocks than
`begin_op` reserves for it. -/
theorem never_panics_iff [Nonempty Block] (layout : Layout) (bound : ℕ)
    (large : logSize ≤ layout.size) :
    (∀ state : State Block, (system layout bound).Reachable state → state.point ≠ .panicked) ↔
      bound < maxOpBlocks := by
  constructor
  · intro sound
    by_contra promise
    have promise : maxOpBlocks ≤ bound := Nat.not_lt.mp promise
    obtain ⟨data⟩ := ‹Nonempty Block›
    obtain ⟨admitted, reachable, point, outstanding, procs, length, beyond⟩ :=
      exists_third_admitted layout data large promise
    have second : Filling layout bound admitted 1 [] :=
      ⟨reachable, point, by omega, by rw [procs]; rfl, List.nil_subset _, beyond⟩
    obtain ⟨filled, more, filling, procs', -, length', outstanding', -⟩ :=
      second.many large maxOpBlocks (by rw [length]; decide) (by simpa using promise)
    have third : Filling layout bound filled 2 [] :=
      ⟨filling.reachable, filling.point, by omega, by rw [procs', procs]; rfl,
        List.nil_subset _, filling.beyond⟩
    simp only [logSize, maxOpBlocks] at large promise length length'
    obtain ⟨full, blocks, last, -, count, length'', -, -⟩ := third.many large 9
      (by simp only [logSize, maxOpBlocks]; omega) (by simp only [List.length_nil]; omega)
    simp only [List.length_nil] at count
    obtain ⟨next, reachable, panicked⟩ := last.overflows
      (by simp only [logSize, maxOpBlocks]; omega) (by omega)
    exact sound next reachable panicked
  · intro fits state reachable
    exact (reserved_of_reachable fits large reachable).sound

theorem never_panics_iff_smallest :
    logSize ≤ (⟨2, 30⟩ : Layout).size ∧
      ((∀ state : State Bool, (system ⟨2, 30⟩ 9).Reachable state → state.point ≠ .panicked) ↔
        9 < maxOpBlocks) :=
  ⟨by decide, never_panics_iff ⟨2, 30⟩ 9 (by decide)⟩

end Overflow

end Ence360.Xv6.Log
