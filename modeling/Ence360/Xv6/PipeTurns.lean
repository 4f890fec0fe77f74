import Ence360.Xv6.Pipe

/-!
# Turns on a pipe

Everything that the process with the lock of a pipe can do next.
-/

set_option autoImplicit false

namespace Ence360.Xv6.Pipe

open Semantics

variable {Byte : Type} {state next : State Byte} {k : ℕ}

section Lookups

variable {j : ℕ} {process : Process Byte} {call : Call Byte} {awake : Call Byte → Call Byte}

theorem lookup_setCall (lookup : (state.setCall k call).procs[j]? = some process) :
    (j = k ∧ process.call = call ∧ ∃ old, state.procs[k]? = some old ∧
      process.killed = old.killed) ∨ (j ≠ k ∧ state.procs[j]? = some process) := by
  rw [State.setCall, List.getElem?_modify] at lookup
  obtain ⟨old, found, same⟩ := Option.map_eq_some_iff.mp lookup
  by_cases equal : k = j
  · subst equal
    rw [if_pos rfl] at same
    subst same
    exact .inl ⟨rfl, rfl, old, found, rfl⟩
  · rw [if_neg equal] at same
    subst same
    exact .inr ⟨fun same => equal same.symm, found⟩

theorem lookup_wake (lookup : (state.wake awake).procs[j]? = some process) :
    ∃ old, state.procs[j]? = some old ∧ process = { old with call := awake old.call } := by
  rw [State.wake, List.getElem?_map] at lookup
  obtain ⟨old, found, same⟩ := Option.map_eq_some_iff.mp lookup
  exact ⟨old, found, same.symm⟩

theorem lookup_kill (lookup : (kill state k).procs[j]? = some process) :
    ∃ old, state.procs[j]? = some old ∧
      (process.call = old.call ∨ process.call = old.call.wakeReader.wakeWriter) := by
  rw [kill, List.getElem?_modify] at lookup
  obtain ⟨old, found, same⟩ := Option.map_eq_some_iff.mp lookup
  refine ⟨old, found, ?_⟩
  split at same
  · subst same
    exact .inr rfl
  · subst same
    exact .inl rfl

theorem wake_id (state : State Byte) : state.wake id = state := by
  simp [State.wake]

end Lookups

section Turns

/-- What the holder of the lock does next. -/
inductive Turn (state : State Byte) (k : ℕ) : State Byte → Prop where
  | finish {addr : List Byte} {i : ℕ} {killed : Bool}
      (lookup : state.procs[k]? = some ⟨.write .copying addr i, killed⟩) (done : addr[i]? = none) :
      Turn state k ((state.wake Call.wakeReader).leave k .outside)
  | abandon {addr : List Byte} {i : ℕ} {killed : Bool} {byte : Byte}
      (lookup : state.procs[k]? = some ⟨.write .copying addr i, killed⟩)
      (more : addr[i]? = some byte) (full : state.pipe.full = true)
      (reason : state.pipe.readopen = false ∨ killed = true) :
      Turn state k (state.leave k .outside)
  | resign {addr : List Byte} {i : ℕ} {killed : Bool}
      (lookup : state.procs[k]? = some ⟨.write .copying addr i, killed⟩)
      (full : state.pipe.full = true) (opened : state.pipe.readopen = true) :
      Turn state k (state.setCall k (.write .dozing addr i))
  | store {addr : List Byte} {i : ℕ} {killed : Bool} {byte : Byte}
      (lookup : state.procs[k]? = some ⟨.write .copying addr i, killed⟩)
      (more : addr[i]? = some byte) (room : state.pipe.full = false) :
      Turn state k { state.setCall k (.write .copying addr (i + 1)) with
        pipe := state.pipe.push byte }
  | sleepWriter {addr : List Byte} {i : ℕ} {killed : Bool}
      (lookup : state.procs[k]? = some ⟨.write .dozing addr i, killed⟩) :
      Turn state k ((state.wake Call.wakeReader).leave k (.write .sleeping addr i))
  | quit {n : ℕ} {addr : List Byte}
      (lookup : state.procs[k]? = some ⟨.read .waiting n addr, true⟩) :
      Turn state k (state.leave k .outside)
  | wait {n : ℕ} {addr : List Byte} {killed : Bool}
      (lookup : state.procs[k]? = some ⟨.read .waiting n addr, killed⟩)
      (empty : state.pipe.empty = true) (opened : state.pipe.writeopen = true) :
      Turn state k (state.setCall k (.read .dozing n addr))
  | copy {n : ℕ} {addr : List Byte} {killed : Bool}
      (lookup : state.procs[k]? = some ⟨.read .waiting n addr, killed⟩) :
      Turn state k (state.setCall k (.read .copying n addr))
  | take {n : ℕ} {addr : List Byte} {killed : Bool}
      (lookup : state.procs[k]? = some ⟨.read .copying n addr, killed⟩)
      (room : addr.length < n) (filled : state.pipe.empty = false) :
      Turn state k { state.setCall k (.read .copying n (addr ++ [state.pipe.front])) with
        pipe := state.pipe.pop }
  | deliver {n : ℕ} {addr : List Byte} {killed : Bool}
      (lookup : state.procs[k]? = some ⟨.read .copying n addr, killed⟩)
      (done : ¬ (addr.length < n ∧ state.pipe.empty = false)) :
      Turn state k ((state.wake Call.wakeWriter).leave k .outside)
  | sleepReader {n : ℕ} {addr : List Byte} {killed : Bool}
      (lookup : state.procs[k]? = some ⟨.read .dozing n addr, killed⟩) :
      Turn state k (state.leave k (.read .sleeping n addr))

theorem turn_of_pipewrite {addr : List Byte} {i : ℕ} {killed : Bool} {phase : Phase}
    (lookup : state.procs[k]? = some ⟨.write phase addr i, killed⟩)
    (stepped : pipewrite state k killed phase addr i = some next) : Turn state k next := by
  unfold pipewrite at stepped
  cases phase with
  | entering | waiting | sleeping => cases stepped
  | dozing =>
      cases stepped
      exact .sleepWriter lookup
  | copying =>
      dsimp only at stepped
      cases more : addr[i]? with
      | none =>
          simp only [more] at stepped
          cases stepped
          exact .finish lookup more
      | some byte =>
          simp only [more] at stepped
          split at stepped
          · next full =>
              split at stepped
              · next reason =>
                  cases stepped
                  exact .abandon lookup more full reason
              · next stays =>
                  cases stepped
                  exact .resign lookup full (by simpa using (not_or.mp stays).1)
          · next room =>
              cases stepped
              exact .store lookup more (Bool.eq_false_iff.mpr room)

theorem turn_of_piperead {addr : List Byte} {n : ℕ} {killed : Bool} {phase : Phase}
    (lookup : state.procs[k]? = some ⟨.read phase n addr, killed⟩)
    (stepped : piperead state k killed phase n addr = some next) : Turn state k next := by
  unfold piperead at stepped
  cases phase with
  | entering | sleeping => cases stepped
  | dozing =>
      cases stepped
      exact .sleepReader lookup
  | waiting =>
      dsimp only at stepped
      split at stepped
      · next blocked =>
          split at stepped
          · next dead =>
              cases stepped
              exact .quit (dead ▸ lookup)
          · cases stepped
            exact .wait lookup blocked.1 blocked.2
      · cases stepped
        exact .copy lookup
  | copying =>
      dsimp only at stepped
      split at stepped
      · next more =>
          cases stepped
          exact .take lookup more.1 more.2
      · next done =>
          cases stepped
          exact .deliver lookup done

theorem turn_of_proceed (stepped : proceed state k = some next) : Turn state k next := by
  unfold proceed at stepped
  split at stepped
  · next lookup => exact turn_of_pipewrite lookup stepped
  · next lookup => exact turn_of_piperead lookup stepped
  · cases stepped

end Turns

end Ence360.Xv6.Pipe
