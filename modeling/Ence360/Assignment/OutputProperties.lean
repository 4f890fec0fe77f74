import Ence360.Assignment.ChildPoolOutputProperties
import Ence360.Assignment.QueryLoopOutputProperties
import Ence360.Assignment.WorkersProperties

/-!
# The result lines on the descriptor

When the result line of every query has been written exactly once by the time
the program exits with `_exit`, which drops what is still buffered.
-/

set_option autoImplicit false

namespace Ence360.Assignment

open Semantics Stdio

variable {D : Type} [Zero D] [NatCast D] [Add D] [Sub D] [Mul D] [Div D]

namespace QueryLoop

variable {config : Config} {format : Format D} {pid : ℕ} {queries : List (Query D)}
  {state next : State config (serialComputation format)}
  {events : List (State config (serialComputation format) × Action (serialComputation format))}
  {action : Action (serialComputation format)}

def serialLine (format : Format D) (query : Query D) : List Char :=
  integralLine format query query.serialArea

def unprintedLines (state : State config (serialComputation format)) : List (List Char) :=
  let memory : Direct D := state.memory
  match state.point, memory with
  | .computing, .computing query =>
      serialLine format query :: state.remaining.map (serialLine format)
  | .computing, .computed query area =>
      integralLine format query area :: state.remaining.map (serialLine format)
  | _, _ => state.remaining.map (serialLine format)

private theorem computed_of_line {memory : Direct D} {text : List Char}
    (line : (serialComputation format).line memory pid = some text) :
    ∃ query area, memory = .computed query area ∧ text = integralLine format query area := by
  cases memory with
  | computed query area =>
      cases line
      exact ⟨query, area, rfl, rfl⟩
  | idle | computing => cases line

private theorem computing_of_step {memory after : Direct D} {action : Unit}
    (moved : (serialComputation format).step memory action = some after) :
    ∃ query, memory = .computing query ∧ after = .computed query query.serialArea := by
  cases memory with
  | computing query =>
      cases moved
      exact ⟨query, rfl, rfl⟩
  | idle | computed => cases moved

theorem serialLines_of_step
    (inOrder : events.filterMap (printedLine pid) ++ unprintedLines state =
      queries.map (serialLine format))
    (stepped : step pid state action = some next) :
    (events ++ [(state, action)]).filterMap (printedLine pid) ++ unprintedLines next =
      queries.map (serialLine format) := by
  rw [List.filterMap_append, List.append_assoc, ← inOrder]
  congr 1
  cases step_eq_some_iff.mp stepped with
  | prompt point =>
      rw [List.filterMap_cons_none (by simp [printedLine, point])]
      simp [unprintedLines, point, State.print]
  | exit point _ =>
      rw [List.filterMap_cons_none (by simp [printedLine, point])]
      simp [unprintedLines, point]
  | accept point remaining =>
      rw [List.filterMap_cons_none (by simp [printedLine, point])]
      have before : unprintedLines state = state.remaining.map (serialLine format) := by
        simp [unprintedLines, point]
      rw [before, remaining]
      rfl
  | print point line =>
      obtain ⟨query, area, memory, rfl⟩ := computed_of_line line
      have loud : printedLine pid (state, .main) = some (integralLine format query area) := by
        simpa [printedLine, point] using line
      have before : unprintedLines state =
          integralLine format query area :: state.remaining.map (serialLine format) := by
        simp only [unprintedLines, point]
        rw [memory]
      rw [List.filterMap_cons_some loud, before]
      simp [unprintedLines, State.print]
  | abort point _ failed => cases failed
  | compute point moved =>
      obtain ⟨query, memory, rfl⟩ := computing_of_step moved
      have before : unprintedLines state =
          serialLine format query :: state.remaining.map (serialLine format) := by
        simp only [unprintedLines, point]
        rw [memory]
      rw [List.filterMap_cons_none rfl, before]
      simp [unprintedLines, point, serialLine]

theorem serialLines_of_exited
    (run : (serial config format pid queries).Run (start config _ queries) events state)
    (exited : state.point = .exited) :
    events.filterMap (printedLine pid) = queries.map (serialLine format) := by
  have inOrder := run.history (fun _ _ => True)
    (fun events state => events.filterMap (printedLine pid) ++ unprintedLines state =
      queries.map (serialLine format))
    (fun _ _ _ _ inOrder _ stepped => serialLines_of_step inOrder stepped) (fun _ _ => trivial)
    rfl
  have remaining := remaining_of_exited ⟨_, _, rfl, run⟩ exited
  simpa [unprintedLines, exited, remaining] using inOrder

end QueryLoop

theorem results_written_once_iff (config : Config) (format : Format D) (pid : ℕ)
    (queries : List (Query D)) :
    (∀ events state,
      (serial config format pid queries).Run (QueryLoop.start config _ queries) events state →
      state.point = .exited →
      ((∀ index < queries.length, QueryLoop.WrittenOnce pid events state index) ↔
        config.mode = .lineBuffered ∨ queries = [] ∨
          config.capacity ∣ promptLine.length +
            ((queries.map (QueryLoop.serialLine format)).map List.length).sum)) ∧
    (∀ events state,
      (thread config format pid queries).Run (QueryLoop.start config _ queries) events state →
      state.point = .exited →
      ((∀ index < queries.length, QueryLoop.WrittenOnce pid events state index) ↔
        config.mode = .lineBuffered ∨ queries = [] ∨
          config.capacity ∣ promptLine.length +
            ((events.filterMap (QueryLoop.printedLine pid)).map List.length).sum)) ∧
    (∀ events state,
      (process config format queries).Run (ChildPool.start config _ 10 queries) events state →
      (∀ event ∈ events, event.2.fault = false) → state.point = .exited →
      ((∀ index < queries.length, ChildPool.WrittenOnce events state index) ↔
        config.mode = .lineBuffered ∨
          ∀ line ∈ events.filterMap ChildPool.printedLine,
            config.capacity ∣ line.buffered + line.text.length)) ∧
    (∀ events state,
      (processThread config format queries).Run (ChildPool.start config _ 4 queries)
        events state →
      (∀ event ∈ events, event.2.fault = false) → state.point = .exited →
      ((∀ index < queries.length, ChildPool.WrittenOnce events state index) ↔
        config.mode = .lineBuffered ∨
          ∀ line ∈ events.filterMap ChildPool.printedLine,
            config.capacity ∣ line.buffered + line.text.length)) := by
  refine ⟨?_, ?_, ?_, ?_⟩
  · intro events state run exited
    rw [← QueryLoop.serialLines_of_exited run exited]
    exact QueryLoop.writtenOnce_iff run exited
  · exact fun _ _ run exited => QueryLoop.writtenOnce_iff run exited
  · exact fun _ _ run faultless exited =>
      ChildPool.writtenOnce_iff (directReliable _ _) run faultless exited
  · exact fun _ _ run faultless exited =>
      ChildPool.writtenOnce_iff (threadReliable 4 format) run faultless exited

open ChildPool (sampleFormat sampleQuery)

private theorem serial_exits (config : Config) :
    ∃ events state,
      (serial config sampleFormat 1 [sampleQuery]).Run
        (QueryLoop.start config _ [sampleQuery]) events state ∧ state.point = .exited :=
  QueryLoop.exists_run_to_exit (directLive _ _) (directReliable _ _) (directBounded _ _) config 1
    [sampleQuery]

/-- On a file, `serial.c` loses the result of a single short query. -/
theorem not_results_written_once_file :
    ∃ events state,
      (serial .file sampleFormat 1 [sampleQuery]).Run
        (QueryLoop.start .file _ [sampleQuery]) events state ∧
      state.point = .exited ∧
      ¬ ∀ index < [sampleQuery].length, QueryLoop.WrittenOnce 1 events state index := by
  obtain ⟨events, state, run, exited⟩ := serial_exits .file
  refine ⟨events, state, run, exited, fun once => ?_⟩
  rcases (QueryLoop.writtenOnce_iff run exited).mp once with line | none | divides
  · cases line
  · cases none
  · rw [QueryLoop.serialLines_of_exited run exited] at divides
    exact absurd divides (by decide)

theorem results_written_once_terminal :
    ∃ events state,
      (serial .terminal sampleFormat 1 [sampleQuery]).Run
        (QueryLoop.start .terminal _ [sampleQuery]) events state ∧
      state.point = .exited ∧
      ∀ index < [sampleQuery].length, QueryLoop.WrittenOnce 1 events state index := by
  obtain ⟨events, state, run, exited⟩ := serial_exits .terminal
  refine ⟨events, state, run, exited, ?_⟩
  exact ((results_written_once_iff .terminal sampleFormat 1 [sampleQuery]).1 events state run
    exited).mpr (.inl rfl)

end Ence360.Assignment
