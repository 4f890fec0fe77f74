import Ence360.Assignment.QueryLoopProperties
import Mathlib.Algebra.BigOperators.Group.List.Basic

/-!
# The output of the loop over the queries

What is on the descriptor is the text printed so far, less what is in the buffer;
`_exit` leaves the buffer unwritten.
-/

set_option autoImplicit false

namespace Ence360.Assignment

open Semantics Stdio

variable {D : Type} {config : Config} {computation : Computation D}

namespace QueryLoop

def printedLine (pid : ℕ) : State config computation × Action computation → Option (List Char)
  | (state, .main) =>
      match state.point with
      | .computing => computation.line state.memory pid
      | .prompt | .getValidInput | .exited | .failed => none
  | (_, .compute _) => none

variable {pid : ℕ} {state next : State config computation}
  {events : List (State config computation × Action computation)} {action : Action computation}

/-- How the stream relates to the `lines` printed so far. -/
structure Streamed (lines : List (List Char)) (state : State config computation) : Prop where
  fresh : state.point = .prompt → lines = []
  counted : state.index = lines.length
  texts : ∀ index, textOf (.result index) (state.written ++ state.buffer.cells) =
    (lines[index]?).getD []
  length : (state.written ++ state.buffer.cells).length =
    (if state.point = .prompt then 0 else promptLine.length) + (lines.map List.length).sum
  chunks : config.mode = .fullyBuffered → state.point ≠ .failed →
    config.capacity ∣ state.written.length
  flushed : config.mode = .lineBuffered → state.buffer.cells = []
  last : lines ≠ [] → state.buffer.cells ≠ [] →
    textOf (.result (lines.length - 1)) state.buffer.cells ≠ []

theorem streamed_start (queries : List (Query D)) :
    Streamed [] (start config computation queries) where
  fresh _ := rfl
  counted := rfl
  texts _ := rfl
  length := rfl
  chunks _ _ := Nat.dvd_zero _
  flushed _ := rfl
  last none := absurd rfl none

private theorem stream_print (state : State config computation) (source : Source)
    (text : List Char) :
    (state.print source text).written ++ (state.print source text).buffer.cells =
      state.written ++ state.buffer.cells ++ tag source text := by
  dsimp only [State.print]
  rw [List.append_assoc, print_conserves, List.append_assoc]

private theorem chunks_print {source : Source} {text : List Char}
    (full : config.mode = .fullyBuffered) (chunks : config.capacity ∣ state.written.length) :
    config.capacity ∣ (state.print source text).written.length := by
  dsimp only [State.print]
  rw [List.length_append]
  exact Nat.dvd_add chunks (capacity_dvd_written full _ _)

private theorem Streamed.prompt {lines : List (List Char)} (streamed : Streamed lines state)
    (point : state.point = .prompt) :
    Streamed lines { state.print .prompt promptLine with point := .getValidInput } where
  fresh impossible := by cases impossible
  counted := streamed.counted
  texts index := by
    rw [stream_print, textOf_append, textOf_tag_of_ne (by simp), List.append_nil]
    exact streamed.texts index
  length := by
    have length := streamed.length
    rw [if_pos point] at length
    rw [stream_print, List.length_append, length]
    simp [tag, Nat.add_comm]
  chunks full _ := chunks_print full (streamed.chunks full (by simp [point]))
  flushed line := print_line_empty line _ _ ⟨_, rfl⟩
  last some := absurd (streamed.fresh point) some

private theorem getD_concat (lines : List (List Char)) (text : List Char) (index : ℕ) :
    ((lines ++ [text])[index]?).getD [] =
      (lines[index]?).getD [] ++ if index = lines.length then text else [] := by
  rcases lt_trichotomy index lines.length with below | rfl | above
  · rw [List.getElem?_append_left below, if_neg below.ne, List.append_nil]
  · simp
  · rw [List.getElem?_eq_none (by simp; omega), List.getElem?_eq_none (by omega),
      if_neg above.ne']
    rfl

private theorem Streamed.print {lines : List (List Char)} {text : List Char}
    (streamed : Streamed lines state) (point : state.point = .computing) (ends : EndsLine text) :
    Streamed (lines ++ [text])
      { state.print (.result state.index) text with
        point := .getValidInput
        index := state.index + 1 } where
  fresh impossible := by cases impossible
  counted := by simp [streamed.counted]
  texts index := by
    rw [stream_print, textOf_append, streamed.texts, getD_concat, ← streamed.counted]
    congr 1
    split
    · next same => rw [same, textOf_tag_self]
    · next different => exact textOf_tag_of_ne (by simpa using Ne.symm different) text
  length := by
    have length := streamed.length
    rw [if_neg (by simp [point])] at length
    rw [stream_print, List.length_append, length]
    simp [tag, Nat.add_assoc]
  chunks full _ := chunks_print full (streamed.chunks full (by simp [point]))
  flushed line := print_line_empty line _ _ ends
  last _ rest := by
    have tail := textOf_rest_ne_nil state.buffer (.result state.index) ends rest
    simpa [State.print, ← streamed.counted] using tail

private theorem Streamed.silent {lines : List (List Char)} (streamed : Streamed lines state)
    (before : state.point ≠ .prompt ∧ state.point ≠ .failed) (after : next.point ≠ .prompt)
    (index : next.index = state.index) (buffer : next.buffer = state.buffer)
    (written : next.written = state.written) : Streamed lines next where
  fresh impossible := absurd impossible after
  counted := index.trans streamed.counted
  texts := by
    rw [written, buffer]
    exact streamed.texts
  length := by
    have length := streamed.length
    rw [if_neg before.1] at length
    rw [written, buffer, if_neg after, length]
  chunks full _ := written ▸ streamed.chunks full before.2
  flushed := buffer ▸ streamed.flushed
  last := buffer ▸ streamed.last

private theorem Streamed.aborted {lines : List (List Char)} (streamed : Streamed lines state)
    (point : state.point = .computing) :
    Streamed lines
      ({ state with
        point := .failed
        buffer := .empty
        written := state.written ++ state.buffer.cells } : State config computation) where
  fresh impossible := by cases impossible
  counted := streamed.counted
  texts := by simpa [Buffer.empty] using streamed.texts
  length := by simpa [Buffer.empty, point] using streamed.length
  chunks _ alive := absurd rfl alive
  flushed _ := rfl
  last _ rest := absurd rfl rest

theorem streamed_of_step
    (streamed : Streamed (events.filterMap (printedLine pid)) state)
    (stepped : step pid state action = some next) :
    Streamed ((events ++ [(state, action)]).filterMap (printedLine pid)) next := by
  rw [List.filterMap_append]
  cases step_eq_some_iff.mp stepped with
  | prompt point =>
      rw [List.filterMap_cons_none (by simp [printedLine, point]), List.filterMap_nil,
        List.append_nil]
      exact streamed.prompt point
  | exit point _ | accept point _ =>
      rw [List.filterMap_cons_none (by simp [printedLine, point]), List.filterMap_nil,
        List.append_nil]
      exact streamed.silent (by simp [point]) (by simp) rfl rfl rfl
  | print point line =>
      rw [List.filterMap_cons_some (show printedLine pid (state, .main) = some _ by
        simpa [printedLine, point] using line)]
      exact streamed.print point (computation.line_ends _ _ _ line)
  | abort point line _ =>
      rw [List.filterMap_cons_none (by simpa [printedLine, point] using line),
        List.filterMap_nil, List.append_nil]
      exact streamed.aborted point
  | compute point moved =>
      rw [List.filterMap_cons_none rfl, List.filterMap_nil, List.append_nil]
      exact streamed.silent (by simp [point]) (by simp [point]) rfl rfl rfl

theorem streamed_of_run {queries : List (Query D)}
    (run : (system config computation pid queries).Run (start config computation queries)
      events state) : Streamed (events.filterMap (printedLine pid)) state :=
  run.history (fun _ _ => True)
    (fun events state => Streamed (events.filterMap (printedLine pid)) state)
    (fun _ _ _ _ streamed _ stepped => streamed_of_step streamed stepped) (fun _ _ => trivial)
    (streamed_start queries)

def outstanding (state : State config computation) : ℕ :=
  state.remaining.length +
    match state.point with
    | .computing | .failed => 1
    | .prompt | .getValidInput | .exited => 0

theorem outstanding_of_step (stepped : step pid state action = some next) :
    next.index + outstanding next = state.index + outstanding state := by
  cases step_eq_some_iff.mp stepped with
  | prompt point | exit point _ | abort point _ _ | compute point _ =>
      simp [outstanding, point, State.print]
  | accept point remaining => simp [outstanding, point, remaining]
  | print point _ =>
      simp only [outstanding, point, State.print]
      omega

theorem length_lines_of_exited {queries : List (Query D)}
    (run : (system config computation pid queries).Run (start config computation queries)
      events state) (exited : state.point = .exited) :
    (events.filterMap (printedLine pid)).length = queries.length := by
  have counted := (streamed_of_run run).counted
  have remaining := remaining_of_exited ⟨_, _, rfl, run⟩ exited
  have total : state.index + outstanding state = queries.length :=
    run.preserves (fun state => state.index + outstanding state = queries.length)
      (fun _ _ _ before stepped => (outstanding_of_step stepped).trans before)
      (by simp [start, outstanding])
  simp only [outstanding, exited, remaining, List.length_nil] at total
  omega

/-- The result line of the query with this index is printed and is on the
descriptor once. -/
def WrittenOnce (pid : ℕ) (events : List (State config computation × Action computation))
    (state : State config computation) (index : ℕ) : Prop :=
  (events.filterMap (printedLine pid))[index]? = some (textOf (.result index) state.written)

private theorem writtenOnce_of_empty {index : ℕ}
    (streamed : Streamed (events.filterMap (printedLine pid)) state)
    (empty : state.buffer.cells = [])
    (below : index < (events.filterMap (printedLine pid)).length) :
    WrittenOnce pid events state index := by
  have text := streamed.texts index
  rw [empty, List.append_nil, List.getElem?_eq_getElem below] at text
  rw [WrittenOnce, text, List.getElem?_eq_getElem below]
  rfl

private theorem empty_of_writtenOnce
    (streamed : Streamed (events.filterMap (printedLine pid)) state)
    (some : events.filterMap (printedLine pid) ≠ [])
    (once : WrittenOnce pid events state ((events.filterMap (printedLine pid)).length - 1)) :
    state.buffer.cells = [] := by
  by_contra rest
  have text := streamed.texts ((events.filterMap (printedLine pid)).length - 1)
  rw [WrittenOnce] at once
  rw [once, textOf_append] at text
  exact streamed.last some rest (by simpa using text)

/-- What the exit loses is the end of the stream, and that is the end of the last
result line. -/
theorem writtenOnce_iff {queries : List (Query D)}
    (run : (system config computation pid queries).Run (start config computation queries)
      events state) (exited : state.point = .exited) :
    (∀ index < queries.length, WrittenOnce pid events state index) ↔
      config.mode = .lineBuffered ∨ queries = [] ∨
        config.capacity ∣ promptLine.length +
          ((events.filterMap (printedLine pid)).map List.length).sum := by
  have streamed := streamed_of_run run
  have count := length_lines_of_exited run exited
  have length := streamed.length
  rw [if_neg (by simp [exited])] at length
  rw [← length]
  constructor
  · intro once
    cases mode : config.mode with
    | lineBuffered => exact .inl rfl
    | fullyBuffered =>
        by_cases none : queries = []
        · exact .inr (.inl none)
        · have positive : 0 < queries.length := List.length_pos_iff.mpr none
          have empty := empty_of_writtenOnce streamed (List.length_pos_iff.mp (count ▸ positive))
            (once _ (by omega))
          exact .inr (.inr ((cells_eq_nil_iff_dvd state.buffer
            (streamed.chunks mode (by simp [exited]))).mp empty))
  · intro condition index below
    refine writtenOnce_of_empty streamed ?_ (count ▸ below)
    cases mode : config.mode with
    | lineBuffered => exact streamed.flushed mode
    | fullyBuffered =>
        rcases condition with line | none | divides
        · rw [mode] at line
          cases line
        · simp [none] at below
        · exact (cells_eq_nil_iff_dvd state.buffer
            (streamed.chunks mode (by simp [exited]))).mpr divides

end QueryLoop

end Ence360.Assignment
