import Mathlib.Data.List.Basic
import Mathlib.Data.Nat.ModEq
import Mathlib.Tactic.Common

/-!
# Buffered output streams

A stream collects characters and hands them to its descriptor when its buffer
is full and, in line-buffered mode, at every newline. Each character carries
the source it was printed for, which the program cannot observe.
-/

set_option autoImplicit false

namespace Ence360.Semantics.Stdio

inductive Mode where
  | lineBuffered
  | fullyBuffered
  deriving DecidableEq

structure Config where
  mode : Mode
  capacity : ℕ
  capacity_pos : 0 < capacity

/-- A terminal. -/
def Config.terminal : Config where
  mode := .lineBuffered
  capacity := 1024
  capacity_pos := by decide

/-- A file or a pipe. -/
def Config.file : Config where
  mode := .fullyBuffered
  capacity := 4096
  capacity_pos := by decide

structure Cell (Source : Type) where
  source : Source
  char : Char
  deriving DecidableEq

structure Buffer (config : Config) (Source : Type) where
  cells : List (Cell Source)
  room : cells.length < config.capacity

variable {config : Config} {Source : Type}

def Buffer.empty : Buffer config Source where
  cells := []
  room := config.capacity_pos

/-- What reaches the descriptor, and the buffer left behind. -/
structure Output (config : Config) (Source : Type) where
  written : List (Cell Source)
  buffer : Buffer config Source

def Buffer.putc (buffer : Buffer config Source) (cell : Cell Source) : Output config Source :=
  if full : buffer.cells.length + 1 = config.capacity then
    { written := buffer.cells ++ [cell], buffer := .empty }
  else if config.mode = .lineBuffered ∧ cell.char = '\n' then
    { written := buffer.cells ++ [cell], buffer := .empty }
  else
    { written := []
      buffer :=
        { cells := buffer.cells ++ [cell]
          room := by
            have room := buffer.room
            rw [List.length_append, List.length_singleton]
            omega } }

def Buffer.print (buffer : Buffer config Source) : List (Cell Source) → Output config Source
  | [] => { written := [], buffer }
  | cell :: rest =>
      let first := buffer.putc cell
      let last := first.buffer.print rest
      { written := first.written ++ last.written, buffer := last.buffer }

/-- Also what a normal termination of the process does. -/
def Buffer.flush (buffer : Buffer config Source) : Output config Source where
  written := buffer.cells
  buffer := .empty

def tag (source : Source) (text : List Char) : List (Cell Source) :=
  text.map fun char => { source, char }

theorem putc_conserves (buffer : Buffer config Source) (cell : Cell Source) :
    (buffer.putc cell).written ++ (buffer.putc cell).buffer.cells = buffer.cells ++ [cell] := by
  unfold Buffer.putc
  split
  · simp [Buffer.empty]
  · split
    · simp [Buffer.empty]
    · simp

/-- Printing reorders, drops and invents nothing. -/
theorem print_conserves (buffer : Buffer config Source) (cells : List (Cell Source)) :
    (buffer.print cells).written ++ (buffer.print cells).buffer.cells = buffer.cells ++ cells := by
  induction cells generalizing buffer with
  | nil => simp [Buffer.print]
  | cons cell rest ih =>
      simp only [Buffer.print]
      rw [List.append_assoc, ih, ← List.append_assoc, putc_conserves, List.append_assoc,
        List.singleton_append]

theorem print_append (buffer : Buffer config Source) (first last : List (Cell Source)) :
    (buffer.print (first ++ last)).buffer = ((buffer.print first).buffer.print last).buffer := by
  induction first generalizing buffer with
  | nil => rfl
  | cons cell rest ih => exact ih _

/-- In fully buffered mode the descriptor receives whole buffers only. -/
theorem capacity_dvd_written (full : config.mode = .fullyBuffered) (buffer : Buffer config Source)
    (cells : List (Cell Source)) : config.capacity ∣ (buffer.print cells).written.length := by
  induction cells generalizing buffer with
  | nil => exact Nat.dvd_zero _
  | cons cell rest ih =>
      simp only [Buffer.print, List.length_append]
      refine Nat.dvd_add ?_ (ih _)
      unfold Buffer.putc
      split
      · next filled => simp [filled]
      · rw [if_neg (by simp [full])]
        exact Nat.dvd_zero _

def EndsLine (text : List Char) : Prop :=
  ∃ body, text = body ++ ['\n']

theorem print_line_empty (line : config.mode = .lineBuffered) (buffer : Buffer config Source)
    (source : Source) {text : List Char} (ends : EndsLine text) :
    (buffer.print (tag source text)).buffer.cells = [] := by
  obtain ⟨body, rfl⟩ := ends
  rw [tag, List.map_append, print_append]
  simp only [List.map_singleton, Buffer.print, Buffer.putc]
  split
  · rfl
  · rw [if_pos (by simp [line])]
    rfl

theorem cells_eq_nil_iff_dvd (buffer : Buffer config Source) {written : List (Cell Source)}
    (chunks : config.capacity ∣ written.length) :
    buffer.cells = [] ↔ config.capacity ∣ (written ++ buffer.cells).length := by
  rw [List.length_append, (Nat.dvd_add_right chunks), ← List.length_eq_zero_iff]
  constructor
  · intro empty
    rw [empty]
    exact Nat.dvd_zero _
  · exact fun divides => Nat.eq_zero_of_dvd_of_lt divides buffer.room

/-- After a line is printed nothing stays behind exactly when the stream is line
buffered or the line just fills the buffer. -/
theorem print_empty_iff (buffer : Buffer config Source) (source : Source) {text : List Char}
    (ends : EndsLine text) :
    (buffer.print (tag source text)).buffer.cells = [] ↔
      config.mode = .lineBuffered ∨ config.capacity ∣ buffer.cells.length + text.length := by
  cases mode : config.mode with
  | lineBuffered => simp [print_line_empty mode buffer source ends]
  | fullyBuffered =>
      rw [cells_eq_nil_iff_dvd _ (capacity_dvd_written mode buffer (tag source text)),
        print_conserves, List.length_append, tag, List.length_map]
      simp

section TextOf

variable [DecidableEq Source]

def textOf (source : Source) (cells : List (Cell Source)) : List Char :=
  (cells.filter fun cell => cell.source = source).map fun cell => cell.char

@[simp] theorem textOf_append (source : Source) (first last : List (Cell Source)) :
    textOf source (first ++ last) = textOf source first ++ textOf source last := by
  simp [textOf]

@[simp] theorem textOf_nil (source : Source) : textOf source ([] : List (Cell Source)) = [] := rfl

@[simp] theorem textOf_tag_self (source : Source) (text : List Char) :
    textOf source (tag source text) = text := by
  simp [textOf, tag, List.filter_map, Function.comp_def]

theorem textOf_tag_of_ne {source other : Source} (different : other ≠ source) (text : List Char) :
    textOf source (tag other text) = [] := by
  simp [textOf, tag, different]

theorem textOf_print (buffer : Buffer config Source) (cells : List (Cell Source))
    (source : Source) :
    textOf source (buffer.print cells).written ++
      textOf source (buffer.print cells).buffer.cells =
        textOf source buffer.cells ++ textOf source cells := by
  rw [← textOf_append, print_conserves, textOf_append]

theorem textOf_print_eq_nil {buffer : Buffer config Source} {cells : List (Cell Source)}
    {source : Source} (unbuffered : textOf source buffer.cells = [])
    (absent : textOf source cells = []) :
    textOf source (buffer.print cells).written = [] ∧
      textOf source (buffer.print cells).buffer.cells = [] := by
  have moved := textOf_print buffer cells source
  rw [unbuffered, absent, List.append_nil] at moved
  exact List.append_eq_nil_iff.mp moved

private theorem textOf_suffix_ne_nil {source : Source} {first last before : List (Cell Source)}
    {text : List Char} (ends : EndsLine text) (split : first ++ last = before ++ tag source text)
    (some : last ≠ []) : textOf source last ≠ [] := by
  obtain ⟨body, rfl⟩ := ends
  obtain ⟨init, final, rfl⟩ : ∃ init final, last = init ++ [final] :=
    ⟨_, _, (List.dropLast_append_getLast some).symm⟩
  rw [tag, List.map_append, ← List.append_assoc, ← List.append_assoc] at split
  have final : final = { source, char := '\n' } := by
    simpa using (List.append_inj' split rfl).2
  subst final
  simp [textOf]

theorem textOf_rest_ne_nil (buffer : Buffer config Source) (source : Source) {text : List Char}
    (ends : EndsLine text) (rest : (buffer.print (tag source text)).buffer.cells ≠ []) :
    textOf source (buffer.print (tag source text)).buffer.cells ≠ [] :=
  textOf_suffix_ne_nil ends (print_conserves buffer (tag source text)) rest

/-- A line is wholly written exactly when nothing stays behind. -/
theorem textOf_written_eq_iff {buffer : Buffer config Source} {source : Source} {text : List Char}
    (ends : EndsLine text) (unbuffered : textOf source buffer.cells = []) :
    textOf source (buffer.print (tag source text)).written = text ↔
      (buffer.print (tag source text)).buffer.cells = [] := by
  have moved := textOf_print buffer (tag source text) source
  rw [unbuffered, textOf_tag_self, List.nil_append] at moved
  constructor
  · intro whole
    by_contra rest
    have left := textOf_rest_ne_nil buffer source ends rest
    rw [whole] at moved
    exact left (by simpa using moved)
  · intro empty
    rwa [empty, textOf_nil, List.append_nil] at moved

end TextOf

end Ence360.Semantics.Stdio
