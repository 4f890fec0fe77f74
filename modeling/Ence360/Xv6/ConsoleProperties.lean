import Ence360.Semantics.Refinement
import Ence360.Semantics.Ring
import Ence360.Xv6.Console

/-!
# The console is a line editor

The buffer with its three counters, which may wrap around, stands for the bytes that
may be read and the line that is being typed.
-/

set_option autoImplicit false

namespace Ence360.Xv6.Console

open Semantics Semantics.Ring

section Editors

/-- A line editor: the bytes that may be read, and the line that is being typed. -/
structure Editor where
  ready : List UInt8
  line : List UInt8

namespace Editor

def room (editor : Editor) : Bool :=
  editor.ready.length + editor.line.length < 128

def enter (editor : Editor) (c : UInt8) : Editor :=
  let line := editor.line ++ [c]
  if c = newline ∨ c = ctrlD ∨ editor.ready.length + line.length = 128 then
    ⟨editor.ready ++ line, []⟩
  else ⟨editor.ready, line⟩

def key (editor : Editor) (c : UInt8) : Editor :=
  if c = ctrlP then editor
  else if c = ctrlU then { editor with line := [] }
  else if c = backspace ∨ c = delete then { editor with line := editor.line.dropLast }
  else if c ≠ 0 ∧ editor.room then editor.enter (if c = ret then newline else c)
  else editor

def read (target : ℕ) : ℕ → Editor → List UInt8 → Editor × List UInt8 × Bool
  | 0, editor, dst => (editor, dst, true)
  | _ + 1, ⟨[], line⟩, dst => (⟨[], line⟩, dst, false)
  | n + 1, ⟨c :: ready, line⟩, dst =>
      if c = ctrlD then
        if n + 1 < target then (⟨c :: ready, line⟩, dst, true) else (⟨ready, line⟩, dst, true)
      else if c = newline then (⟨ready, line⟩, dst ++ [c], true)
      else read target n ⟨ready, line⟩ (dst ++ [c])

end Editor

end Editors

section Keys

structure Related (first : ℕ) (input : Input) (editor : Editor) : Prop where
  holds : Ring.Holds 128 input.buf first (editor.ready ++ editor.line)
  r : input.r = counter first
  w : input.w = counter (first + editor.ready.length)
  e : input.e = counter (first + editor.ready.length + editor.line.length)
  typed : newline ∉ editor.line

variable {first : ℕ} {input : Input} {editor : Editor}

theorem index (position : ℕ) : (counter position % inputBuf).toNat = position % 128 :=
  @counter_mod 128 position (by decide) (by decide)

theorem Related.fits (related : Related first input editor) :
    editor.ready.length + editor.line.length ≤ 128 := by
  have fits := related.holds.fits
  rwa [List.length_append] at fits

/-- One byte of the line is taken back. -/
theorem Related.back {line : List UInt8} {c : UInt8} {ready : List UInt8}
    (related : Related first input ⟨ready, line ++ [c]⟩) :
    input.e ≠ input.w ∧ input.buf ((input.e - 1) % inputBuf).toNat = c ∧
      Related first { input with e := input.e - 1 } ⟨ready, line⟩ := by
  have fits := related.fits
  have place := related.e
  dsimp only at fits place
  rw [List.length_append, List.length_singleton] at fits place
  rw [← Nat.add_assoc] at place
  refine ⟨?_, ?_, ?_⟩
  · rw [place, related.w]
    dsimp only
    intro same
    have equal := (counter_inj (by omega) (by omega)).mp same.symm
    omega
  · rw [place, counter_pred, index]
    have stored := related.holds.stored (ready.length + line.length) c
    rw [← Nat.add_assoc] at stored
    refine stored ?_
    simp
  · have holds := related.holds
    dsimp only at holds
    rw [← List.append_assoc] at holds
    refine ⟨holds.of_append, related.r, related.w, ?_, ?_⟩
    · show input.e - 1 = _
      rw [place, counter_pred]
    · exact fun member => related.typed (List.mem_append_left _ member)

theorem Related.empty_line {ready : List UInt8} (related : Related first input ⟨ready, []⟩) :
    input.e = input.w := by
  rw [related.e, related.w]
  rfl

theorem Related.killLine {line ready : List UInt8} (related : Related first input ⟨ready, line⟩)
    {turns : ℕ} (enough : line.length ≤ turns) :
    Related first (killLine turns input) ⟨ready, []⟩ := by
  induction turns generalizing line input with
  | zero =>
      rw [List.length_eq_zero_iff.mp (Nat.le_zero.mp enough)] at related
      exact related
  | succ turns ih =>
      rw [Console.killLine]
      rcases line.eq_nil_or_concat' with rfl | ⟨line, c, rfl⟩
      · rw [if_neg fun goesOn => goesOn.1 related.empty_line]
        exact related
      · obtain ⟨typed, last, back⟩ := related.back
        have other : c ≠ newline := fun same => related.typed (by simp [same])
        rw [if_pos ⟨typed, by rw [last]; exact other⟩]
        rw [List.length_append, List.length_singleton] at enough
        exact ih back (by omega)

/-- A byte is added to the line, which may be finished by it. -/
theorem Related.enter (related : Related first input editor)
    (room : editor.ready.length + editor.line.length < 128) (c : UInt8) :
    Related first
      (if c = newline ∨ c = ctrlD ∨ input.e + 1 = input.r + inputBuf then
        ⟨Function.update input.buf (input.e % inputBuf).toNat c, input.r, input.e + 1, input.e + 1⟩
      else ⟨Function.update input.buf (input.e % inputBuf).toNat c, input.r, input.w, input.e + 1⟩)
      (editor.enter c) := by
  have holds := related.holds.push (by rwa [List.length_append]) c
  rw [List.length_append, ← Nat.add_assoc, ← index, ← related.e, List.append_assoc] at holds
  have next : input.e + 1 =
      counter (first + editor.ready.length + (editor.line ++ [c]).length) := by
    rw [related.e, counter_succ, List.length_append, List.length_singleton, Nat.add_assoc]
  have full : input.e + 1 = input.r + inputBuf ↔
      editor.ready.length + (editor.line ++ [c]).length = 128 := by
    rw [next, related.r, show inputBuf = counter 128 from rfl, counter_add,
      List.length_append, List.length_singleton]
    constructor
    · intro same
      have equal := (counter_inj (by omega) (by omega)).mp same
      omega
    · intro same
      exact congrArg counter (by omega)
  unfold Editor.enter
  dsimp only
  by_cases finished : c = newline ∨ c = ctrlD ∨
      editor.ready.length + (editor.line ++ [c]).length = 128
  · have machine : c = newline ∨ c = ctrlD ∨ input.e + 1 = input.r + inputBuf := by
      rwa [full]
    rw [if_pos finished, if_pos machine]
    refine ⟨?_, related.r, ?_, ?_, List.not_mem_nil⟩
    · dsimp only
      rw [List.append_nil]
      exact holds
    · dsimp only
      rw [next, @List.length_append _ editor.ready, Nat.add_assoc]
    · dsimp only
      rw [next, @List.length_append _ editor.ready, List.length_nil, Nat.add_assoc]
      rfl
  · have machine : ¬ (c = newline ∨ c = ctrlD ∨ input.e + 1 = input.r + inputBuf) := by
      rwa [full]
    rw [if_neg finished, if_neg machine]
    refine ⟨holds, related.r, related.w, next, ?_⟩
    intro member
    rcases List.mem_append.mp member with typed | last
    · exact related.typed typed
    · exact finished (.inl (List.mem_singleton.mp last).symm)

theorem Related.room_iff (related : Related first input editor) :
    input.e - input.r < inputBuf ↔ editor.room = true := by
  have fits := related.fits
  rw [Editor.room, decide_eq_true_eq, UInt32.lt_iff_toNat_lt, related.e, related.r, Nat.add_assoc,
    counter_sub (by omega)]
  rfl

/-- One key. -/
theorem Related.key (related : Related first input editor) (c : UInt8) :
    Related first (consoleintr input c) (editor.key c) := by
  obtain ⟨ready, line⟩ := editor
  have fits := related.fits
  dsimp only at fits
  unfold consoleintr Editor.key
  split
  · exact related
  · split
    · refine related.killLine ?_
      rw [related.e, related.w, counter_sub (by dsimp only; omega)]
    · split
      · rcases line.eq_nil_or_concat' with rfl | ⟨line, last, rfl⟩
        · rw [if_neg fun typed => typed related.empty_line]
          exact related
        · obtain ⟨typed, -, back⟩ := related.back
          rw [if_pos typed]
          dsimp only
          rw [List.dropLast_concat]
          exact back
      · by_cases accepted : c ≠ 0 ∧ input.e - input.r < inputBuf
        · have room := related.room_iff.mp accepted.2
          have typing : c ≠ 0 ∧ Editor.room ⟨ready, line⟩ = true := ⟨accepted.1, room⟩
          rw [if_pos accepted, if_pos typing]
          exact related.enter (of_decide_eq_true room) _
        · rw [if_neg accepted, if_neg fun both => accepted ⟨both.1, related.room_iff.mpr both.2⟩]
          exact related

/-- One pass of a call of `consoleread`. -/
theorem Related.read {target n : ℕ} {dst : List UInt8} (related : Related first input editor) :
    (consoleread target n input dst).2 = (editor.read target n dst).2 ∧
      ∃ first, Related first (consoleread target n input dst).1 (editor.read target n dst).1 := by
  induction n generalizing first input editor dst with
  | zero => exact ⟨rfl, first, related⟩
  | succ n ih =>
      obtain ⟨ready, line⟩ := editor
      have fits := related.fits
      have read := related.r
      have written := related.w
      dsimp only at fits written
      rw [consoleread]
      cases ready with
      | nil =>
          have empty : input.r = input.w := read.trans written.symm
          rw [if_pos empty]
          exact ⟨rfl, first, related⟩
      | cons c ready =>
          rw [List.length_cons] at fits written
          have filled : input.r ≠ input.w := by
            rw [read, written]
            intro same
            have equal := (counter_inj (by omega) (by omega)).mp same
            omega
          have front : input.buf (input.r % inputBuf).toNat = c := by
            rw [read, index]
            exact related.holds.front
          have popped : Related (first + 1) { input with r := input.r + 1 } ⟨ready, line⟩ := by
            refine ⟨related.holds.pop, ?_, ?_, ?_, related.typed⟩
            · dsimp only
              rw [read, counter_succ]
            · dsimp only
              rw [written]
              exact congrArg counter (by omega)
            · dsimp only
              rw [related.e]
              exact congrArg counter (by dsimp only [List.length_cons]; omega)
          rw [if_neg filled, front, Editor.read]
          dsimp only
          split
          · split
            · refine ⟨rfl, first, ?_⟩
              have same : input.r + 1 - 1 = input.r := UInt32.add_sub_cancel _ _
              dsimp only
              rw [same]
              exact related
            · exact ⟨rfl, first + 1, popped⟩
          · split
            · exact ⟨rfl, first + 1, popped⟩
            · exact ih popped

end Keys

section Runs

/-- The editor and the answers so far. -/
structure Desk where
  editor : Editor
  answers : List (List UInt8 × Bool)

def spec : System Desk Action where
  initial desk := desk = ⟨⟨[], []⟩, []⟩
  step desk action :=
    match action with
    | .key c => some { desk with editor := desk.editor.key c }
    | .read target dst =>
        let (editor, answer) := desk.editor.read target (target - dst.length) dst
        some ⟨editor, desk.answers ++ [answer]⟩

def consoleRefinement : Refinement system spec where
  related state desk := (∃ first, Related first state.input desk.editor) ∧
    state.answers = desk.answers
  visible _ action := [action]
  step := by
    rintro ⟨input, answers⟩ ⟨editor, _⟩ action next ⟨⟨first, related⟩, rfl⟩ stepped
    cases action with
    | key c =>
        obtain rfl := Option.some.inj stepped
        exact ⟨_, rfl, ⟨first, related.key c⟩, rfl⟩
    | read target dst =>
        obtain rfl := Option.some.inj stepped
        obtain ⟨same, later⟩ :=
          @Related.read first input editor target (target - dst.length) dst related
        exact ⟨_, rfl, later, congrArg (fun answer => answers ++ [answer]) same⟩

/-- Every run of keys and reads gives the answers of the line editor. -/
theorem console_refines {start finish : State} {events : List (State × Action)}
    (initial : system.initial start) (run : system.Run start events finish) :
    ∃ editor, spec.execute ⟨⟨[], []⟩, []⟩ (events.map Prod.snd) = some ⟨editor, finish.answers⟩ ∧
      (∃ first, Related first finish.input editor) := by
  obtain ⟨r, w, e, answers⟩ := initial
  have begins : Related 0 start.input ⟨[], []⟩ :=
    ⟨.nil _ _ _, r, w, e, List.not_mem_nil⟩
  obtain ⟨desk, executed, related, same⟩ :=
    @Refinement.run _ _ _ _ _ _ consoleRefinement start finish events ⟨⟨[], []⟩, []⟩ run
      ⟨⟨0, begins⟩, answers⟩
  have trace : consoleRefinement.trace events = events.map Prod.snd :=
    List.map_eq_flatMap.symm
  rw [trace] at executed
  refine ⟨desk.editor, ?_, related⟩
  rw [executed, same]

/-- `a` is typed, taken back and replaced by `b`. -/
theorem console_refines_correction : ∃ events finish editor,
    system.Run ⟨⟨fun _ => 0, 0, 0, 0⟩, []⟩ events finish ∧
      events.map Prod.snd = [.key 97, .key 127, .key 98, .key 13, .read 9 []] ∧
      finish.answers = [([98, 10], true)] ∧
      spec.execute ⟨⟨[], []⟩, []⟩ (events.map Prod.snd) = some ⟨editor, finish.answers⟩ := by
  obtain ⟨finish, executed, answers⟩ : ∃ finish,
      system.execute ⟨⟨fun _ => 0, 0, 0, 0⟩, []⟩
        [.key 97, .key 127, .key 98, .key 13, .read 9 []] = some finish ∧
      finish.answers = [([98, 10], true)] := ⟨_, rfl, rfl⟩
  obtain ⟨events, actions, run⟩ := System.run_of_execute executed
  obtain ⟨editor, follows, -⟩ := console_refines ⟨rfl, rfl, rfl, rfl⟩ run
  exact ⟨events, finish, editor, run, actions, answers, follows⟩

end Runs

end Ence360.Xv6.Console
