import Ence360.Assignment.ChildPoolProperties

/-!
# The output of the pool

A run without faults prints the result of every query once. Whether the text gets
past the buffer of its child is a matter of its length and of the mode of the
stream.
-/

set_option autoImplicit false

namespace Ence360.Assignment.ChildPool

open Semantics Stdio IndexedList

variable {D : Type} {config : Config} {computation : Computation D}
variable {state next : State config computation} {action : Action computation}

/-- A result line at the moment a child prints it. -/
structure Printed where
  index : ℕ
  text : List Char
  /-- What the buffer of the child holds already. -/
  buffered : ℕ

def printedLine : State config computation × Action computation → Option Printed
  | (state, .print k) =>
      state.children[k]?.bind fun child =>
        match child.phase with
        | .computing memory =>
            (computation.line memory child.pid).map fun text =>
              { index := child.index, text, buffered := child.buffer.cells.length }
        | .printed | .zombie => none
  | _ => none

/-- The line leaves nothing behind in the buffer of its child. -/
def Printed.Fits (config : Config) (printed : Printed) : Prop :=
  config.mode = .lineBuffered ∨ config.capacity ∣ printed.buffered + printed.text.length

def printedFor (events : List (State config computation × Action computation)) (index : ℕ) :
    List Printed :=
  (events.filterMap printedLine).filter fun printed => printed.index = index

def forked (state : State config computation) : ℕ :=
  match state.point with
  | .fork index _ => index
  | .sigaction | .prompt | .semWait | .getValidInput | .forkError | .forkPost | .spawned _ | .wait
  | .waitPost _ | .waitPrint _ | .waitFlush | .exit | .exited | .failed => state.taken

def Child.runs (index : ℕ) (child : Child config computation) : ℕ :=
  match child.phase with
  | .computing _ => if child.index = index then 1 else 0
  | .printed | .zombie => 0

def runs (state : State config computation) (index : ℕ) : ℕ :=
  (state.children.map (Child.runs index)).sum

/-- What holds of the output of a run without faults. -/
structure OutputValid (events : List (State config computation × Action computation))
    (state : State config computation) : Prop where
  forking : ∀ index query, state.point = .fork index query → index + 1 = state.taken
  parentBuffer : ∀ index, textOf (.result index) state.buffer.cells = []
  childBuffer : ∀ child ∈ state.children, ∀ memory, child.phase = .computing memory →
    ∀ index, textOf (.result index) child.buffer.cells = []
  single : ∀ index, runs state index ≤ 1
  unforked : ∀ index, forked state ≤ index → runs state index = 0
  silent : ∀ index, forked state ≤ index ∨ 0 < runs state index →
    printedFor events index = [] ∧ textOf (.result index) state.written = []
  printed : ∀ index, index < forked state → runs state index = 0 →
    ∃ line, printedFor events index = [line] ∧
      (textOf (.result index) state.written = line.text ↔ line.Fits config)

variable {events : List (State config computation × Action computation)}

theorem outputValid_start (maxChildren : ℕ) (queries : List (Query D)) :
    OutputValid [] (start config computation maxChildren queries) where
  forking index query impossible := by cases impossible
  parentBuffer _ := rfl
  childBuffer child member := absurd member List.not_mem_nil
  single _ := Nat.zero_le 1
  unforked _ _ := rfl
  silent _ _ := ⟨rfl, rfl⟩
  printed index below := absurd below (Nat.not_lt_zero index)

private theorem printedFor_silent (silent : printedLine (state, action) = none) (index : ℕ) :
    printedFor (events ++ [(state, action)]) index = printedFor events index := by
  rw [printedFor, List.filterMap_append, List.filterMap_cons_none silent, List.filterMap_nil,
    List.append_nil, printedFor]

private theorem OutputValid.quiet (valid : OutputValid events state)
    (silent : printedLine (state, action) = none)
    (forking : ∀ index query, next.point = .fork index query → index + 1 = next.taken)
    (parentBuffer : ∀ index, textOf (.result index) next.buffer.cells = [])
    (childBuffer : ∀ child ∈ next.children, ∀ memory, child.phase = .computing memory →
      ∀ index, textOf (.result index) child.buffer.cells = [])
    (sameForked : forked next = forked state)
    (sameRuns : ∀ index, runs next index = runs state index)
    (sameText : ∀ index,
      textOf (.result index) next.written = textOf (.result index) state.written) :
    OutputValid (events ++ [(state, action)]) next where
  forking := forking
  parentBuffer := parentBuffer
  childBuffer := childBuffer
  single index := by
    rw [sameRuns]
    exact valid.single index
  unforked index := by
    rw [sameRuns, sameForked]
    exact valid.unforked index
  silent index := by
    rw [sameRuns, sameForked, printedFor_silent silent, sameText]
    exact valid.silent index
  printed index := by
    rw [sameRuns, sameForked, printedFor_silent silent, sameText]
    exact valid.printed index

private theorem textOf_parent_print (valid : OutputValid events state) {source : Source}
    (text : List Char) (other : ∀ index, source ≠ .result index) (index : ℕ) :
    textOf (.result index) (state.print source text).buffer.cells = [] ∧
      textOf (.result index) (state.print source text).written =
        textOf (.result index) state.written := by
  obtain ⟨written, buffer⟩ := textOf_print_eq_nil (valid.parentBuffer index)
    (textOf_tag_of_ne (other index) text)
  refine ⟨buffer, ?_⟩
  dsimp only [State.print]
  rw [textOf_append, written, List.append_nil]

private theorem OutputValid.parentPrint (valid : OutputValid events state) {source : Source}
    (text : List Char) (other : ∀ index, source ≠ .result index) (point : ParentPoint D)
    (before : forked state = state.taken)
    (after : ∀ index query, point ≠ .fork index query)
    (silent : printedLine (state, action) = none) :
    OutputValid (events ++ [(state, action)]) { state.print source text with point } := by
  refine valid.quiet silent (fun index query forking => absurd forking (after index query))
    (fun index => (textOf_parent_print valid text other index).1)
    (by simpa [State.print] using valid.childBuffer) ?_ (by simp [runs, State.print])
    (fun index => (textOf_parent_print valid text other index).2)
  rw [before]
  cases point with
  | fork index query => exact absurd rfl (after index query)
  | sigaction | prompt | semWait | getValidInput | forkError | forkPost | spawned | wait | waitPost
  | waitPrint | waitFlush | exit | exited | failed => simp [forked, State.print]

private theorem OutputValid.handlerPrint (valid : OutputValid events state) {source : Source}
    (text : List Char) (other : ∀ index, source ≠ .result index) (handler : HandlerPoint)
    (silent : printedLine (state, action) = none) :
    OutputValid (events ++ [(state, action)]) { state.print source text with handler } :=
  valid.quiet silent (by simpa [State.print] using valid.forking)
    (fun index => (textOf_parent_print valid text other index).1)
    (by simpa [State.print] using valid.childBuffer) (by simp [forked, State.print])
    (by simp [runs, State.print])
    (fun index => (textOf_parent_print valid text other index).2)

private theorem runs_set {k : ℕ} {child replaced : Child config computation}
    (found : state.children[k]? = some child) (index : ℕ)
    (same : replaced.runs index = child.runs index) :
    runs (state.setChild k replaced) index = runs state index := by
  rw [runs, State.setChild, map_set_of_eq found same, runs]

private theorem runs_remove {k : ℕ} {child : Child config computation}
    (found : state.children[k]? = some child) (zombie : child.phase = .zombie) (index : ℕ) :
    runs (state.removeChild k) index = runs state index := by
  have sum := @sum_map_eraseIdx _ _ _ _ _ _ (Child.runs index) found
  have none : child.runs index = 0 := by simp [Child.runs, zombie]
  rw [none, Nat.add_zero] at sum
  exact sum

private theorem OutputValid.afterFork {index : ℕ} {query : Query D}
    (valid : OutputValid events state) (point : state.point = .fork index query)
    (silent : printedLine (state, action) = none)
    (elsewhere : ∀ index query, next.point ≠ .fork index query)
    (parentBuffer : next.buffer = state.buffer)
    (childBuffer : ∀ child ∈ next.children, ∀ memory, child.phase = .computing memory →
      ∀ index, textOf (.result index) child.buffer.cells = [])
    (after : forked next = index + 1)
    (moreRuns : ∀ other, runs next other = runs state other + if index = other then 1 else 0)
    (written : next.written = state.written) :
    OutputValid (events ++ [(state, action)]) next := by
  have before : forked state = index := by simp [forked, point]
  have unforked := valid.unforked
  rw [before] at unforked
  refine ⟨fun index query forking => absurd forking (elsewhere index query),
    parentBuffer ▸ valid.parentBuffer, childBuffer, ?_, ?_, ?_, ?_⟩
  · intro other
    have single := valid.single other
    rw [moreRuns]
    split
    · next same =>
        have none := unforked other same.le
        omega
    · exact single
  · intro other above
    rw [after] at above
    rw [moreRuns, if_neg (by omega)]
    exact unforked other (by omega)
  · intro other pending
    rw [moreRuns, after] at pending
    rw [printedFor_silent silent, written]
    refine valid.silent other ?_
    rw [before]
    rcases pending with above | running
    · exact .inl (by omega)
    · split at running
      · next same => exact .inl same.le
      · exact .inr running
  · intro other below none
    rw [after] at below
    rw [moreRuns] at none
    rw [printedFor_silent silent, written]
    refine valid.printed other ?_ (by omega)
    rw [before]
    split at none <;> omega

private theorem OutputValid.afterPrint {line : Printed} (valid : OutputValid events state)
    (loud : printedLine (state, action) = some line)
    (point : next.point = state.point) (taken : next.taken = state.taken)
    (parentBuffer : next.buffer = state.buffer)
    (childBuffer : ∀ child ∈ next.children, ∀ memory, child.phase = .computing memory →
      ∀ index, textOf (.result index) child.buffer.cells = [])
    (fewerRuns : ∀ index,
      runs next index + (if line.index = index then 1 else 0) = runs state index)
    (others : ∀ index, line.index ≠ index →
      textOf (.result index) next.written = textOf (.result index) state.written)
    (own : textOf (.result line.index) state.written = [] →
      (textOf (.result line.index) next.written = line.text ↔ line.Fits config)) :
    OutputValid (events ++ [(state, action)]) next := by
  have printedFor_next (index : ℕ) : printedFor (events ++ [(state, action)]) index =
      printedFor events index ++ if line.index = index then [line] else [] := by
    rw [printedFor, List.filterMap_append, List.filterMap_cons_some loud, List.filterMap_nil,
      List.filter_append, printedFor]
    congr 1
    split <;> simp [*]
  have sameForked : forked next = forked state := by simp only [forked, point, taken]
  have ownRuns := fewerRuns line.index
  rw [if_pos rfl] at ownRuns
  have single := valid.single line.index
  have below : line.index < forked state := by
    by_contra above
    have none := valid.unforked line.index (by omega)
    omega
  obtain ⟨unprinted, unwritten⟩ := valid.silent line.index (.inr (by omega))
  refine ⟨by simpa only [point, taken] using valid.forking, parentBuffer ▸ valid.parentBuffer,
    childBuffer, ?_, ?_, ?_, ?_⟩
  · intro index
    have fewer := fewerRuns index
    have single := valid.single index
    omega
  · intro index above
    rw [sameForked] at above
    have fewer := fewerRuns index
    have none := valid.unforked index above
    omega
  · intro index pending
    rw [sameForked] at pending
    have different : line.index ≠ index := by
      rintro rfl
      omega
    have fewer := fewerRuns index
    rw [if_neg different] at fewer
    rw [printedFor_next, if_neg different, List.append_nil, others index different]
    exact valid.silent index (by omega)
  · intro index inside none
    rw [sameForked] at inside
    rw [printedFor_next]
    by_cases same : line.index = index
    · subst same
      rw [if_pos rfl, unprinted]
      exact ⟨line, rfl, own unwritten⟩
    · have fewer := fewerRuns index
      rw [if_neg same] at fewer ⊢
      rw [List.append_nil, others index same]
      exact valid.printed index inside (by omega)

private theorem OutputValid.childBuffer_set (valid : OutputValid events state) {k : ℕ}
    {replaced : Child config computation}
    (clean : ∀ memory, replaced.phase = .computing memory →
      ∀ index, textOf (.result index) replaced.buffer.cells = []) :
    ∀ child ∈ state.children.set k replaced, ∀ memory, child.phase = .computing memory →
      ∀ index, textOf (.result index) child.buffer.cells = [] := by
  intro child member memory computing
  rcases mem_set_cases member with rfl | old
  · exact clean memory computing
  · exact valid.childBuffer child old memory computing

theorem outputValid_of_step (valid : OutputValid events state)
    (healthy : EachMemory (fun memory => computation.failed memory = false) state)
    (faultless : action.fault = false) (stepped : step state action = some next) :
    OutputValid (events ++ [(state, action)]) next := by
  cases transition_of_step stepped with
  | sigaction idle point | semWait idle point _ | endOfInput idle point _ | forkError idle point
  | forkPost idle point | waitNone idle point _ | waitPost idle point | exit idle point =>
      exact valid.quiet rfl (by simp) valid.parentBuffer valid.childBuffer
        (by simp [forked, point]) (fun _ => rfl) (fun _ => rfl)
  | sigactionFails | forkFails | kill => cases faultless
  | prompt idle point | spawned idle point | waitPrint idle point =>
      exact valid.parentPrint _ (by simp) _ (by simp [forked, point]) (by simp) rfl
  | accept idle point remaining =>
      refine valid.quiet rfl ?_ valid.parentBuffer valid.childBuffer (by simp [forked, point])
        (fun _ => rfl) (fun _ => rfl)
      intro index query forking
      cases forking
      rfl
  | @fork index pid query idle point _ =>
      refine valid.afterFork point rfl (by simp) rfl ?_
        (valid.forking index query point).symm ?_ rfl
      · intro child member memory computing
        rcases List.mem_append.mp member with old | new
        · exact valid.childBuffer child old memory computing
        · rw [List.mem_singleton] at new
          subst new
          exact valid.parentBuffer
      · simp [runs, Child.runs]
  | reap idle point found zombie =>
      exact valid.quiet rfl (by simp) valid.parentBuffer
        (fun child member => valid.childBuffer child (List.mem_of_mem_eraseIdx member))
        (by simp [forked, point, State.removeChild]) (runs_remove found zombie) (fun _ => rfl)
  | waitFlush idle point =>
      refine valid.quiet rfl (by simp) (fun _ => rfl) valid.childBuffer (by simp [forked, point])
        (fun _ => rfl) fun index => ?_
      rw [textOf_append, valid.parentBuffer, List.append_nil]
  | deliver | handlerNone | handlerPost | handlerLeave =>
      exact valid.quiet rfl valid.forking valid.parentBuffer valid.childBuffer rfl (fun _ => rfl)
        (fun _ => rfl)
  | handlerReap handler found zombie =>
      exact valid.quiet rfl valid.forking valid.parentBuffer
        (fun child member => valid.childBuffer child (List.mem_of_mem_eraseIdx member)) rfl
        (runs_remove found zombie) (fun _ => rfl)
  | handlerPrint handler => exact valid.handlerPrint _ (by simp) _ rfl
  | compute found phase moved =>
      have clean := valid.childBuffer _ (List.mem_of_getElem? found) _ phase
      exact valid.quiet rfl valid.forking valid.parentBuffer
        (valid.childBuffer_set fun _ _ => clean) rfl
        (fun index => runs_set found index (by simp [Child.runs, phase])) (fun _ => rfl)
  | @print k child memory text found phase line =>
      have ends := computation.line_ends _ _ _ line
      have clean := valid.childBuffer child (List.mem_of_getElem? found) memory phase
      have loud : printedLine (state, .print k) = some
          { index := child.index, text, buffered := child.buffer.cells.length } := by
        simp [printedLine, found, phase, line]
      refine valid.afterPrint loud rfl rfl rfl ?_ ?_ ?_ ?_
      · refine valid.childBuffer_set fun _ computing => ?_
        cases computing
      · intro index
        have sum := @sum_map_set _ _ _ _ _ _ (Child.runs index)
          { child with
            phase := .printed
            buffer := (child.buffer.print (tag (.result child.index) text)).buffer } found
        simpa [Child.runs, phase, runs, State.setChild] using sum
      · intro index different
        have absent : textOf (Source.result index) (tag (.result child.index) text) = [] :=
          textOf_tag_of_ne (by simpa using different) text
        obtain ⟨written, _⟩ := textOf_print_eq_nil (clean index) absent
        rw [textOf_append, written, List.append_nil]
      · intro unwritten
        rw [textOf_append, unwritten, List.nil_append,
          textOf_written_eq_iff ends (clean child.index), print_empty_iff _ _ ends]
        rfl
  | childExit found phase =>
      refine valid.quiet rfl valid.forking valid.parentBuffer
        (valid.childBuffer_set fun _ computing => ?_) rfl
        (fun index => runs_set found index (by simp [Child.runs, phase])) (fun _ => rfl)
      cases computing
  | abort found phase failed =>
      rw [healthy _ (List.mem_of_getElem? found) _ phase] at failed
      cases failed

section Runs

variable (reliable : computation.Reliable) {maxChildren : ℕ} {queries : List (Query D)}

include reliable in
theorem outputValid_of_run
    (run : (system config computation maxChildren queries).Run
      (start config computation maxChildren queries) events state)
    (faultless : ∀ event ∈ events, event.2.fault = false) : OutputValid events state := by
  have both := run.history (fun _ action => action.fault = false)
    (fun events state => OutputValid events state ∧
      EachMemory (fun memory => computation.failed memory = false) state)
    (fun events state action next before faultless stepped => ?_) faultless
    ⟨outputValid_start maxChildren queries, fun child member => absurd member List.not_mem_nil⟩
  · exact both.1
  · obtain ⟨valid, healthy⟩ := before
    exact ⟨outputValid_of_step valid healthy faultless stepped,
      healthy_of_step reliable healthy faultless stepped⟩

theorem taken_add_remaining
    (reachable : (system config computation maxChildren queries).Reachable state) :
    state.taken + state.remaining.length = queries.length := by
  refine reachable.invariant
    (fun state => state.taken + state.remaining.length = queries.length) ?_ ?_
  · intro origin initial
    cases initial
    simp [start]
  · intro current action after before stepped
    cases transition_of_step stepped with
    | accept _ _ remaining =>
        rw [remaining, List.length_cons] at before
        simpa [Nat.add_assoc, Nat.add_comm 1] using before
    | prompt | spawned | waitPrint | handlerPrint => simpa [State.print] using before
    | sigaction | sigactionFails | semWait | endOfInput | fork | forkFails | forkError | forkPost
    | waitNone | reap | waitPost | waitFlush | exit | deliver | handlerNone | handlerReap
    | handlerPost | handlerLeave | compute | print | childExit | abort | kill => exact before

def InputRead (state : State config computation) : Prop :=
  match state.point with
  | .wait | .waitPost _ | .waitPrint _ | .waitFlush | .exit | .exited => state.remaining = []
  | .sigaction | .prompt | .semWait | .getValidInput | .fork _ _ | .forkError | .forkPost
  | .spawned _ | .failed => True

theorem inputRead_of_reachable
    (reachable : (system config computation maxChildren queries).Reachable state) :
    InputRead state := by
  refine reachable.invariant InputRead ?_ ?_
  · intro origin initial
    cases initial
    trivial
  · intro current action after before stepped
    cases transition_of_step stepped with
    | endOfInput _ _ remaining => exact remaining
    | sigaction | sigactionFails | semWait | accept | fork | forkFails | forkError | forkPost =>
        trivial
    | prompt | spawned => trivial
    | waitNone _ point _ | reap _ point _ _ | waitPost _ point | waitFlush _ point
    | exit _ point =>
        simp only [InputRead, point] at before
        exact before
    | waitPrint _ point =>
        simp only [InputRead, point] at before
        simpa [InputRead, State.print] using before
    | handlerPrint => simpa [InputRead, State.print] using before
    | deliver | handlerNone | handlerReap | handlerPost | handlerLeave | compute | print
    | childExit | abort | kill => exact before

/-- The query with this index is printed by one child, once, and its line is on
the descriptor once. -/
def WrittenOnce (events : List (State config computation × Action computation))
    (state : State config computation) (index : ℕ) : Prop :=
  ∃ line, printedFor events index = [line] ∧ textOf (.result index) state.written = line.text

include reliable in
/-- When the parent exits after a run without faults, every result is on the
descriptor once exactly when every result line fits. -/
theorem writtenOnce_iff
    (run : (system config computation maxChildren queries).Run
      (start config computation maxChildren queries) events state)
    (faultless : ∀ event ∈ events, event.2.fault = false) (exited : state.point = .exited) :
    (∀ index < queries.length, WrittenOnce events state index) ↔
      config.mode = .lineBuffered ∨
        ∀ line ∈ events.filterMap printedLine,
          config.capacity ∣ line.buffered + line.text.length := by
  have valid := outputValid_of_run reliable run faultless
  have reachable : (system config computation maxChildren queries).Reachable state :=
    ⟨_, _, rfl, run⟩
  have all : forked state = queries.length := by
    have read := inputRead_of_reachable reachable
    have total := taken_add_remaining reachable
    simp only [InputRead, exited] at read
    simp only [read, List.length_nil] at total
    simpa [forked, exited] using total
  have drained := (tracked_of_reachable reachable).drained
  simp only [Drained, exited] at drained
  have idle (index : ℕ) : runs state index = 0 := by simp [runs, drained]
  constructor
  · intro once
    by_cases mode : config.mode = .lineBuffered
    · exact .inl mode
    · refine .inr fun line member => ?_
      have own : line ∈ printedFor events line.index := List.mem_filter.mpr ⟨member, by simp⟩
      have below : line.index < forked state := by
        by_contra above
        rw [(valid.silent line.index (.inl (Nat.not_lt.mp above))).1] at own
        cases own
      obtain ⟨printed, single, written⟩ := once line.index (all ▸ below)
      obtain ⟨other, same, whole⟩ := valid.printed line.index below (idle line.index)
      rw [single] at own same
      rw [List.mem_singleton] at own
      subst own
      cases same
      exact (whole.mp written).resolve_left mode
  · intro condition index below
    obtain ⟨line, printed, whole⟩ := valid.printed index (all ▸ below) (idle index)
    refine ⟨line, printed, whole.mpr (condition.imp_right fun divides => divides line ?_)⟩
    have member : line ∈ printedFor events index := printed ▸ List.mem_singleton_self line
    exact (List.mem_filter.mp member).1

end Runs

end Ence360.Assignment.ChildPool
