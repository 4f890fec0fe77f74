import Ence360.Processes.PipeToUpper
import Mathlib

/-!
# When the message arrives

For a message of one byte every transfer is forced, and the two processes go
through six phases. Every other length has a run that fails: nothing is ever
sent for the empty message, and a longer one may be cut by a short read.
-/

set_option autoImplicit false

namespace Ence360.Processes.PipeToUpper

open Ence360.Semantics

/-- No interleaving ends with both processes blocked, and a completed run has
given the parent the upper-cased argument. -/
def Delivers (platform : Platform) (argument : List Byte) : Prop :=
  ∀ state, (system platform argument).Reachable state →
    ¬ (state.parent.terminated = false ∧ state.child.terminated = false ∧
      (system platform argument).Stuck state) ∧
    (state.parent.terminated = true → state.child.terminated = true →
      state.received = argument.map toupper)

theorem toupper_ne_zero {byte : Byte} (nonzero : byte ≠ 0) : toupper byte ≠ 0 := by
  unfold toupper
  split
  · next lower =>
      intro zero
      have low : 97 ≤ byte.toNat := UInt8.le_iff_toNat_le.mp lower.1
      have shifted := congrArg UInt8.toNat zero
      rw [UInt8.toNat_sub_of_le _ _ (UInt8.le_iff_toNat_le.mpr (by simp; omega))] at shifted
      simp at shifted
      omega
  · exact nonzero

def oneByte (platform : Platform) (byte : Byte) : List Byte :=
  byte :: List.replicate (platform.bufsiz - 1) 0

theorem oneByte_eq (platform : Platform) (byte : Byte) :
    [byte] ++ (List.replicate platform.bufsiz 0).drop 1 = oneByte platform byte := by
  simp [oneByte]

theorem text_oneByte {platform : Platform} {byte : Byte} (nonzero : byte ≠ 0) :
    text (oneByte platform byte) = [byte] := by
  have size : platform.bufsiz - 1 = platform.bufsiz - 2 + 1 := by
    have := platform.bufsiz_ge
    omega
  simp [text, oneByte, nonzero, size, List.replicate_succ]

theorem upperLoop_oneByte {platform : Platform} {byte : Byte} (nonzero : byte ≠ 0) :
    upperLoop (oneByte platform byte) = some (oneByte platform (toupper byte)) := by
  have size : platform.bufsiz - 1 = platform.bufsiz - 2 + 1 := by
    have := platform.bufsiz_ge
    omega
  simp [upperLoop, oneByte, nonzero, size, List.replicate_succ]

section OneByte

inductive ParentSending (byte : Byte) : ParentPoint → Ends → Prop where
  | closingOutp : ParentSending byte .closeParentToChildOutp ⟨true, true, true, true⟩
  | closingInp : ParentSending byte .closeChildToParentInp ⟨true, false, true, true⟩
  | writing : ParentSending byte (.write [byte]) ⟨true, false, false, true⟩

inductive ParentSent : ParentPoint → Ends → Prop where
  | written : ParentSent (.write []) ⟨true, false, false, true⟩
  | reading : ParentSent .read ⟨true, false, false, true⟩

inductive ParentClosing : ParentPoint → Ends → Prop where
  | closingInp : ParentClosing .closeParentToChildInp ⟨true, false, false, true⟩
  | closingOutp : ParentClosing .closeChildToParentOutp ⟨false, false, false, true⟩
  | exited : ParentClosing .exited ⟨false, false, false, false⟩

inductive ChildReading : ChildPoint → Ends → Prop where
  | closingInp : ChildReading .closeParentToChildInp ⟨true, true, true, true⟩
  | closingOutp : ChildReading .closeChildToParentOutp ⟨false, true, true, true⟩
  | reading : ChildReading .read ⟨false, true, true, false⟩

inductive ChildWorking (platform : Platform) (byte : Byte) : ChildPoint → List Byte → Prop where
  | upper : ChildWorking platform byte .upper (oneByte platform byte)
  | writing : ChildWorking platform byte (.write [toupper byte] [toupper byte])
      (oneByte platform (toupper byte))

inductive ChildReplied (byte : Byte) : ChildPoint → Ends → Prop where
  | written : ChildReplied byte (.write [toupper byte] []) ⟨false, true, true, false⟩
  | closingOutp : ChildReplied byte .closeParentToChildOutp ⟨false, true, true, false⟩
  | closingInp : ChildReplied byte .closeChildToParentInp ⟨false, false, true, false⟩
  | exited : ChildReplied byte .exited ⟨false, false, false, false⟩

inductive Phase (platform : Platform) (byte : Byte) : State → Prop where
  | sending {parent : ParentPoint} {child : ChildPoint} {parentEnds childEnds : Ends} :
      ParentSending byte parent parentEnds → ChildReading child childEnds →
      Phase platform byte ⟨parent, child, parentEnds, childEnds, [], [],
        List.replicate platform.bufsiz 0, []⟩
  | sent {parent : ParentPoint} {child : ChildPoint} {parentEnds childEnds : Ends} :
      ParentSent parent parentEnds → ChildReading child childEnds →
      Phase platform byte ⟨parent, child, parentEnds, childEnds, [byte], [],
        List.replicate platform.bufsiz 0, []⟩
  | working {parent : ParentPoint} {child : ChildPoint} {parentEnds : Ends}
      {message : List Byte} :
      ParentSent parent parentEnds → ChildWorking platform byte child message →
      Phase platform byte ⟨parent, child, parentEnds, ⟨false, true, true, false⟩, [], [],
        message, []⟩
  | replied {parent : ParentPoint} {child : ChildPoint} {parentEnds childEnds : Ends} :
      ParentSent parent parentEnds → ChildReplied byte child childEnds →
      Phase platform byte ⟨parent, child, parentEnds, childEnds, [], [toupper byte],
        oneByte platform (toupper byte), []⟩
  | waiting {child : ChildPoint} {childEnds : Ends} :
      ChildReplied byte child childEnds →
      Phase platform byte ⟨.wait, child, ⟨true, false, false, true⟩, childEnds, [], [],
        oneByte platform (toupper byte), [toupper byte]⟩
  | closing {parent : ParentPoint} {parentEnds : Ends} :
      ParentClosing parent parentEnds →
      Phase platform byte ⟨parent, .exited, parentEnds, ⟨false, false, false, false⟩, [], [],
        oneByte platform (toupper byte), [toupper byte]⟩

variable {platform : Platform} {byte : Byte} {state next : State} {size : ℕ}

theorem ChildReading.open_ends {child : ChildPoint} {ends : Ends}
    (reads : ChildReading child ends) :
    ends.parentToChildOutp = true ∧ ends.childToParentInp = true := by
  cases reads <;> exact ⟨rfl, rfl⟩

theorem ParentSending.open_ends {parent : ParentPoint} {ends : Ends}
    (sends : ParentSending byte parent ends) : ends.parentToChildInp = true := by
  cases sends <;> rfl

theorem ParentSent.open_ends {parent : ParentPoint} {ends : Ends}
    (sent : ParentSent parent ends) : ends.childToParentOutp = true := by
  cases sent <;> rfl

theorem Phase.parent_step (phase : Phase platform byte state)
    (stepped : parentStep platform [byte] state size = some next) : Phase platform byte next := by
  cases phase with
  | sending parent child =>
      cases parent with
      | closingOutp =>
          cases stepped
          exact .sending .closingInp child
      | closingInp =>
          cases stepped
          exact .sending .writing child
      | writing =>
          simp only [parentStep, Bool.false_or, child.open_ends, Pipe.write_singleton] at stepped
          by_cases one : size = 1
          · simp only [if_pos one, Option.some.injEq] at stepped
            subst stepped
            exact .sent .written child
          · simp [if_neg one] at stepped
  | sent parent child =>
      cases parent with
      | written =>
          cases stepped
          exact .sent .reading child
      | reading =>
          simp [parentStep, Pipe.read, child.open_ends] at stepped
  | working parent child =>
      cases parent with
      | written =>
          cases stepped
          exact .working .reading child
      | reading => simp [parentStep, Pipe.read] at stepped
  | replied parent child =>
      cases parent with
      | written =>
          cases stepped
          exact .replied .reading child
      | reading =>
          simp only [parentStep, Option.map_eq_some_iff] at stepped
          obtain ⟨result, turn, moved⟩ := stepped
          cases Pipe.read_singleton turn
          cases moved
          exact .waiting child
  | waiting child =>
      cases child with
      | written | closingOutp | closingInp => cases stepped
      | exited =>
          cases stepped
          exact .closing .closingInp
  | closing parent =>
      cases parent with
      | closingInp =>
          cases stepped
          exact .closing .closingOutp
      | closingOutp =>
          cases stepped
          exact .closing .exited
      | exited => cases stepped

theorem Phase.child_step (nonzero : byte ≠ 0) (phase : Phase platform byte state)
    (stepped : childStep platform state size = some next) : Phase platform byte next := by
  cases phase with
  | sending parent child =>
      cases child with
      | closingInp =>
          cases stepped
          exact .sending parent .closingOutp
      | closingOutp =>
          cases stepped
          exact .sending parent .reading
      | reading => simp [childStep, Pipe.read, parent.open_ends] at stepped
  | sent parent child =>
      cases child with
      | closingInp =>
          cases stepped
          exact .sent parent .closingOutp
      | closingOutp =>
          cases stepped
          exact .sent parent .reading
      | reading =>
          simp only [childStep, Option.map_eq_some_iff] at stepped
          obtain ⟨result, turn, moved⟩ := stepped
          cases Pipe.read_singleton turn
          cases moved
          rw [List.length_singleton, oneByte_eq]
          exact .working parent .upper
  | working parent child =>
      cases child with
      | upper =>
          simp only [childStep, upperLoop_oneByte nonzero, text_oneByte (toupper_ne_zero nonzero),
            Option.some.injEq] at stepped
          subst stepped
          exact .working parent .writing
      | writing =>
          simp only [childStep, Bool.or_false, parent.open_ends, Pipe.write_singleton] at stepped
          by_cases one : size = 1
          · simp only [if_pos one, Option.some.injEq] at stepped
            subst stepped
            exact .replied parent .written
          · simp [if_neg one] at stepped
  | replied parent child =>
      cases child with
      | written =>
          cases stepped
          exact .replied parent .closingOutp
      | closingOutp =>
          cases stepped
          exact .replied parent .closingInp
      | closingInp =>
          cases stepped
          exact .replied parent .exited
      | exited => cases stepped
  | waiting child =>
      cases child with
      | written =>
          cases stepped
          exact .waiting .closingOutp
      | closingOutp =>
          cases stepped
          exact .waiting .closingInp
      | closingInp =>
          cases stepped
          exact .waiting .exited
      | exited => cases stepped
  | closing parent => cases stepped

theorem reachable_phase (nonzero : byte ≠ 0)
    (reachable : (system platform [byte]).Reachable state) : Phase platform byte state := by
  apply reachable.invariant (Phase platform byte)
  · rintro _ rfl
    exact .sending .closingOutp .closingInp
  · intro before action after phase stepped
    cases action with
    | parent size => exact phase.parent_step stepped
    | child size => exact phase.child_step nonzero stepped

theorem Phase.progress (nonzero : byte ≠ 0) (phase : Phase platform byte state)
    (running : state.parent.terminated = false) :
    ∃ action, ((system platform [byte]).step state action).isSome := by
  cases phase with
  | sending parent child =>
      refine ⟨.parent 1, ?_⟩
      cases parent with
      | closingOutp | closingInp => rfl
      | writing => simp [system, parentStep, child.open_ends, Pipe.write_singleton]
  | sent parent child =>
      refine ⟨.child 1, ?_⟩
      cases child with
      | closingInp | closingOutp => rfl
      | reading =>
          have size := platform.bufsiz_ge
          simp [system, childStep, Pipe.read]
          omega
  | working parent child =>
      refine ⟨.child 1, ?_⟩
      cases child with
      | upper => simp [system, childStep, upperLoop_oneByte nonzero]
      | writing => simp [system, childStep, parent.open_ends, Pipe.write_singleton]
  | replied parent child =>
      refine ⟨.parent 1, ?_⟩
      cases parent with
      | written => rfl
      | reading =>
          have size := platform.bufsiz_ge
          simp [system, parentStep, Pipe.read]
          omega
  | waiting child =>
      cases child with
      | written | closingOutp | closingInp => exact ⟨.child 1, rfl⟩
      | exited => exact ⟨.parent 1, rfl⟩
  | closing parent =>
      refine ⟨.parent 1, ?_⟩
      cases parent with
      | closingInp | closingOutp => rfl
      | exited => cases running

theorem Phase.received_eq (phase : Phase platform byte state)
    (finished : state.parent.terminated = true) : state.received = [toupper byte] := by
  cases phase with
  | sending parent child => cases parent <;> cases finished
  | sent parent child | working parent child | replied parent child =>
      cases parent <;> cases finished
  | waiting child => cases finished
  | closing parent => rfl

theorem delivers_singleton (nonzero : byte ≠ 0) : Delivers platform [byte] := by
  intro state reachable
  have phase := reachable_phase nonzero reachable
  constructor
  · intro blocked
    obtain ⟨running, _, stuck⟩ := blocked
    obtain ⟨action, enabled⟩ := phase.progress nonzero running
    rw [stuck action] at enabled
    cases enabled
  · intro finished _
    exact phase.received_eq finished

end OneByte

section OtherLengths

variable {platform : Platform}

theorem child_runs {argument queue : List Byte} {byte : Byte} {parent : ParentPoint}
    {parentEnds : Ends} (nonzero : byte ≠ 0) (readerOpen : parentEnds.childToParentOutp = true)
    (reachable : (system platform argument).Reachable
      ⟨parent, .closeParentToChildInp, parentEnds, .all, byte :: queue, [],
        List.replicate platform.bufsiz 0, []⟩) :
    (system platform argument).Reachable
      ⟨parent, .exited, parentEnds, .none, queue, [toupper byte],
        oneByte platform (toupper byte), []⟩ := by
  have size : 1 ≤ platform.bufsiz := by
    have := platform.bufsiz_ge
    omega
  have reading := (reachable.next (.child 0) rfl).next (.child 0) rfl
  have upper : (system platform argument).Reachable
      ⟨parent, .upper, parentEnds, ⟨false, true, true, false⟩, queue, [],
        oneByte platform byte, []⟩ :=
    reading.next (.child 1) (by simp [system, childStep, Pipe.read, size, oneByte, Ends.all])
  have writing : (system platform argument).Reachable
      ⟨parent, .write [toupper byte] [toupper byte], parentEnds, ⟨false, true, true, false⟩,
        queue, [], oneByte platform (toupper byte), []⟩ :=
    upper.next (.child 0) (by simp [system, childStep, upperLoop_oneByte nonzero,
      text_oneByte (toupper_ne_zero nonzero)])
  have written : (system platform argument).Reachable
      ⟨parent, .write [toupper byte] [], parentEnds, ⟨false, true, true, false⟩,
        queue, [toupper byte], oneByte platform (toupper byte), []⟩ :=
    writing.next (.child 1) (by simp [system, childStep, readerOpen, Pipe.write_singleton])
  exact ((written.next (.child 0) rfl).next (.child 0) rfl).next (.child 0) rfl

/-- Both processes wait for a byte that neither will send. -/
theorem not_delivers_nil : ¬ Delivers platform [] := by
  intro delivers
  have executed : (system platform []).execute (State.forked platform)
      [.parent 0, .parent 0, .parent 0, .child 0, .child 0] =
      some ⟨.read, .read, ⟨true, false, false, true⟩, ⟨false, true, true, false⟩, [], [],
        List.replicate platform.bufsiz 0, []⟩ := rfl
  have reachable := (System.Reachable.of_initial rfl).execute executed
  refine (delivers _ reachable).1 ⟨rfl, rfl, ?_⟩
  intro action
  cases action <;> rfl

theorem parent_sent {first second : Byte} {rest : List Byte} (nonzero : first ≠ 0)
    {size : ℕ} (positive : 1 ≤ size) (inside : size ≤ (first :: second :: rest).length)
    (bounded : size ≤ platform.capacity)
    (atomic : (first :: second :: rest).length ≤ platform.atomicSize →
      size = (first :: second :: rest).length) :
    (system platform (first :: second :: rest)).Reachable
      ⟨.write ((first :: second :: rest).drop size), .exited, ⟨true, false, false, true⟩, .none,
        (second :: rest).take (size - 1), [toupper first], oneByte platform (toupper first),
        []⟩ := by
  have writing := ((System.Reachable.of_initial rfl :
    (system platform (first :: second :: rest)).Reachable (State.forked platform)).next
      (.parent 0) rfl).next (.parent 0) rfl
  have queue : (first :: second :: rest).take size = first :: (second :: rest).take (size - 1) := by
    obtain ⟨less, rfl⟩ : ∃ less, size = less + 1 := ⟨size - 1, by omega⟩
    rfl
  have turn : Pipe.write platform.toLimits true [] (first :: second :: rest)
      (first :: second :: rest) size =
      .moved (first :: (second :: rest).take (size - 1)) ((first :: second :: rest).drop size) := by
    rw [Pipe.write, if_neg (by simp), if_neg (by simp), if_pos ⟨positive, inside, by simpa, atomic⟩,
      queue]
    rfl
  have sent : (system platform (first :: second :: rest)).Reachable
      ⟨.write ((first :: second :: rest).drop size), .closeParentToChildInp,
        ⟨true, false, false, true⟩, .all, first :: (second :: rest).take (size - 1), [],
        List.replicate platform.bufsiz 0, []⟩ :=
    writing.next (.parent size) (by
      simp only [system, parentStep, State.forked, Ends.all, Bool.false_or, turn])
  exact child_runs nonzero rfl sent

/-- A first byte read alone is all that is ever delivered. -/
theorem not_delivers_cons_cons {first second : Byte} {rest : List Byte} (nonzero : first ≠ 0) :
    ¬ Delivers platform (first :: second :: rest) := by
  intro delivers
  have capacityPos : 1 ≤ platform.capacity :=
    Nat.le_trans platform.atomicSize_pos platform.atomicSize_le
  by_cases fits : (first :: second :: rest).length ≤ platform.capacity
  · have sent := parent_sent nonzero (by simp) le_rfl fits fun _ => rfl
    rw [List.drop_length] at sent
    have size : 1 ≤ platform.bufsiz := by
      have := platform.bufsiz_ge
      omega
    have received : (system platform (first :: second :: rest)).Reachable
        ⟨.wait, .exited, ⟨true, false, false, true⟩, .none,
          (second :: rest).take ((first :: second :: rest).length - 1), [],
          oneByte platform (toupper first), [toupper first]⟩ :=
      (sent.next (.parent 0) rfl).next (.parent 1) (by
        simp [system, parentStep, Pipe.read, size])
    have finished := ((received.next (.parent 0) rfl).next (.parent 0) rfl).next (.parent 0) rfl
    have delivered := (delivers _ finished).2 rfl rfl
    simp at delivered
  · -- The pipe is full, and the child closes its end while the parent still writes.
    have inside : platform.capacity ≤ (first :: second :: rest).length := by omega
    have sent := parent_sent nonzero capacityPos inside le_rfl fun small =>
      absurd (small.trans platform.atomicSize_le) fits
    have remaining : (first :: second :: rest).drop platform.capacity ≠ [] := by
      intro empty
      have := List.drop_eq_nil_iff.mp empty
      omega
    have killed := sent.next (.parent 0) (by
      simp only [system, parentStep, Pipe.write, if_neg remaining, Ends.none, Bool.or_self, if_true]
      rfl)
    have delivered := (delivers _ killed).2 rfl rfl
    simp at delivered

/-- The argument is delivered on every interleaving exactly when it has one byte. -/
theorem delivers_iff {argument : List Byte} (nulFree : 0 ∉ argument) :
    Delivers platform argument ↔ argument.length = 1 := by
  cases argument with
  | nil => exact ⟨fun delivers => (not_delivers_nil delivers).elim, fun empty => nomatch empty⟩
  | cons first rest =>
      have nonzero : first ≠ 0 := fun zero => nulFree (zero ▸ List.mem_cons_self)
      cases rest with
      | nil => exact ⟨fun _ => rfl, fun _ => delivers_singleton nonzero⟩
      | cons second rest =>
          constructor
          · intro delivers
            exact (not_delivers_cons_cons nonzero delivers).elim
          · intro one
            simp at one

end OtherLengths

/-- The limits of Linux with the GNU C library. -/
def linux : Platform where
  capacity := 65536
  atomicSize := 4096
  atomicSize_pos := Nat.succ_pos _
  atomicSize_le := by decide
  bufsiz := 8192
  bufsiz_ge := by decide

theorem delivers_linux_letter : Delivers linux [97] :=
  (delivers_iff (by decide)).mpr rfl

/-- The empty argument: both processes end up blocked in `read`. -/
theorem not_delivers_linux_nil : ¬ Delivers linux [] :=
  not_delivers_nil

end Ence360.Processes.PipeToUpper
