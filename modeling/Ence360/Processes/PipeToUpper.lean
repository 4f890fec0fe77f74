import Ence360.Semantics.Pipe
import Ence360.Semantics.Transition

/-!
# Upper-casing through two pipes (`lab2Processes/pipeToUpper.c`)

The state after a successful `fork`. Each process has its own descriptors for
the four pipe ends and its own copy of the array `message`. `printf` is not
modelled; what the parent received is what its `read` returned.
-/

set_option autoImplicit false

namespace Ence360.Processes.PipeToUpper

open Ence360.Semantics

abbrev Byte := UInt8

/-- `toupper` in the C locale. -/
def toupper (byte : Byte) : Byte :=
  if 97 ≤ byte ∧ byte ≤ 122 then byte - 32 else byte

/-- The pipe limits and the size of `message`, at least 256 in every C library. -/
structure Platform extends Pipe.Limits where
  bufsiz : ℕ
  bufsiz_ge : 256 ≤ bufsiz

/-- The pipe ends one process has open. `INP` is the write end, `OUTP` the read end. -/
structure Ends where
  parentToChildInp : Bool
  parentToChildOutp : Bool
  childToParentInp : Bool
  childToParentOutp : Bool
  deriving DecidableEq, Repr

def Ends.all : Ends := ⟨true, true, true, true⟩

def Ends.none : Ends := ⟨false, false, false, false⟩

/-- The next action of the parent; `killed` is the default action of `SIGPIPE`. -/
inductive ParentPoint where
  | closeParentToChildOutp
  | closeChildToParentInp
  | write (rest : List Byte)
  | read
  | wait
  | closeParentToChildInp
  | closeChildToParentOutp
  | exited
  | killed
  deriving DecidableEq, Repr

/-- The next action of the child; at `overrun` its loop has left `message`. -/
inductive ChildPoint where
  | closeParentToChildInp
  | closeChildToParentOutp
  | read
  | upper
  | overrun
  | write (whole rest : List Byte)
  | closeParentToChildOutp
  | closeChildToParentInp
  | exited
  | killed
  deriving DecidableEq, Repr

structure State where
  parent : ParentPoint
  child : ChildPoint
  parentEnds : Ends
  childEnds : Ends
  parentToChild : List Byte
  childToParent : List Byte
  childMessage : List Byte
  received : List Byte
  deriving DecidableEq, Repr

/-- A process takes a turn; `size` is the size of its transfer, if it makes one. -/
inductive Action where
  | parent (size : ℕ)
  | child (size : ℕ)
  deriving DecidableEq, Repr

def ParentPoint.terminated : ParentPoint → Bool
  | .exited | .killed => true
  | _ => false

def ChildPoint.terminated : ChildPoint → Bool
  | .exited | .killed => true
  | _ => false

variable (platform : Platform) (argument : List Byte)

def parentStep (state : State) (size : ℕ) : Option State :=
  match state.parent with
  | .closeParentToChildOutp => some { state with
      parent := .closeChildToParentInp
      parentEnds := { state.parentEnds with parentToChildOutp := false } }
  | .closeChildToParentInp => some { state with
      parent := .write argument
      parentEnds := { state.parentEnds with childToParentInp := false } }
  | .write rest =>
      let readerOpen := state.parentEnds.parentToChildOutp || state.childEnds.parentToChildOutp
      match Pipe.write platform.toLimits readerOpen state.parentToChild argument rest size with
      | .returned => some { state with parent := .read }
      | .brokenPipe => some { state with parent := .killed, parentEnds := .none }
      | .blocked => none
      | .moved queue rest => some { state with parent := .write rest, parentToChild := queue }
  | .read =>
      let writerOpen := state.parentEnds.childToParentInp || state.childEnds.childToParentInp
      (Pipe.read writerOpen state.childToParent platform.bufsiz size).map fun (bytes, queue) =>
        { state with parent := .wait, received := bytes, childToParent := queue }
  | .wait =>
      if state.child.terminated then some { state with parent := .closeParentToChildInp } else none
  | .closeParentToChildInp => some { state with
      parent := .closeChildToParentOutp
      parentEnds := { state.parentEnds with parentToChildInp := false } }
  | .closeChildToParentOutp => some { state with
      parent := .exited
      parentEnds := { state.parentEnds with childToParentOutp := false } }
  | .exited | .killed => none

/-- The loop `for (int i = 0; message[i]; i++)`: the text before the terminator,
upper-cased in place; it needs a terminator inside the array. -/
def upperLoop (message : List Byte) : Option (List Byte) :=
  if 0 ∈ message then
    some ((message.takeWhile (· ≠ 0)).map toupper ++ message.dropWhile (· ≠ 0))
  else none

def text (message : List Byte) : List Byte :=
  message.takeWhile (· ≠ 0)

def childStep (state : State) (size : ℕ) : Option State :=
  match state.child with
  | .closeParentToChildInp => some { state with
      child := .closeChildToParentOutp
      childEnds := { state.childEnds with parentToChildInp := false } }
  | .closeChildToParentOutp => some { state with
      child := .read
      childEnds := { state.childEnds with childToParentOutp := false } }
  | .read =>
      let writerOpen := state.parentEnds.parentToChildInp || state.childEnds.parentToChildInp
      (Pipe.read writerOpen state.parentToChild platform.bufsiz size).map fun (bytes, queue) =>
        { state with
          child := .upper
          childMessage := bytes ++ state.childMessage.drop bytes.length
          parentToChild := queue }
  | .upper =>
      match upperLoop state.childMessage with
      | none => some { state with child := .overrun }
      | some message => some { state with
          child := .write (text message) (text message)
          childMessage := message }
  | .overrun => none
  | .write whole rest =>
      let readerOpen := state.parentEnds.childToParentOutp || state.childEnds.childToParentOutp
      match Pipe.write platform.toLimits readerOpen state.childToParent whole rest size with
      | .returned => some { state with child := .closeParentToChildOutp }
      | .brokenPipe => some { state with child := .killed, childEnds := .none }
      | .blocked => none
      | .moved queue rest => some { state with child := .write whole rest, childToParent := queue }
  | .closeParentToChildOutp => some { state with
      child := .closeChildToParentInp
      childEnds := { state.childEnds with parentToChildOutp := false } }
  | .closeChildToParentInp => some { state with
      child := .exited
      childEnds := { state.childEnds with childToParentInp := false } }
  | .exited | .killed => none

/-- Right after `fork` both processes have all four ends open. -/
def State.forked : State where
  parent := .closeParentToChildOutp
  child := .closeParentToChildInp
  parentEnds := .all
  childEnds := .all
  parentToChild := []
  childToParent := []
  childMessage := List.replicate platform.bufsiz 0
  received := []

def system : System State Action where
  initial state := state = State.forked platform
  step state action :=
    match action with
    | .parent size => parentStep platform argument state size
    | .child size => childStep platform state size

end Ence360.Processes.PipeToUpper
