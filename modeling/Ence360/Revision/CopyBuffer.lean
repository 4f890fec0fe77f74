import Ence360.Semantics.CountedLoop
import Ence360.Semantics.Heap
import Mathlib.Data.Int.Notation

/-!
# Copying a buffer (`lab1Revision/buffer.c`)

The structures and the arrays of bytes they point to are objects of one heap.
An access outside an array has no defined result.
-/

set_option autoImplicit false

namespace Ence360.Revision.CopyBuffer

open Semantics

abbrev Byte := UInt8

/-- `Buffer`, or the array behind one of its `data` pointers. -/
inductive Object where
  | buffer (data : Address) (size : ℕ)
  | bytes (contents : List Byte)

variable (memory : Memory Object)

def loadBuffer (address : Address) : Option (Address × ℕ) := do
  match ← memory.load address with
  | .buffer data size => return (data, size)
  | .bytes _ => none

def loadBytes (address : Address) : Option (List Byte) := do
  match ← memory.load address with
  | .buffer _ _ => none
  | .bytes contents => return contents

/-- The value of a signed `char` with this byte. -/
def charValue (byte : Byte) : ℤ :=
  if byte.toNat < 128 then byte.toNat else byte.toNat - 256

/-- `memset` converts its second argument to `unsigned char`. -/
def memset (address : Address) (value : ℤ) (count : ℕ) : Option (Memory Object) := do
  let contents ← loadBytes memory address
  if count ≤ contents.length then
    memory.store address
      (.bytes (List.replicate count (UInt8.ofInt value) ++ contents.drop count))
  else none

/-- `malloc(sizeof(Buffer))`. -/
def mallocBuffer : Option (Address × Memory Object) := do
  let (address, allocated) ← memory.malloc
  let _ ← loadBuffer allocated address
  return (address, allocated)

/-- `malloc` for an array of `size` bytes. -/
def mallocBytes (size : ℕ) : Option (Address × Memory Object) := do
  let (address, allocated) ← memory.malloc
  let contents ← loadBytes allocated address
  if contents.length = size then return (address, allocated) else none

def setData (address data : Address) : Option (Memory Object) := do
  let (_, size) ← loadBuffer memory address
  memory.store address (.buffer data size)

def setSize (address : Address) (size : ℕ) : Option (Memory Object) := do
  let (data, _) ← loadBuffer memory address
  memory.store address (.buffer data size)

/-- One turn of the loop; `newBuff->size` is not written by it. -/
def copyTurn (buffer newBuff : Address) (i : ℕ) (memory : Memory Object) :
    Option (Memory Object) := do
  let (data, _) ← loadBuffer memory buffer
  let (newData, newSize) ← loadBuffer memory newBuff
  let source ← loadBytes memory data
  let byte ← source[newSize - i - 1]?
  memset memory newData (charValue byte) (newSize - i)

/-- The statements before the loop: the new buffer, and the value of its `size`. -/
def allocateCopy (buffer : Address) : Option (Address × ℕ × Memory Object) := do
  let (newBuff, memory) ← mallocBuffer memory
  let (_, size) ← loadBuffer memory buffer
  let (newData, memory) ← mallocBytes memory size
  let memory ← setData memory newBuff newData
  let memory ← setSize memory newBuff size
  return (newBuff, size, memory)

def copyBuffer (buffer : Address) : Option (Address × Memory Object) := do
  let (newBuff, size, memory) ← allocateCopy memory buffer
  let memory ← countedLoop (copyTurn buffer newBuff) size memory
  return (newBuff, memory)

end Ence360.Revision.CopyBuffer
