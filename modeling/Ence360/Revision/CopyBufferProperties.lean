import Ence360.Revision.CopyBuffer

/-!
# What the overwriting leaves behind

Every call of `memset` destroys what the earlier ones wrote, except for the
bytes from its own length on: after `i` turns the last `i` bytes are final.
-/

set_option autoImplicit false

namespace Ence360.Revision.CopyBuffer

open Semantics

theorem ofInt_charValue (byte : Byte) : UInt8.ofInt (charValue byte) = byte := by
  have bound := byte.toNat_lt
  apply UInt8.toNat_inj.mp
  rw [UInt8.ofInt, UInt8.toNat_ofNat', charValue]
  split <;> omega

variable {memory : Memory Object} {buffer data : Address} {source : List Byte}

/-- A buffer of the heap with its contents. -/
structure Holds (memory : Memory Object) (buffer data : Address) (source : List Byte) : Prop where
  buffer_eq : memory.heap buffer = some (.buffer data source.length)
  bytes_eq : memory.heap data = some (.bytes source)

theorem loadBuffer_eq_some {address : Address} {size : ℕ}
    (found : memory.heap address = some (.buffer data size)) :
    loadBuffer memory address = some (data, size) := by
  simp [loadBuffer, Memory.load, found]

theorem loadBytes_eq_some (found : memory.heap data = some (.bytes source)) :
    loadBytes memory data = some source := by
  simp [loadBytes, Memory.load, found]

theorem memset_eq_some {value : ℤ} {count : ℕ} (found : memory.heap data = some (.bytes source))
    (inside : count ≤ source.length) :
    memset memory data value count = some { memory with
      heap := Function.update memory.heap data
        (some (.bytes (List.replicate count (UInt8.ofInt value) ++ source.drop count))) } := by
  simp [memset, loadBytes_eq_some found, inside, Memory.store_eq_some found]

/-- The two calls of `malloc` succeed, with unused memory of the right sizes. -/
structure Allocates (memory : Memory Object) (newBuff newData : Address) (size : ℕ) : Prop where
  supply_eq : ∃ data₀ size₀ contents rest, contents.length = size ∧
    memory.supply = (newBuff, .buffer data₀ size₀) :: (newData, .bytes contents) :: rest
  newBuff_unused : memory.heap newBuff = none
  newData_unused : memory.heap newData = none
  distinct : newBuff ≠ newData

section Loop

variable {newBuff newData : Address}

theorem copyTurn_eq_some {contents : List Byte} {i k : ℕ} (holds : Holds memory buffer data source)
    (fresh : memory.heap newBuff = some (.buffer newData source.length))
    (array : memory.heap newData = some (.bytes contents))
    (length : contents.length = source.length) (left : source.length - i = k + 1)
    (inside : k < source.length) :
    copyTurn buffer newBuff i memory = some { memory with
      heap := Function.update memory.heap newData
        (some (.bytes (List.replicate (k + 1) source[k] ++ contents.drop (k + 1)))) } := by
  have byte : source[source.length - i - 1]? = some source[k] := by
    rw [left, Nat.add_sub_cancel, List.getElem?_eq_getElem inside]
  simp only [copyTurn, Option.bind_eq_bind, Option.bind_some, loadBuffer_eq_some holds.buffer_eq,
    loadBuffer_eq_some fresh, loadBytes_eq_some holds.bytes_eq, byte]
  rw [left, memset_eq_some array (by omega), ofInt_charValue]

/-- The last byte of the filled part is final. -/
theorem replicate_append_drop {k : ℕ} (inside : k < source.length) :
    List.replicate (k + 1) source[k] ++ source.drop (k + 1) =
      List.replicate k source[k] ++ source.drop k := by
  rw [List.replicate_succ', List.drop_eq_getElem_cons inside, List.append_assoc]
  rfl

/-- The last `i` bytes of the new array are final. -/
def Overwritten (base : Memory Object) (newData : Address) (source : List Byte) (i : ℕ)
    (memory : Memory Object) : Prop :=
  ∃ front : List Byte, front.length = source.length - i ∧ memory = { base with
    heap := Function.update base.heap newData
      (some (.bytes (front ++ source.drop (source.length - i)))) }

variable {base : Memory Object} (holds : Holds base buffer data source)
  (fresh : base.heap newBuff = some (.buffer newData source.length))
  (apart : buffer ≠ newData ∧ data ≠ newData ∧ newBuff ≠ newData)
include holds fresh apart

theorem copyTurn_overwritten {i : ℕ} (below : i < source.length) {memory : Memory Object}
    (overwritten : Overwritten base newData source i memory) :
    ∃ next, copyTurn buffer newBuff i memory = some next ∧
      Overwritten base newData source (i + 1) next := by
  obtain ⟨front, length, same⟩ := overwritten
  obtain ⟨notBuffer, notData, notNew⟩ := apart
  obtain ⟨k, left⟩ : ∃ k, source.length - i = k + 1 := ⟨source.length - i - 1, by omega⟩
  have shorter : source.length - (i + 1) = k := by omega
  have inside : k < source.length := by omega
  rw [left] at length same
  have whole : (front ++ source.drop (k + 1)).length = source.length := by
    rw [List.length_append, length, List.length_drop]
    omega
  have heap : memory.heap = Function.update base.heap newData
      (some (.bytes (front ++ source.drop (k + 1)))) := by rw [same]
  have held : Holds memory buffer data source := by
    constructor
    · rw [heap, Function.update_of_ne notBuffer, holds.buffer_eq]
    · rw [heap, Function.update_of_ne notData, holds.bytes_eq]
  have new : memory.heap newBuff = some (.buffer newData source.length) := by
    rw [heap, Function.update_of_ne notNew, fresh]
  have array : memory.heap newData = some (.bytes (front ++ source.drop (k + 1))) := by
    rw [heap, Function.update_self]
  refine ⟨_, copyTurn_eq_some held new array whole left inside, List.replicate k source[k], ?_, ?_⟩
  · rw [List.length_replicate, shorter]
  · rw [List.drop_append_of_le_length (Nat.le_of_eq length.symm),
      List.drop_of_length_le (Nat.le_of_eq length), List.nil_append, replicate_append_drop inside,
      heap, Function.update_idem, shorter, same]

theorem copyLoop_eq_some {contents : List Byte} (array : base.heap newData = some (.bytes contents))
    (length : contents.length = source.length) :
    countedLoop (copyTurn buffer newBuff) source.length base = some { base with
      heap := Function.update base.heap newData (some (.bytes source)) } := by
  have initial : Overwritten base newData source 0 base := by
    refine ⟨contents, length, ?_⟩
    rw [Nat.sub_zero, List.drop_length, List.append_nil, ← array, Function.update_eq_self]
  obtain ⟨finish, ran, front, none, same⟩ := countedLoop_invariant _ _
    (fun i below memory => copyTurn_overwritten holds fresh apart below) initial
  rw [Nat.sub_self] at none same
  rw [List.length_eq_zero_iff.mp none] at same
  rw [ran, same]
  rfl

end Loop

section Allocation

variable {address newBuff newData : Address} {size : ℕ} {rest : List (Address × Object)}

theorem mallocBuffer_spec (supply : memory.supply = (address, .buffer data size) :: rest)
    (unused : memory.heap address = none) :
    ∃ next, mallocBuffer memory = some (address, next) ∧ next.supply = rest ∧
      next.heap = Function.update memory.heap address (some (.buffer data size)) := by
  refine ⟨{ heap := Function.update memory.heap address (some (.buffer data size))
            supply := rest
            trace := memory.trace ++ [.malloc address] }, ?_, rfl, rfl⟩
  simp [mallocBuffer, Memory.malloc_eq_some supply unused, loadBuffer, Memory.load]

theorem mallocBytes_spec {contents : List Byte}
    (supply : memory.supply = (address, .bytes contents) :: rest)
    (unused : memory.heap address = none) :
    ∃ next, mallocBytes memory contents.length = some (address, next) ∧
      next.heap = Function.update memory.heap address (some (.bytes contents)) := by
  refine ⟨{ heap := Function.update memory.heap address (some (.bytes contents))
            supply := rest
            trace := memory.trace ++ [.malloc address] }, ?_, rfl⟩
  simp [mallocBytes, Memory.malloc_eq_some supply unused, loadBytes, Memory.load]

theorem setData_spec {target : Address} (found : memory.heap address = some (.buffer data size)) :
    ∃ next, setData memory address target = some next ∧
      next.heap = Function.update memory.heap address (some (.buffer target size)) := by
  refine ⟨{ memory with
    heap := Function.update memory.heap address (some (.buffer target size)) }, ?_, rfl⟩
  simp [setData, loadBuffer_eq_some found, Memory.store_eq_some found]

theorem setSize_spec {value : ℕ} (found : memory.heap address = some (.buffer data size)) :
    ∃ next, setSize memory address value = some next ∧
      next.heap = Function.update memory.heap address (some (.buffer data value)) := by
  refine ⟨{ memory with
    heap := Function.update memory.heap address (some (.buffer data value)) }, ?_, rfl⟩
  simp [setSize, loadBuffer_eq_some found, Memory.store_eq_some found]

theorem allocateCopy_spec (holds : Holds memory buffer data source)
    (allocates : Allocates memory newBuff newData source.length) :
    ∃ contents base, contents.length = source.length ∧
      allocateCopy memory buffer = some (newBuff, source.length, base) ∧
      base.heap = Function.update
        (Function.update memory.heap newBuff (some (.buffer newData source.length)))
        newData (some (.bytes contents)) := by
  obtain ⟨⟨data₀, size₀, contents, rest, length, supply⟩, newUnused, dataUnused, distinct⟩ :=
    allocates
  have bufferNe := Memory.ne_of_unused holds.buffer_eq newUnused
  obtain ⟨first, ranFirst, supplyFirst, heapFirst⟩ := mallocBuffer_spec supply newUnused
  have loaded : loadBuffer first buffer = some (data, source.length) := by
    refine loadBuffer_eq_some ?_
    rw [heapFirst, Function.update_of_ne bufferNe, holds.buffer_eq]
  obtain ⟨second, ranSecond, heapSecond⟩ := mallocBytes_spec supplyFirst (by
    rw [heapFirst, Function.update_of_ne distinct.symm, dataUnused])
  obtain ⟨third, ranThird, heapThird⟩ := @setData_spec second data₀ newBuff size₀ newData (by
    rw [heapSecond, Function.update_of_ne distinct, heapFirst, Function.update_self])
  obtain ⟨base, ranBase, heapBase⟩ := @setSize_spec third newData newBuff size₀ source.length (by
    rw [heapThird, Function.update_self])
  refine ⟨contents, base, length, ?_, ?_⟩
  · rw [length] at ranSecond
    simp only [allocateCopy, ranFirst, loaded, ranSecond, ranThird, ranBase, Option.bind_eq_bind,
      Option.bind_some]
    rfl
  · rw [heapBase, heapThird, heapSecond, heapFirst, Function.update_idem,
      Function.update_comm distinct.symm, Function.update_idem]

/-- The new buffer has the contents of the old one, and every object that was
there before, the old buffer among them, is as it was. -/
theorem copyBuffer_copies (holds : Holds memory buffer data source)
    (allocates : Allocates memory newBuff newData source.length) :
    ∃ result, copyBuffer memory buffer = some (newBuff, result) ∧
      Holds result newBuff newData source ∧
      ∀ address object, memory.heap address = some object →
        result.heap address = some object := by
  obtain ⟨contents, base, length, allocated, heap⟩ := allocateCopy_spec holds allocates
  have kept : ∀ address object, memory.heap address = some object →
      address ≠ newData ∧ base.heap address = some object := by
    intro address object found
    have notNew := Memory.ne_of_unused found allocates.newBuff_unused
    have notData := Memory.ne_of_unused found allocates.newData_unused
    rw [heap, Function.update_of_ne notData, Function.update_of_ne notNew]
    exact ⟨notData, found⟩
  obtain ⟨bufferNe, bufferKept⟩ := kept buffer _ holds.buffer_eq
  obtain ⟨dataNe, dataKept⟩ := kept data _ holds.bytes_eq
  have fresh : base.heap newBuff = some (.buffer newData source.length) := by
    rw [heap, Function.update_of_ne allocates.distinct, Function.update_self]
  have loop := copyLoop_eq_some ⟨bufferKept, dataKept⟩ fresh
    ⟨bufferNe, dataNe, allocates.distinct⟩ (by rw [heap, Function.update_self]) length
  refine ⟨{ base with heap := Function.update base.heap newData (some (.bytes source)) },
    ?_, ⟨?_, ?_⟩, ?_⟩
  · simp only [copyBuffer, allocated, loop, Option.bind_eq_bind, Option.bind_some]
    rfl
  · exact (Function.update_of_ne allocates.distinct ..).trans fresh
  · exact Function.update_self ..
  · intro address object found
    obtain ⟨notData, same⟩ := kept address object found
    exact (Function.update_of_ne notData ..).trans same

/-- A buffer with a null byte and a byte above 127. -/
def sampleMemory : Memory Object where
  heap := Function.update (Function.update (fun _ => none) 1 (some (.buffer 2 3))) 2
    (some (.bytes [104, 0, 200]))
  supply := [(5, .buffer 0 0), (7, .bytes [9, 9, 9])]
  trace := []

theorem copyBuffer_copies_sample :
    ∃ result, copyBuffer sampleMemory 1 = some (5, result) ∧ Holds result 5 7 [104, 0, 200] ∧
      ∀ address object, sampleMemory.heap address = some object →
        result.heap address = some object :=
  copyBuffer_copies ⟨rfl, rfl⟩ ⟨⟨0, 0, [9, 9, 9], [], rfl, rfl⟩, rfl, rfl, by decide⟩

end Allocation

end Ence360.Revision.CopyBuffer
