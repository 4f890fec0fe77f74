import Ence360.Semantics.LinkedPath
import Ence360.Semantics.Transition
import Mathlib.Logic.Function.Basic

/-!
# The allocator of user programs (`lab10xv6/xv6/umalloc.c`)

Addresses and sizes are counted in headers of eight bytes. `base` is the address of
the static header, below all memory that `sbrk` gives. Loops have fuel, and no
result when it runs out. The answer of `sbrk` comes with the call of `malloc`, which
asks for memory at most once.
-/

set_option autoImplicit false

namespace Ence360.Xv6.Umalloc

open Semantics

structure Header where
  ptr : ℕ
  size : ℕ
  deriving DecidableEq

structure Heap where
  header : ℕ → Header
  freep : ℕ
  /-- The memory had from `sbrk`: where it starts and how long it is. -/
  given : List (ℕ × ℕ)

namespace Heap

def set (heap : Heap) (address : ℕ) (header : Header) : Heap :=
  { heap with header := Function.update heap.header address header }

def setPtr (heap : Heap) (address ptr : ℕ) : Heap :=
  heap.set address { heap.header address with ptr }

def setSize (heap : Heap) (address size : ℕ) : Heap :=
  heap.set address { heap.header address with size }

end Heap

section Free

/-- Where the loop of `free` stops. -/
def stops (heap : Heap) (bp p : ℕ) : Bool :=
  let q := (heap.header p).ptr
  (p < bp ∧ bp < q) ∨ (q ≤ p ∧ (p < bp ∨ bp < q))

/-- `free` after its loop. -/
def insert (heap : Heap) (bp p : ℕ) : Heap :=
  let q := (heap.header p).ptr
  let heap :=
    if bp + (heap.header bp).size = q then
      let heap := heap.setSize bp ((heap.header bp).size + (heap.header q).size)
      heap.setPtr bp (heap.header q).ptr
    else heap.setPtr bp q
  let heap :=
    if p + (heap.header p).size = bp then
      let heap := heap.setSize p ((heap.header p).size + (heap.header bp).size)
      heap.setPtr p (heap.header bp).ptr
    else heap.setPtr p bp
  { heap with freep := p }

def free (fuel : ℕ) (heap : Heap) (ap : ℕ) : Option Heap :=
  let bp := ap - 1
  (seek (fun p => (heap.header p).ptr) (stops heap bp) fuel heap.freep).map (insert heap bp)

end Free

section Malloc

/-- What `malloc` asks `sbrk` for. -/
def core (nu : ℕ) : ℕ :=
  if nu < 4096 then 4096 else nu

/-- The free list after `morecore`, when `sbrk` gives memory at `p`. -/
def morecore (fuel : ℕ) (heap : Heap) (nu p : ℕ) : Option Heap :=
  let heap := { heap with given := (p, core nu) :: heap.given }
  free fuel (heap.setSize p (core nu)) (p + 1)

/-- The block at `p`, after `prevp` in the list, is used; the new block and the heap. -/
def take (heap : Heap) (nunits prevp p : ℕ) : ℕ × Heap :=
  let (p, heap) :=
    if (heap.header p).size = nunits then (p, heap.setPtr prevp (heap.header p).ptr)
    else
      let heap := heap.setSize p ((heap.header p).size - nunits)
      let p := p + (heap.header p).size
      (p, heap.setSize p nunits)
  (p + 1, { heap with freep := prevp })

/-- The loop of `malloc`; the pointer is zero when there is no memory. -/
def mallocLoop (nunits : ℕ) (sbrk : Option ℕ) : ℕ → Heap → ℕ → ℕ → Option (ℕ × Heap)
  | 0, _, _, _ => none
  | fuel + 1, heap, prevp, p =>
      if nunits ≤ (heap.header p).size then some (take heap nunits prevp p)
      else if p = heap.freep then
        match sbrk with
        | none => some (0, heap)
        | some address => do
            let heap ← morecore fuel heap nunits address
            mallocLoop nunits sbrk fuel heap heap.freep (heap.header heap.freep).ptr
      else mallocLoop nunits sbrk fuel heap p (heap.header p).ptr

/-- The headers a request needs, its own among them. -/
def nunits (nbytes : UInt32) : UInt32 :=
  (nbytes + 8 - 1) / 8 + 1

def malloc (base fuel : ℕ) (heap : Heap) (nbytes : UInt32) (sbrk : Option ℕ) :
    Option (ℕ × Heap) :=
  let heap :=
    if heap.freep = 0 then { heap.set base { ptr := base, size := 0 } with freep := base }
    else heap
  mallocLoop (nunits nbytes).toNat sbrk fuel heap heap.freep (heap.header heap.freep).ptr

end Malloc

section Program

/-- A program and its memory; `live` are the blocks that it has not freed, with
their sizes. -/
structure State where
  heap : Heap
  live : List (ℕ × ℕ)

inductive Action where
  | malloc (nbytes : UInt32) (sbrk : Option ℕ)
  | free (ap : ℕ)
  /-- The program writes to memory. -/
  | store (address : ℕ) (contents : Header)

/-- What a program may do: `sbrk` gives memory above all it has given, a request is
not so large that its bytes make a negative number, only blocks are freed, and the
program writes to its blocks only. -/
def Allowed (base : ℕ) (state : State) : Action → Prop
  | .malloc nbytes sbrk => nbytes.toNat + 16 ≤ 0x80000000 ∧
      ∀ p ∈ sbrk, base < p ∧ ∀ block ∈ state.heap.given, block.1 + block.2 ≤ p
  | .free ap => ∃ block ∈ state.live, ap = block.1 + 1
  | .store address _ => ∃ block ∈ state.live, block.1 < address ∧ address < block.1 + block.2

def step (base fuel : ℕ) (state : State) : Action → Option State
  | .malloc nbytes sbrk => do
      let (ap, heap) ← malloc base fuel state.heap nbytes sbrk
      if ap = 0 then return { state with heap }
      else return ⟨heap, (ap - 1, (heap.header (ap - 1)).size) :: state.live⟩
  | .free ap => do
      let heap ← free fuel state.heap ap
      return ⟨heap, state.live.filter (·.1 ≠ ap - 1)⟩
  | .store address contents => return { state with heap := state.heap.set address contents }

/-- At the start `freep` is zero and the program has no block. -/
def system (base fuel : ℕ) : Semantics.System State Action where
  initial state := state.heap.freep = 0 ∧ state.heap.given = [] ∧ state.live = []
  step := step base fuel

end Program

end Ence360.Xv6.Umalloc
