import Ence360.Revision.FibonacciProperties

/-!
# Releasing the lists

The loop of `list_free` frees every node once, and the call after it frees the
head a second time. Only the empty list, which has no head, is released as it
should be.
-/

set_option autoImplicit false

namespace Ence360.Revision.LinkedList

open Semantics

variable {V : Type} {memory final : Memory (Link V)} {list : Option Address} {fuel : ℕ}

section FreeList

variable {cells : List (Address × V)}

/-- The next address is read before the node is freed. -/
theorem freeTurn_eq_some {address : Address} {head next : Option Address} {value : V}
    (found : memory.heap address = some { next, value }) :
    freeTurn { head, l := some address, memory } =
      some { head, l := next, memory := memory.free address } := by
  simp [freeTurn, Memory.load, found]

theorem freeLoop_spec {rest : List (Address × V)} {walk : Walk V}
    (linked : Linked walk.memory.heap walk.l rest) (enough : rest.length < fuel) :
    ∃ finish, whileLoop (fun walk => walk.l.isSome) freeTurn fuel walk = some finish ∧
      finish.memory.trace = walk.memory.trace ++ (addressesOf rest).map .free := by
  induction rest generalizing walk fuel with
  | nil =>
      obtain ⟨fuel, rfl⟩ : ∃ less, fuel = less + 1 := ⟨fuel - 1, by omega⟩
      obtain ⟨head, l, memory⟩ := walk
      cases linked
      exact ⟨_, whileLoop_of_guard_false fuel rfl, by simp [addressesOf]⟩
  | cons cell rest ih =>
      obtain ⟨fuel, rfl⟩ : ∃ less, fuel = less + 1 := ⟨fuel - 1, by omega⟩
      obtain ⟨head, l, memory⟩ := walk
      have distinct := linked.nodup
      cases linked with
      | @cons address next value _ found tail =>
          have found : memory.heap address = some { next, value } := found
          have notRest : address ∉ addressesOf rest := (List.nodup_cons.mp distinct).1
          obtain ⟨finish, ran, trace⟩ := @ih fuel
            { head, l := next, memory := memory.free address } (tail.update notRest none)
            (by simpa using enough)
          refine ⟨finish, ?_, ?_⟩
          · rw [whileLoop_of_turn fuel rfl (freeTurn_eq_some found), ran]
          · rw [trace]
            simp [Memory.free, addressesOf]

theorem listFree_spec (linked : Linked memory.heap list cells) (enough : cells.length < fuel) :
    ∃ final, listFree fuel list memory = some final ∧
      final.trace = memory.trace ++ (addressesOf cells ++ list.toList).map .free := by
  obtain ⟨finish, ran, trace⟩ :=
    @freeLoop_spec V fuel cells { head := none, l := list, memory } linked enough
  cases list with
  | none => exact ⟨finish.memory, by simp [listFree, ran], by simpa using trace⟩
  | some head =>
      refine ⟨finish.memory.free head, by simp [listFree, ran], ?_⟩
      rw [Memory.free, trace]
      simp

/-- The calls of `free` are for the nodes of the list, each once, only when there
are none. -/
theorem listFree_frees_nodes_iff (linked : Linked memory.heap list cells)
    (enough : cells.length < fuel) :
    (∃ (final : Memory (Link V)) (frees : List Address), listFree fuel list memory = some final ∧
      final.trace = memory.trace ++ frees.map .free ∧ frees.Perm (addressesOf cells)) ↔
      list = none := by
  obtain ⟨final, ran, trace⟩ := listFree_spec linked enough
  constructor
  · intro frees
    obtain ⟨_, frees, same, traceFrees, perm⟩ := frees
    rw [ran] at same
    cases same
    rw [trace] at traceFrees
    have calls : addressesOf cells ++ list.toList = frees :=
      List.map_injective_iff.mpr (fun _ _ => HeapEvent.free.inj)
        (List.append_cancel_left traceFrees)
    have lengths := perm.length_eq
    rw [← calls, List.length_append] at lengths
    cases list with
    | none => rfl
    | some head =>
        rw [Option.toList_some, List.length_singleton] at lengths
        omega
  · intro empty
    subst empty
    exact ⟨final, addressesOf cells, ran, by simpa using trace, List.Perm.refl _⟩

end FreeList

section Traces

variable {address : Address} {next : Memory (Link V)} {head newHead : Option Address}

theorem setNext_trace (ran : setNext memory address head = some next) :
    next.trace = memory.trace := by
  obtain ⟨link, _, stored⟩ := Option.bind_eq_some_iff.mp ran
  exact Memory.store_trace stored

theorem setValue_trace {value : V} (ran : setValue memory address value = some next) :
    next.trace = memory.trace := by
  obtain ⟨link, _, stored⟩ := Option.bind_eq_some_iff.mp ran
  exact Memory.store_trace stored

theorem listAppend_trace {x : V} (ran : listAppend x head memory = some (newHead, next)) :
    memory.trace <+: next.trace := by
  obtain ⟨⟨address, first⟩, allocated, ran⟩ := Option.bind_eq_some_iff.mp ran
  obtain ⟨second, linked, ran⟩ := Option.bind_eq_some_iff.mp ran
  obtain ⟨third, valued, ran⟩ := Option.bind_eq_some_iff.mp ran
  cases ran
  rw [setValue_trace valued, setNext_trace linked, Memory.malloc_trace allocated]
  exact List.prefix_append ..

theorem reverseTurn_trace {walk later : Walk V} (turn : reverseTurn walk = some later) :
    walk.memory.trace <+: later.memory.trace := by
  obtain ⟨l, _, turn⟩ := Option.bind_eq_some_iff.mp turn
  obtain ⟨link, _, turn⟩ := Option.bind_eq_some_iff.mp turn
  obtain ⟨second, linked, turn⟩ := Option.bind_eq_some_iff.mp turn
  cases turn
  rw [setNext_trace linked]

theorem mapTurn_trace {f : V → Option V} {walk later : Walk V}
    (turn : mapTurn f walk = some later) : walk.memory.trace <+: later.memory.trace := by
  obtain ⟨l, _, turn⟩ := Option.bind_eq_some_iff.mp turn
  obtain ⟨link, _, turn⟩ := Option.bind_eq_some_iff.mp turn
  obtain ⟨value, _, turn⟩ := Option.bind_eq_some_iff.mp turn
  obtain ⟨⟨head, second⟩, appended, turn⟩ := Option.bind_eq_some_iff.mp turn
  obtain ⟨again, _, turn⟩ := Option.bind_eq_some_iff.mp turn
  cases turn
  exact listAppend_trace appended

theorem freeTurn_trace {walk later : Walk V} (turn : freeTurn walk = some later) :
    ∃ address, walk.l = some address ∧
      later.memory.trace = walk.memory.trace ++ [.free address] := by
  obtain ⟨l, here, turn⟩ := Option.bind_eq_some_iff.mp turn
  obtain ⟨link, _, turn⟩ := Option.bind_eq_some_iff.mp turn
  cases turn
  exact ⟨l, here, rfl⟩

/-- A loop whose turns only add to the record only adds to it. -/
theorem walkLoop_trace {guard : Walk V → Bool} {turn : Walk V → Option (Walk V)}
    (grows : ∀ walk later, turn walk = some later →
      walk.memory.trace <+: later.memory.trace) {walk finish : Walk V}
    (loop : whileLoop guard turn fuel walk = some finish) :
    walk.memory.trace <+: finish.memory.trace :=
  whileLoop_invariant (fun later => walk.memory.trace <+: later.memory.trace)
    (fun state later kept stepped => kept.trans (grows state later stepped)) List.prefix_rfl loop

theorem listReverse_trace (ran : listReverse fuel list memory = some (newHead, next)) :
    memory.trace <+: next.trace := by
  obtain ⟨walk, loop, ran⟩ := Option.bind_eq_some_iff.mp ran
  cases ran
  exact walkLoop_trace (fun _ _ => reverseTurn_trace) loop

theorem listMap_trace {f : V → Option V}
    (ran : listMap fuel list f memory = some (newHead, next)) : memory.trace <+: next.trace := by
  obtain ⟨walk, loop, reversed⟩ := Option.bind_eq_some_iff.mp ran
  have grown := walkLoop_trace (fun _ _ => mapTurn_trace) loop
  exact grown.trans (listReverse_trace reversed)

theorem freeLoop_trace {walk finish : Walk V}
    (loop : whileLoop (fun walk => walk.l.isSome) freeTurn fuel walk = some finish) :
    walk.memory.trace <+: finish.memory.trace := by
  refine walkLoop_trace ?_ loop
  intro state later turn
  obtain ⟨address, _, trace⟩ := freeTurn_trace turn
  rw [trace]
  exact List.prefix_append ..

theorem listFree_trace (ran : listFree fuel list memory = some final) :
    memory.trace <+: final.trace := by
  obtain ⟨walk, loop, ran⟩ := Option.bind_eq_some_iff.mp ran
  have grown := freeLoop_trace loop
  cases list with
  | none =>
      cases ran
      exact grown
  | some head =>
      cases ran
      exact grown.trans (List.prefix_append ..)

/-- Whatever the list, its head is freed by the first turn and after the loop. -/
theorem listFree_head_twice (ran : listFree fuel (some address) memory = some final) :
    2 ≤ final.trace.count (.free address) := by
  obtain ⟨walk, loop, ran⟩ := Option.bind_eq_some_iff.mp ran
  cases ran
  cases fuel with
  | zero => cases loop
  | succ fuel =>
      obtain ⟨first, turn, rest⟩ := Option.bind_eq_some_iff.mp loop
      obtain ⟨_, here, trace⟩ := freeTurn_trace turn
      cases here
      have kept := (freeLoop_trace rest).sublist.count_le (.free address)
      rw [trace, List.count_append, List.count_singleton_self] at kept
      rw [Memory.free, List.count_append, List.count_singleton_self]
      omega

end Traces

section Program

variable {n : ℤ} {addresses : List Address}

/-- Each address that `malloc` returned was passed to `free` once. -/
def ReleasedOnce (trace : List HeapEvent) : Prop :=
  ∀ address, .malloc address ∈ trace → trace.count (.free address) = 1

theorem buildAndFree_eq_some {memory final : Memory (Link ℤ)}
    (ran : buildAndFree fuel n memory = some final) :
    ∃ fib fibSq first second third, fibonacci fuel n memory = some (fib, first) ∧
      listMap fuel fib square first = some (fibSq, second) ∧
      listFree fuel fibSq second = some third ∧ listFree fuel fib third = some final := by
  obtain ⟨⟨fib, first⟩, built, ran⟩ := Option.bind_eq_some_iff.mp ran
  obtain ⟨⟨fibSq, second⟩, mapped, ran⟩ := Option.bind_eq_some_iff.mp ran
  obtain ⟨third, freed, ran⟩ := Option.bind_eq_some_iff.mp ran
  exact ⟨fib, fibSq, first, second, third, built, mapped, freed, ran⟩

variable {memory : Memory (Link ℤ)}

theorem buildAndFree_nonpos (empty : n ≤ 0) (positive : 0 < fuel) :
    buildAndFree fuel n memory = some memory := by
  obtain ⟨fuel, rfl⟩ : ∃ less, fuel = less + 1 := ⟨fuel - 1, by omega⟩
  have one : ¬ 0 < n := by omega
  have two : ¬ 1 < n := by omega
  have loop : ¬ 2 < n := by omega
  simp [buildAndFree, fibonacci, listMap, listFree, listReverse, whileLoop, one, two, loop]

theorem fibonacci_head (supplies : memory.Supplies addresses)
    (sameLength : addresses.length = n.toNat) (positive : 0 < n) (enough : n.toNat < fuel)
    {head : Option Address} {result : Memory (Link ℤ)}
    (ran : fibonacci fuel n memory = some (head, result)) :
    ∃ address, head = some address ∧ .malloc address ∈ result.trace := by
  rcases le_or_gt n 46 with fits | large
  · obtain ⟨_, _, same, linked, trace⟩ := fibonacci_spec supplies sameLength fits enough
    rw [ran] at same
    cases same
    cases addresses with
    | nil =>
        rw [List.length_nil] at sameLength
        omega
    | cons first addresses =>
        rw [fibCells, List.length_cons, List.range_succ_eq_map] at linked
        cases linked with
        | cons _ _ => exact ⟨first, rfl, by simp [trace]⟩
  · rw [fibonacci_overflows supplies sameLength large] at ran
    cases ran

theorem not_releasedOnce (supplies : memory.Supplies addresses)
    (sameLength : addresses.length = n.toNat) (positive : 0 < n) (enough : n.toNat < fuel)
    {final : Memory (Link ℤ)} (ran : buildAndFree fuel n memory = some final) :
    ¬ ReleasedOnce final.trace := by
  intro released
  obtain ⟨fib, fibSq, first, second, third, built, mapped, freedSq, freed⟩ :=
    buildAndFree_eq_some ran
  obtain ⟨address, rfl, allocated⟩ := fibonacci_head supplies sameLength positive enough built
  have grown : first.trace <+: final.trace :=
    ((listMap_trace mapped).trans (listFree_trace freedSq)).trans (listFree_trace freed)
  have once := released address (grown.subset allocated)
  have twice := listFree_head_twice freed
  omega

end Program

/-- The program releases every node once exactly when it builds none, and
`list_free` its list exactly when it is empty. -/
theorem released_once_iff :
    (∀ (n : ℤ) (memory : Memory (Link ℤ)) (addresses : List Address) (fuel : ℕ),
      memory.trace = [] → memory.Supplies addresses → addresses.length = 2 * n.toNat →
      n.toNat < fuel →
      ((∃ final, buildAndFree fuel n memory = some final ∧ ReleasedOnce final.trace) ↔ n ≤ 0)) ∧
    ∀ (memory : Memory (Link V)) (list : Option Address) (cells : List (Address × V)) (fuel : ℕ),
      Linked memory.heap list cells → cells.length < fuel →
      ((∃ (final : Memory (Link V)) (frees : List Address),
        listFree fuel list memory = some final ∧
        final.trace = memory.trace ++ frees.map .free ∧ frees.Perm (addressesOf cells)) ↔
        list = none) := by
  constructor
  · intro n memory addresses fuel fresh supplies length enough
    constructor
    · intro releases
      obtain ⟨final, ran, released⟩ := releases
      by_contra positive
      have first := supplies.shorten (List.take_prefix n.toNat addresses)
      have sameLength : (addresses.take n.toNat).length = n.toNat := by
        rw [List.length_take]
        omega
      exact not_releasedOnce first sameLength (by omega) enough ran released
    · intro empty
      refine ⟨memory, buildAndFree_nonpos empty (by omega), ?_⟩
      intro address allocated
      rw [fresh] at allocated
      cases allocated
  · intro memory list cells fuel linked enough
    exact listFree_frees_nodes_iff linked enough

theorem released_once_iff_empty :
    (∃ final, buildAndFree 1 0 (freshMemory 0) = some final ∧ ReleasedOnce final.trace) ∧
    ∃ (final : Memory (Link ℤ)) (frees : List Address),
      listFree 1 none (freshMemory 0) = some final ∧ final.trace = [] ++ frees.map .free ∧
      frees.Perm (addressesOf ([] : List (Address × ℤ))) := by
  obtain ⟨program, lists⟩ := @released_once_iff ℤ
  exact ⟨(program 0 _ _ 1 rfl (freshMemory_supplies 0) rfl (by decide)).mpr (by decide),
    (lists _ none [] 1 .nil (by decide)).mpr rfl⟩

/-- With the `n` of `main` the head of the Fibonacci list is freed twice. -/
theorem released_twice_ten :
    (buildAndFree 11 10 (freshMemory 20)).map
      (fun final => (final.trace.count (.malloc 0), final.trace.count (.free 0))) = some (1, 2) ∧
    ¬ ∃ final, buildAndFree 11 10 (freshMemory 20) = some final ∧ ReleasedOnce final.trace := by
  constructor
  · decide +kernel
  · intro releases
    obtain ⟨final, ran, released⟩ := releases
    have first := (freshMemory_supplies 20).shorten (List.take_prefix 10 _)
    exact not_releasedOnce first (by decide) (by decide) (by decide) ran released

end Ence360.Revision.LinkedList
