import Ence360.Revision.LinkedList

/-!
# Lists in the heap

`Linked` describes a list that ends in `NULL` by its nodes, in order. In the
loop of `list_reverse` two such lists, the reversed part and the rest, lie
apart in the heap.
-/

set_option autoImplicit false

namespace Ence360.Revision.LinkedList

open Semantics

variable {V : Type}

inductive Linked (heap : Address → Option (Link V)) :
    Option Address → List (Address × V) → Prop where
  | nil : Linked heap none []
  | cons {address : Address} {next : Option Address} {value : V} {rest : List (Address × V)} :
      heap address = some { next, value } → Linked heap next rest →
      Linked heap (some address) ((address, value) :: rest)

def addressesOf (cells : List (Address × V)) : List Address :=
  cells.map Prod.fst

section Shape

variable {heap other : Address → Option (Link V)} {list second : Option Address}
  {cells rest : List (Address × V)}

theorem Linked.unique (first : Linked heap list cells) (again : Linked heap list rest) :
    cells = rest := by
  induction first generalizing rest with
  | nil =>
      cases again
      rfl
  | cons found _ ih =>
      cases again with
      | cons same tail =>
          rw [found] at same
          cases same
          rw [ih tail]

theorem Linked.suffix_of_mem (linked : Linked heap list cells) {address : Address}
    (member : address ∈ addressesOf cells) :
    ∃ tail, tail <:+ cells ∧ Linked heap (some address) tail := by
  induction linked with
  | nil => cases member
  | @cons head next value rest found tail ih =>
      rcases List.mem_cons.mp member with here | later
      · subst here
        exact ⟨_, List.suffix_refl _, .cons found tail⟩
      · obtain ⟨suffix, isSuffix, linked⟩ := ih later
        exact ⟨suffix, isSuffix.trans (List.suffix_cons _ _), linked⟩

/-- A list that ends in `NULL` visits no node twice. -/
theorem Linked.nodup (linked : Linked heap list cells) : (addressesOf cells).Nodup := by
  induction linked with
  | nil => exact List.nodup_nil
  | cons found tail ih =>
      refine List.nodup_cons.mpr ⟨?_, ih⟩
      intro again
      obtain ⟨suffix, isSuffix, linked⟩ := tail.suffix_of_mem again
      have whole := linked.unique (.cons found tail)
      have shorter := isSuffix.length_le
      rw [whole, List.length_cons] at shorter
      omega

theorem Linked.congr (linked : Linked heap list cells)
    (same : ∀ address ∈ addressesOf cells, other address = heap address) :
    Linked other list cells := by
  induction linked with
  | nil => exact .nil
  | cons found tail ih =>
      refine .cons ?_ (ih fun address member => same address (List.mem_cons_of_mem _ member))
      rw [same _ List.mem_cons_self, found]

theorem Linked.update (linked : Linked heap list cells) {address : Address}
    (outside : address ∉ addressesOf cells) (link : Option (Link V)) :
    Linked (Function.update heap address link) list cells := by
  refine linked.congr fun inside member => Function.update_of_ne ?_ ..
  intro same
  exact outside (same ▸ member)

/-- The nodes and values of a list determine its links. -/
theorem Linked.determined (linked : Linked heap list cells) (again : Linked other second cells) :
    list = second ∧ ∀ address ∈ addressesOf cells, heap address = other address := by
  induction linked generalizing second with
  | nil =>
      cases again
      exact ⟨rfl, fun _ member => nomatch member⟩
  | cons found _ ih =>
      cases again with
      | cons same tail =>
          obtain ⟨nextSame, restSame⟩ := ih tail
          refine ⟨rfl, fun address member => ?_⟩
          rcases List.mem_cons.mp member with here | later
          · subst here
            rw [found, same, nextSame]
          · exact restSame address later

theorem Linked.allocated (linked : Linked heap list cells) {address : Address}
    (member : address ∈ addressesOf cells) : ∃ link, heap address = some link := by
  obtain ⟨tail, _, linked⟩ := linked.suffix_of_mem member
  cases linked with
  | cons found _ => exact ⟨_, found⟩

end Shape

section Operations

variable {memory : Memory (Link V)} {address : Address} {link : Link V}

theorem setNext_eq_some (found : memory.heap address = some link) (next : Option Address) :
    setNext memory address next = some { memory with
      heap := Function.update memory.heap address (some { link with next }) } := by
  simp [setNext, Memory.load, found, Memory.store_eq_some found]

/-- `list_append` puts one node at the next address of the supply. -/
theorem listAppend_eq_some {contents : Link V} {supply : List (Address × Link V)}
    (next : memory.supply = (address, contents) :: supply)
    (unused : memory.heap address = none) (x : V) (head : Option Address) :
    listAppend x head memory = some (some address,
      { heap := Function.update memory.heap address (some { next := head, value := x })
        supply
        trace := memory.trace ++ [.malloc address] }) := by
  simp [listAppend, Memory.malloc_eq_some next unused, setNext, setValue, Memory.load, Memory.store]

/-- A turn of `list_reverse` moves a node to the front of the reversed part. -/
theorem reverseTurn_eq_some {head next : Option Address} {value : V}
    (found : memory.heap address = some { next, value }) :
    reverseTurn { head, l := some address, memory } =
      some { head := some address, l := next, memory := { memory with
        heap := Function.update memory.heap address (some { next := head, value }) } } := by
  simp [reverseTurn, Memory.load, found, setNext_eq_some found]

/-- A turn of `list_map` puts the new value in front and leaves the node it came from. -/
theorem mapTurn_eq_some {f : V → V} {head after : Option Address} {value : V} {fresh : Address}
    {contents : Link V} {supply : List (Address × Link V)}
    (found : memory.heap address = some { next := after, value })
    (next : memory.supply = (fresh, contents) :: supply) (unused : memory.heap fresh = none) :
    mapTurn (fun v => some (f v)) { head, l := some address, memory } =
      some { head := some fresh, l := after, memory :=
        { heap := Function.update memory.heap fresh (some { next := head, value := f value })
          supply
          trace := memory.trace ++ [.malloc fresh] } } := by
  have different : address ≠ fresh := Memory.ne_of_unused found unused
  simp [mapTurn, Memory.load, found, listAppend_eq_some next unused,
    Function.update_of_ne different]

end Operations

section Reverse

theorem reverseLoop_spec {rest done : List (Address × V)} {walk : Walk V}
    (linkedRest : Linked walk.memory.heap walk.l rest)
    (linkedDone : Linked walk.memory.heap walk.head done)
    (apart : ∀ address ∈ addressesOf rest, address ∉ addressesOf done) {fuel : ℕ}
    (enough : rest.length < fuel) :
    ∃ finish, whileLoop (fun walk => walk.l.isSome) reverseTurn fuel walk = some finish ∧
      Linked finish.memory.heap finish.head (rest.reverse ++ done) ∧
      (∀ address ∉ addressesOf rest, finish.memory.heap address = walk.memory.heap address) ∧
      finish.memory.supply = walk.memory.supply ∧ finish.memory.trace = walk.memory.trace := by
  induction rest generalizing walk done fuel with
  | nil =>
      obtain ⟨fuel, rfl⟩ : ∃ less, fuel = less + 1 := ⟨fuel - 1, by omega⟩
      obtain ⟨head, l, memory⟩ := walk
      cases linkedRest
      exact ⟨_, whileLoop_of_guard_false fuel rfl, linkedDone, fun _ _ => rfl, rfl, rfl⟩
  | cons cell rest ih =>
      obtain ⟨fuel, rfl⟩ : ∃ less, fuel = less + 1 := ⟨fuel - 1, by omega⟩
      obtain ⟨head, l, memory⟩ := walk
      have distinct := linkedRest.nodup
      cases linkedRest with
      | @cons address next value _ found tail =>
          have notRest : address ∉ addressesOf rest := (List.nodup_cons.mp distinct).1
          have notDone : address ∉ addressesOf done := apart address List.mem_cons_self
          have found : memory.heap address = some { next, value } := found
          have apartNext : ∀ other ∈ addressesOf rest,
              other ∉ addressesOf ((address, value) :: done) := by
            intro other member again
            rcases List.mem_cons.mp again with here | later
            · subst here
              exact notRest member
            · exact apart other (List.mem_cons_of_mem _ member) later
          obtain ⟨finish, ran, linked, frame, supply, trace⟩ := @ih ((address, value) :: done)
            { head := some address, l := next, memory := { memory with
              heap := Function.update memory.heap address (some { next := head, value }) } }
            (tail.update notRest _) (.cons (Function.update_self ..) (linkedDone.update notDone _))
            apartNext fuel (by simpa using enough)
          refine ⟨finish, ?_, ?_, ?_, supply, trace⟩
          · rw [whileLoop_of_turn fuel rfl (reverseTurn_eq_some found), ran]
          · simpa using linked
          · intro other outside
            obtain ⟨different, later⟩ := not_or.mp (mt List.mem_cons.mpr outside)
            rw [frame other later]
            exact Function.update_of_ne different ..

theorem listReverse_spec {memory : Memory (Link V)} {list : Option Address}
    {cells : List (Address × V)} (linked : Linked memory.heap list cells) {fuel : ℕ}
    (enough : cells.length < fuel) :
    ∃ head result, listReverse fuel list memory = some (head, result) ∧
      Linked result.heap head cells.reverse ∧
      (∀ address ∉ addressesOf cells, result.heap address = memory.heap address) ∧
      result.supply = memory.supply ∧ result.trace = memory.trace := by
  obtain ⟨finish, ran, reversed, frame, supply, trace⟩ := @reverseLoop_spec V cells []
    { head := none, l := list, memory } linked .nil (fun _ _ => List.not_mem_nil) fuel enough
  refine ⟨finish.head, finish.memory, ?_, by simpa using reversed, frame, supply, trace⟩
  simp [listReverse, ran]

theorem addressesOf_reverse (cells : List (Address × V)) (address : Address) :
    address ∈ addressesOf cells.reverse ↔ address ∈ addressesOf cells := by
  simp [addressesOf]

/-- Reversing the reversed list leads back to where it started. -/
theorem listReverse_involutive {memory result : Memory (Link V)} {list head : Option Address}
    {cells : List (Address × V)} (linked : Linked memory.heap list cells) {fuel : ℕ}
    (enough : cells.length < fuel) (ran : listReverse fuel list memory = some (head, result)) :
    listReverse fuel head result = some (list, memory) := by
  obtain ⟨_, _, first, reversed, frame, supply, trace⟩ := listReverse_spec linked enough
  rw [ran] at first
  cases first
  obtain ⟨back, final, second, restored, frameBack, supplyBack, traceBack⟩ :=
    listReverse_spec reversed (by simpa using enough)
  rw [List.reverse_reverse] at restored
  obtain ⟨sameHead, sameCells⟩ := restored.determined linked
  have heap : final.heap = memory.heap := by
    funext address
    by_cases member : address ∈ addressesOf cells
    · exact sameCells address member
    · rw [frameBack address (by rwa [addressesOf_reverse]), frame address member]
  obtain ⟨finalHeap, finalSupply, finalTrace⟩ := final
  obtain ⟨memoryHeap, memorySupply, memoryTrace⟩ := memory
  simp only at heap supply trace supplyBack traceBack
  rw [second, sameHead, heap, supplyBack, supply, traceBack, trace]

end Reverse

section Map

theorem Linked.outside_of_unused {heap : Address → Option (Link V)} {list : Option Address}
    {cells : List (Address × V)} (linked : Linked heap list cells) {address : Address}
    (unused : heap address = none) : address ∉ addressesOf cells := by
  intro member
  obtain ⟨link, found⟩ := linked.allocated member
  rw [unused] at found
  cases found

/-- The nodes `list_map` makes for a list, in its order. -/
def mappedCells (f : V → V) (addresses : List Address) (cells : List (Address × V)) :
    List (Address × V) :=
  addresses.zip (cells.map fun cell => f cell.2)

variable {f : V → V} {addresses : List Address} {fuel : ℕ}

theorem mapLoop_spec {rest done : List (Address × V)} {walk : Walk V}
    (linkedRest : Linked walk.memory.heap walk.l rest)
    (linkedDone : Linked walk.memory.heap walk.head done)
    (supplies : walk.memory.Supplies addresses) (sameLength : addresses.length = rest.length)
    (enough : rest.length < fuel) :
    ∃ finish, whileLoop (fun walk => walk.l.isSome) (mapTurn fun v => some (f v)) fuel walk =
        some finish ∧
      Linked finish.memory.heap finish.head ((mappedCells f addresses rest).reverse ++ done) ∧
      (∀ address ∉ addresses, finish.memory.heap address = walk.memory.heap address) ∧
      finish.memory.trace = walk.memory.trace ++ addresses.map .malloc := by
  induction rest generalizing walk done fuel addresses with
  | nil =>
      obtain ⟨fuel, rfl⟩ : ∃ less, fuel = less + 1 := ⟨fuel - 1, by omega⟩
      obtain ⟨head, l, memory⟩ := walk
      cases List.length_eq_zero_iff.mp sameLength
      cases linkedRest
      exact ⟨_, whileLoop_of_guard_false fuel rfl, linkedDone, fun _ _ => rfl, by simp⟩
  | cons cell rest ih =>
      obtain ⟨fuel, rfl⟩ : ∃ less, fuel = less + 1 := ⟨fuel - 1, by omega⟩
      obtain ⟨head, l, memory⟩ := walk
      cases addresses with
      | nil => cases sameLength
      | cons fresh addresses =>
          obtain ⟨contents, supply, next, unused, later⟩ := supplies.cons_elim
          cases linkedRest with
          | @cons address after value _ found tail =>
              have found : memory.heap address = some { next := after, value } := found
              let node : Link V := { next := head, value := f value }
              let grown : Memory (Link V) :=
                { heap := Function.update memory.heap fresh (some node)
                  supply
                  trace := memory.trace ++ [.malloc fresh] }
              obtain ⟨finish, ran, linked, frame, trace⟩ := @ih addresses fuel
                ((fresh, f value) :: done) { head := some fresh, l := after, memory := grown }
                (tail.update (tail.outside_of_unused unused) _)
                (.cons (Function.update_self ..)
                  (linkedDone.update (linkedDone.outside_of_unused unused) _))
                (later node _) (by simpa using sameLength) (by simpa using enough)
              refine ⟨finish, ?_, ?_, ?_, ?_⟩
              · rw [whileLoop_of_turn fuel rfl (mapTurn_eq_some found next unused), ran]
              · simpa [mappedCells] using linked
              · intro other outside
                obtain ⟨elsewhere, outsideLater⟩ := not_or.mp (mt List.mem_cons.mpr outside)
                rw [frame other outsideLater]
                exact Function.update_of_ne elsewhere ..
              · rw [trace]
                simp [grown]

theorem addressesOf_mappedCells {cells : List (Address × V)}
    (sameLength : addresses.length = cells.length) :
    addressesOf (mappedCells f addresses cells) = addresses := by
  simp [addressesOf, mappedCells, List.map_fst_zip, sameLength]

theorem values_mappedCells {cells : List (Address × V)}
    (sameLength : addresses.length = cells.length) :
    (mappedCells f addresses cells).map Prod.snd = cells.map fun cell => f cell.2 := by
  simp [mappedCells, List.map_snd_zip, sameLength]

/-- `list_map` takes the next addresses of the supply for its nodes and writes
nowhere else. -/
theorem listMap_spec {memory : Memory (Link V)} {list : Option Address}
    {cells : List (Address × V)} (linked : Linked memory.heap list cells)
    (supplies : memory.Supplies addresses) (sameLength : addresses.length = cells.length)
    (enough : cells.length < fuel) :
    ∃ head result, listMap fuel list (fun v => some (f v)) memory = some (head, result) ∧
      Linked result.heap head (mappedCells f addresses cells) ∧
      (∀ address ∉ addresses, result.heap address = memory.heap address) ∧
      result.trace = memory.trace ++ addresses.map .malloc := by
  obtain ⟨walk, ran, backwards, frame, trace⟩ := @mapLoop_spec V f addresses fuel cells []
    { head := none, l := list, memory } linked .nil supplies sameLength enough
  rw [List.append_nil] at backwards
  obtain ⟨head, result, reversed, forwards, frameReverse, _, traceReverse⟩ :=
    @listReverse_spec _ _ _ _ backwards fuel (by simpa [mappedCells, sameLength] using enough)
  rw [List.reverse_reverse] at forwards
  refine ⟨head, result, ?_, forwards, ?_, ?_⟩
  · simp [listMap, ran, reversed]
  · intro address outside
    have outsideMapped : address ∉ addressesOf (mappedCells f addresses cells).reverse := by
      rwa [addressesOf_reverse, addressesOf_mappedCells sameLength]
    rw [frameReverse address outsideMapped, frame address outside]
  · rw [traceReverse, trace]

end Map

/-- `list_reverse` turns the same nodes around and undoes itself; `list_map`
builds its list from new nodes, in order, and leaves what was there alone. -/
theorem listReverse_listMap_correct {memory : Memory (Link V)} {list : Option Address}
    {cells : List (Address × V)} (linked : Linked memory.heap list cells) {fuel : ℕ}
    (enough : cells.length < fuel) :
    (∃ head reversed, listReverse fuel list memory = some (head, reversed) ∧
      Linked reversed.heap head cells.reverse ∧
      (∀ address ∉ addressesOf cells, reversed.heap address = memory.heap address) ∧
      listReverse fuel head reversed = some (list, memory)) ∧
    ∀ (f : V → V) (addresses : List Address), memory.Supplies addresses →
      addresses.length = cells.length →
      ∃ head mapped made, listMap fuel list (fun v => some (f v)) memory = some (head, mapped) ∧
        Linked mapped.heap head made ∧
        made.map Prod.snd = (cells.map Prod.snd).map f ∧
        (∀ address ∈ addressesOf made, memory.heap address = none) ∧
        ∀ address, memory.heap address ≠ none → mapped.heap address = memory.heap address := by
  constructor
  · obtain ⟨head, reversed, ran, turned, frame, _, _⟩ := listReverse_spec linked enough
    exact ⟨head, reversed, ran, turned, frame, listReverse_involutive linked enough ran⟩
  · intro f addresses supplies sameLength
    obtain ⟨head, mapped, ran, made, frame, _⟩ :=
      @listMap_spec _ f _ _ _ _ _ linked supplies sameLength enough
    refine ⟨head, mapped, _, ran, made, ?_, ?_, ?_⟩
    · rw [values_mappedCells sameLength, List.map_map]
      rfl
    · intro address member
      rw [addressesOf_mappedCells sameLength] at member
      exact supplies.unused address member
    · intro address allocated
      exact frame address fun member => allocated (supplies.unused address member)

section Sample

def sampleMemory : Memory (Link ℕ) where
  heap
    | 10 => some { next := some 30, value := 1 }
    | 20 => some { next := none, value := 3 }
    | 30 => some { next := some 20, value := 2 }
    | _ => none
  supply := [(40, { next := some 10, value := 0 }), (50, { next := none, value := 7 }),
    (60, { next := none, value := 0 })]
  trace := []

theorem sampleMemory_linked :
    Linked sampleMemory.heap (some 10) [(10, 1), (30, 2), (20, 3)] :=
  .cons rfl (.cons rfl (.cons rfl .nil))

theorem sampleMemory_supplies : sampleMemory.Supplies [40, 50, 60] where
  starts := by decide
  unused := by
    intro address member
    simp only [List.mem_cons, List.not_mem_nil, or_false] at member
    rcases member with rfl | rfl | rfl <;> rfl
  distinct := by decide

theorem listReverse_listMap_correct_sample :
    (∃ head reversed, listReverse 4 (some 10) sampleMemory = some (head, reversed) ∧
      Linked reversed.heap head [(20, 3), (30, 2), (10, 1)] ∧
      listReverse 4 head reversed = some (some 10, sampleMemory)) ∧
    ∃ head mapped made,
      listMap 4 (some 10) (fun v => some (v * v)) sampleMemory = some (head, mapped) ∧
      Linked mapped.heap head made ∧ made.map Prod.snd = [1, 4, 9] := by
  obtain ⟨⟨head, reversed, ran, turned, _, back⟩, maps⟩ :=
    @listReverse_listMap_correct _ _ _ _ sampleMemory_linked 4 (by decide)
  obtain ⟨first, mapped, made, mapRan, linked, values, _, _⟩ :=
    maps (fun v => v * v) [40, 50, 60] sampleMemory_supplies rfl
  exact ⟨⟨head, reversed, ran, turned, back⟩, first, mapped, made, mapRan, linked, values⟩

end Sample

end Ence360.Revision.LinkedList
