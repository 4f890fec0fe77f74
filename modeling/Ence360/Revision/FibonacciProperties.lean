import Ence360.Revision.LinkedListProperties
import Mathlib.Data.Nat.Fib.Basic
import Mathlib.Tactic.NormNum.NatFib

/-!
# The values of `fibonacci`

The sums fit in an `int32_t` up to the one at position 45. The next one is the
first to overflow, so the function has a defined result for `n` up to 46 only.
-/

set_option autoImplicit false

namespace Ence360.Revision.LinkedList

open Semantics

/-- The sequence of the comment above `fibonacci`. -/
def fib : ℕ → ℕ
  | 0 => 1
  | 1 => 1
  | n + 2 => fib (n + 1) + fib n

theorem fib_eq_natFib (n : ℕ) : fib n = Nat.fib (n + 1) := by
  induction n using fib.induct with
  | case1 => rfl
  | case2 => rfl
  | case3 n ihNext ih =>
      rw [fib, ihNext, ih, Nat.fib_add_two (n := n + 1), Nat.add_comm]

theorem fib_add_le {k : ℕ} (below : k < 44) : fib (k + 1) + fib k ≤ 2147483647 := by
  have last : Nat.fib 46 = 1836311903 := by norm_num
  calc fib (k + 2) = Nat.fib (k + 3) := fib_eq_natFib (k + 2)
    _ ≤ Nat.fib 46 := Nat.fib_mono (by omega)
    _ ≤ 2147483647 := by omega

theorem lt_fib_add : 2147483647 < fib 45 + fib 44 := by
  have first : Nat.fib 47 = 2971215073 := by norm_num
  change 2147483647 < fib 46
  rw [fib_eq_natFib, first]
  decide

/-- The nodes at the given addresses, with the values of the sequence. -/
def fibCells (addresses : List Address) : List (Address × ℤ) :=
  addresses.zip ((List.range addresses.length).map fun k => (fib k : ℤ))

theorem fibCells_append (addresses : List Address) (address : Address) :
    fibCells (addresses ++ [address]) =
      fibCells addresses ++ [(address, (fib addresses.length : ℤ))] := by
  simp [fibCells, List.range_succ, List.zip_append]

/-- A list of so many values, the latest in front, with the addresses of the
supply taken in order. -/
structure Built (base : List HeapEvent) (addresses : List Address) (count : ℕ)
    (head : Option Address) (memory : Memory (Link ℤ)) : Prop where
  linked : Linked memory.heap head (fibCells (addresses.take count)).reverse
  supplies : memory.Supplies (addresses.drop count)
  trace_eq : memory.trace = base ++ (addresses.take count).map .malloc

variable {base : List HeapEvent} {addresses : List Address} {memory : Memory (Link ℤ)}

theorem Built.start (supplies : memory.Supplies addresses) :
    Built memory.trace addresses 0 none memory where
  linked := .nil
  supplies := supplies
  trace_eq := by simp

theorem Built.append {count : ℕ} {head : Option Address}
    (built : Built base addresses count head memory) (room : count < addresses.length) :
    ∃ address next, listAppend (fib count : ℤ) head memory = some (some address, next) ∧
      next.heap address = some { next := head, value := (fib count : ℤ) } ∧
      Built base addresses (count + 1) (some address) next := by
  obtain ⟨linked, supplies, trace⟩ := built
  have first := List.drop_eq_getElem_cons room
  rw [first] at supplies
  obtain ⟨contents, supply, next, unused, later⟩ := supplies.cons_elim
  have taken : addresses.take (count + 1) = addresses.take count ++ [addresses[count]] :=
    (List.take_append_getElem room).symm
  have full : (addresses.take count).length = count := by
    rw [List.length_take]
    omega
  refine ⟨_, _, listAppend_eq_some next unused _ _, Function.update_self .., ?_, later _ _, ?_⟩
  · rw [taken, fibCells_append, full, List.reverse_append]
    exact .cons (Function.update_self ..) (linked.update (linked.outside_of_unused unused) _)
  · rw [trace, taken, List.map_append, List.append_assoc]
    rfl

section Loop

/-- The state of the loop with `k + 2` values in the list. -/
structure FibReached (base : List HeapEvent) (addresses : List Address) (k : ℕ)
    (state : FibState) : Prop where
  i_eq : state.i = k + 2
  prev_eq : state.prev = fib k
  latest_eq : state.latest = fib (k + 1)
  built : Built base addresses (k + 2) state.head state.memory

variable {k : ℕ} {state : FibState}

theorem fibTurn_reached (reached : FibReached base addresses k state)
    (room : k + 2 < addresses.length) (fits : k < 44) :
    ∃ next, fibTurn state = some next ∧ FibReached base addresses (k + 1) next := by
  obtain ⟨i, prev, latest, built⟩ := reached
  have bound := fib_add_le fits
  have sum : CheckedInt.add state.latest state.prev = some (fib (k + 2) : ℤ) := by
    rw [latest, prev, CheckedInt.add_eq_some (by omega) (by omega), fib, Nat.cast_add]
  have counter : CheckedInt.add state.i 1 = some (((k + 1 : ℕ) : ℤ) + 2) := by
    rw [i, CheckedInt.add_eq_some (by omega) (by omega), Nat.cast_add]
    congr 1
  obtain ⟨address, memory, appended, found, longer⟩ := built.append room
  refine ⟨{ head := some address, prev := state.latest, latest := (fib (k + 2) : ℤ),
            i := ((k + 1 : ℕ) : ℤ) + 2, memory }, ?_, rfl, latest, rfl, longer⟩
  simp only [fibTurn, sum, appended, counter, Memory.load, found, Option.bind_eq_bind,
    Option.bind_some]
  rfl

theorem fibTurn_overflows (reached : FibReached base addresses 44 state) :
    fibTurn state = none := by
  obtain ⟨_, prev, latest, _⟩ := reached
  have large : 2147483647 < fib (44 + 1) + fib 44 := lt_fib_add
  have sum : CheckedInt.add state.latest state.prev = none := by
    rw [latest, prev, CheckedInt.add, CheckedInt.check, if_neg]
    intro fits
    have high := fits.2
    omega
  simp [fibTurn, sum]

theorem fibLoop_spec {n : ℤ} (sameLength : addresses.length = n.toNat) (fits : n ≤ 46)
    (reached : FibReached base addresses 0 state) (two : 2 ≤ n) {fuel : ℕ}
    (enough : n.toNat < fuel) :
    ∃ finish, whileLoop (fun state => decide (state.i < n)) fibTurn fuel state = some finish ∧
      Built base addresses addresses.length finish.head finish.memory := by
  have enough : (n - state.i).toNat < fuel := by
    rw [reached.i_eq]
    omega
  obtain ⟨finish, ran, ⟨k, within, last⟩, ended⟩ := whileLoop_eq_some
    (fun state => decide (state.i < n)) fibTurn
    (fun state => ∃ k, k + 2 ≤ addresses.length ∧ FibReached base addresses k state)
    (fun state => (n - state.i).toNat)
    (fun state ⟨k, within, reached⟩ runs => by
      have below : state.i < n := of_decide_eq_true runs
      rw [reached.i_eq] at below
      obtain ⟨next, stepped, later⟩ := fibTurn_reached reached (by omega) (by omega)
      refine ⟨next, stepped, ⟨k + 1, by omega, later⟩, ?_⟩
      rw [later.i_eq, reached.i_eq]
      omega)
    ⟨0, by omega, reached⟩ enough
  have all : k + 2 = addresses.length := by
    have notBelow : ¬ finish.i < n := of_decide_eq_false ended
    rw [last.i_eq] at notBelow
    omega
  exact ⟨finish, ran, all ▸ last.built⟩

theorem fibLoop_overflows {n : ℤ} (sameLength : addresses.length = n.toNat) (large : 46 < n)
    (reached : FibReached base addresses 0 state) (fuel : ℕ) :
    whileLoop (fun state => decide (state.i < n)) fibTurn fuel state = none := by
  refine whileLoop_eq_none (fun state => ∃ k ≤ 44, FibReached base addresses k state)
    ?_ ?_ ⟨0, by omega, reached⟩ fuel
  · intro state reachedState
    obtain ⟨k, bound, reached⟩ := reachedState
    rw [reached.i_eq]
    exact decide_eq_true (by omega)
  · intro state next reachedState stepped
    obtain ⟨k, bound, reached⟩ := reachedState
    rcases Nat.lt_or_eq_of_le bound with below | last
    · obtain ⟨_, same, later⟩ := fibTurn_reached reached (by omega) below
      rw [stepped] at same
      cases same
      exact ⟨k + 1, below, later⟩
    · subst last
      rw [fibTurn_overflows reached] at stepped
      cases stepped

end Loop

section Fibonacci

variable {n : ℤ} {fuel : ℕ}

/-- From two values on the function is the loop after the first two nodes. -/
theorem fibonacci_two_le (supplies : memory.Supplies addresses)
    (sameLength : addresses.length = n.toNat) (two : 2 ≤ n) :
    ∃ state, FibReached memory.trace addresses 0 state ∧
      fibonacci fuel n memory =
        (whileLoop (fun state => decide (state.i < n)) fibTurn fuel state).bind
          fun state => listReverse fuel state.head state.memory := by
  obtain ⟨first, one, appendedOne, _, builtOne⟩ := (Built.start supplies).append (by omega)
  obtain ⟨second, memoryTwo, appendedTwo, _, builtTwo⟩ := builtOne.append (by omega)
  refine ⟨{ head := some second, prev := 1, latest := 1, i := 2, memory := memoryTwo },
    ⟨rfl, rfl, rfl, builtTwo⟩, ?_⟩
  have appendedOne : listAppend (1 : ℤ) none memory = some (some first, one) := appendedOne
  have appendedTwo : listAppend (1 : ℤ) (some first) one = some (some second, memoryTwo) :=
    appendedTwo
  rw [fibonacci, if_pos (by omega), appendedOne]
  simp only [Option.bind_eq_bind, Option.bind_some]
  rw [if_pos (by omega), appendedTwo]
  rfl

/-- Below two values the loop makes no turn. -/
theorem fibonacci_lt_two (supplies : memory.Supplies addresses)
    (sameLength : addresses.length = n.toNat) (two : n < 2) (positive : 0 < fuel) :
    ∃ head built, Built memory.trace addresses addresses.length head built ∧
      fibonacci fuel n memory = listReverse fuel head built := by
  obtain ⟨fuel, rfl⟩ : ∃ less, fuel = less + 1 := ⟨fuel - 1, by omega⟩
  have ended : decide (2 < n) = false := decide_eq_false (by omega)
  rcases lt_or_ge 0 n with one | none
  · obtain ⟨first, memoryOne, appended, _, built⟩ := (Built.start supplies).append (by omega)
    have appended : listAppend (1 : ℤ) .none memory = some (some first, memoryOne) := appended
    have length : addresses.length = 0 + 1 := by omega
    refine ⟨some first, memoryOne, length ▸ built, ?_⟩
    rw [fibonacci, if_pos one, appended]
    simp only [Option.bind_eq_bind, Option.bind_some]
    rw [if_neg (by omega)]
    simp [whileLoop, ended]
  · have length : addresses.length = 0 := by omega
    refine ⟨.none, memory, length ▸ Built.start supplies, ?_⟩
    rw [fibonacci, if_neg (by omega)]
    simp only [Option.bind_eq_bind, Option.bind_some]
    rw [if_neg (by omega)]
    simp [whileLoop, ended]

theorem fibonacci_spec (supplies : memory.Supplies addresses)
    (sameLength : addresses.length = n.toNat) (fits : n ≤ 46) (enough : n.toNat < fuel) :
    ∃ head result, fibonacci fuel n memory = some (head, result) ∧
      Linked result.heap head (fibCells addresses) ∧
      result.trace = memory.trace ++ addresses.map .malloc := by
  obtain ⟨backHead, backMemory, built, ran⟩ : ∃ head memory₁,
      Built memory.trace addresses addresses.length head memory₁ ∧
      fibonacci fuel n memory = listReverse fuel head memory₁ := by
    rcases lt_or_ge n 2 with few | two
    · exact fibonacci_lt_two supplies sameLength few (by omega)
    · obtain ⟨state, reached, equation⟩ := fibonacci_two_le supplies sameLength two
      obtain ⟨finish, loop, built⟩ := fibLoop_spec sameLength fits reached two enough
      rw [loop, Option.bind_some] at equation
      exact ⟨_, _, built, equation⟩
  obtain ⟨linked, _, trace⟩ := built
  rw [List.take_length] at linked trace
  obtain ⟨head, result, reversed, forwards, _, _, sameTrace⟩ :=
    @listReverse_spec _ _ _ _ linked fuel (by simpa [fibCells, sameLength] using enough)
  rw [List.reverse_reverse] at forwards
  exact ⟨head, result, ran.trans reversed, forwards, sameTrace.trans trace⟩

theorem fibonacci_overflows (supplies : memory.Supplies addresses)
    (sameLength : addresses.length = n.toNat) (large : 46 < n) :
    fibonacci fuel n memory = none := by
  obtain ⟨state, reached, equation⟩ := fibonacci_two_le supplies sameLength (by omega)
  rw [equation, fibLoop_overflows sameLength large reached, Option.bind_none]

/-- The function returns the first `n` values of the sequence, in order and
without an overflow, exactly for `n` up to 46. -/
theorem fibonacci_correct_iff (supplies : memory.Supplies addresses)
    (sameLength : addresses.length = n.toNat) (enough : n.toNat < fuel) :
    (∃ head result cells, fibonacci fuel n memory = some (head, result) ∧
      Linked result.heap head cells ∧ (cells.length : ℤ) = max n 0 ∧
      ∀ (i : ℕ) (inside : i < cells.length), (cells.get ⟨i, inside⟩).2 = fib i) ↔ n ≤ 46 := by
  constructor
  · intro returns
    obtain ⟨head, result, _, ran, _⟩ := returns
    by_contra large
    rw [fibonacci_overflows supplies sameLength (by omega)] at ran
    cases ran
  · intro fits
    obtain ⟨head, result, ran, linked, _⟩ := fibonacci_spec supplies sameLength fits enough
    refine ⟨head, result, fibCells addresses, ran, linked, ?_, ?_⟩
    · simp [fibCells, sameLength]
    · intro i inside
      simp [fibCells]

/-- No object is allocated, and `malloc` will return the addresses from 0 on. -/
def freshMemory (count : ℕ) : Memory (Link ℤ) where
  heap := fun _ => none
  supply := (List.range count).map fun address => (address, { next := none, value := 0 })
  trace := []

theorem freshMemory_supplies (count : ℕ) : (freshMemory count).Supplies (List.range count) where
  starts := by
    rw [freshMemory, List.map_map]
    exact (List.map_id (List.range count)).symm ▸ List.prefix_rfl
  unused := fun _ _ => rfl
  distinct := List.nodup_range

theorem fibonacci_correct_iff_ten :
    ∃ head result cells, fibonacci 11 10 (freshMemory 10) = some (head, result) ∧
      Linked result.heap head cells ∧ (cells.length : ℤ) = max 10 0 ∧
      ∀ (i : ℕ) (inside : i < cells.length), (cells.get ⟨i, inside⟩).2 = fib i :=
  (fibonacci_correct_iff (freshMemory_supplies 10) rfl (by decide)).mpr (by decide)

theorem fibonacci_fortySeven_undefined :
    ¬ ∃ fuel head result, fibonacci fuel 47 (freshMemory 47) = some (head, result) := by
  intro returns
  obtain ⟨fuel, head, result, ran⟩ := returns
  rw [fibonacci_overflows (freshMemory_supplies 47) rfl (by decide)] at ran
  cases ran

end Fibonacci

end Ence360.Revision.LinkedList
