import Ence360.Distributed.Merge

/-!
# What `merge` leaves in its result

While the loops run, the entries written so far followed by the merge of what
is left of both vectors is the merge of the whole vectors. The second vector
comes first in that merge: on a tie the code takes its element.
-/

set_option autoImplicit false

namespace Ence360.Distributed.Merge

open Semantics

variable {α : Type}

section Turns

variable [LinearOrder α]

structure Merging (a b arr : List α) (state : State α) (done : List α) : Prop where
  i_le : state.i ≤ a.length
  j_le : state.j ≤ b.length
  n_eq : state.n = state.i + state.j
  length_eq : done.length = state.i + state.j
  arr_eq : state.arr = .filled arr done
  merge_eq : done ++ (b.drop state.j).merge (a.drop state.i) = b.merge a

variable {a b arr : List α} (room : a.length + b.length ≤ arr.length)
  (fits : arr.length ≤ 2147483647)
include room fits

private theorem push_eq_some {state : State α} {done : List α} (value : α)
    (merging : Merging a b arr state done) (left : state.i + state.j < a.length + b.length) :
    state.push value =
      some { state with n := state.n + 1, arr := .filled arr (done ++ [value]) } := by
  have index : state.n = done.length := merging.n_eq.trans merging.length_eq.symm
  have inside : done.length < arr.length := by
    rw [merging.length_eq]
    omega
  have below : state.n < 2147483647 := by omega
  simp only [State.push, merging.arr_eq, index, TracedArray.write_filled value inside,
    CheckedInt.increment_eq_some (index ▸ below)]
  rfl

omit room fits in
private theorem Merging.taken {state : State α} {done : List α} {i j : ℕ} {value : α}
    (merging : Merging a b arr state done) (iLe : i ≤ a.length) (jLe : j ≤ b.length)
    (total : i + j = state.i + state.j + 1)
    (front : (b.drop state.j).merge (a.drop state.i) = value :: (b.drop j).merge (a.drop i)) :
    Merging a b arr { i, j, n := state.n + 1, arr := .filled arr (done ++ [value]) }
      (done ++ [value]) where
  i_le := iLe
  j_le := jLe
  n_eq := by
    simp only [merging.n_eq]
    omega
  length_eq := by
    simp only [List.length_append, merging.length_eq, List.length_singleton]
    omega
  arr_eq := rfl
  merge_eq := by
    rw [← merging.merge_eq, front, List.append_assoc]
    rfl

theorem takeA_turn {state : State α} {done : List α} (merging : Merging a b arr state done)
    (some : state.i < a.length)
    (front : (b.drop state.j).merge (a.drop state.i) =
      a[state.i] :: (b.drop state.j).merge (a.drop (state.i + 1))) :
    ∃ next, takeA a state = .some next ∧ next.i = state.i + 1 ∧ next.j = state.j ∧
      ∃ done, Merging a b arr next done := by
  have jLe := merging.j_le
  have pushed := push_eq_some room fits a[state.i] merging (by omega)
  have raised := CheckedInt.increment_eq_some (show state.i < 2147483647 by omega)
  refine ⟨{ state with
    i := state.i + 1
    n := state.n + 1
    arr := .filled arr (done ++ [a[state.i]]) }, ?_, rfl, rfl, _,
    merging.taken some merging.j_le (by omega) front⟩
  simp only [takeA, List.getElem?_eq_getElem some, Option.bind_eq_bind, Option.bind_some, pushed,
    raised]
  rfl

theorem takeB_turn {state : State α} {done : List α} (merging : Merging a b arr state done)
    (some : state.j < b.length)
    (front : (b.drop state.j).merge (a.drop state.i) =
      b[state.j] :: (b.drop (state.j + 1)).merge (a.drop state.i)) :
    ∃ next, takeB b state = .some next ∧ next.i = state.i ∧ next.j = state.j + 1 ∧
      ∃ done, Merging a b arr next done := by
  have iLe := merging.i_le
  have pushed := push_eq_some room fits b[state.j] merging (by omega)
  have raised := CheckedInt.increment_eq_some (show state.j < 2147483647 by omega)
  refine ⟨{ state with
    j := state.j + 1
    n := state.n + 1
    arr := .filled arr (done ++ [b[state.j]]) }, ?_, rfl, rfl, _,
    merging.taken merging.i_le some (by omega) front⟩
  simp only [takeB, List.getElem?_eq_getElem some, Option.bind_eq_bind, Option.bind_some, pushed,
    raised]
  rfl

theorem takeSmallest_turn {state : State α} {done : List α} (merging : Merging a b arr state done)
    (someA : state.i < a.length) (someB : state.j < b.length) :
    ∃ next, takeSmallest a b state = .some next ∧ next.i + next.j = state.i + state.j + 1 ∧
      ∃ done, Merging a b arr next done := by
  have dropA := List.drop_eq_getElem_cons someA
  have dropB := List.drop_eq_getElem_cons someB
  simp only [takeSmallest, List.getElem?_eq_getElem someA, List.getElem?_eq_getElem someB,
    Option.bind_eq_bind, Option.bind_some]
  by_cases smaller : a[state.i] < b[state.j]
  · have front : (b.drop state.j).merge (a.drop state.i) =
        a[state.i] :: (b.drop state.j).merge (a.drop (state.i + 1)) := by
      rw [dropA, dropB]
      exact List.cons_merge_cons_neg _ _ _ (by simpa using smaller)
    obtain ⟨next, turn, i, j, kept⟩ := takeA_turn room fits merging someA front
    exact ⟨next, by rw [if_pos smaller, turn], by omega, kept⟩
  · have front : (b.drop state.j).merge (a.drop state.i) =
        b[state.j] :: (b.drop (state.j + 1)).merge (a.drop state.i) := by
      rw [dropA, dropB]
      exact List.cons_merge_cons_pos _ _ _ (by simpa using smaller)
    obtain ⟨next, turn, i, j, kept⟩ := takeB_turn room fits merging someB front
    exact ⟨next, by rw [if_neg smaller, turn], by omega, kept⟩

end Turns

section Loops

variable [LinearOrder α] {a b arr : List α} (room : a.length + b.length ≤ arr.length)
  (fits : arr.length ≤ 2147483647) {fuel : ℕ} (enough : a.length + b.length < fuel)
include room fits enough

theorem both_loop :
    ∃ finish, whileLoop (fun state => state.i < a.length && state.j < b.length) (takeSmallest a b)
        fuel { i := 0, j := 0, n := 0, arr := .untouched arr } = some finish ∧
      (∃ done, Merging a b arr finish done) ∧ (finish.i = a.length ∨ finish.j = b.length) := by
  have initial : ∃ done, Merging a b arr { i := 0, j := 0, n := 0, arr := .untouched arr } done :=
    ⟨[], Nat.zero_le _, Nat.zero_le _, rfl, rfl, rfl, rfl⟩
  obtain ⟨finish, ran, ⟨done, merging⟩, ended⟩ := whileLoop_eq_some
    (fun state => state.i < a.length && state.j < b.length) (takeSmallest a b)
    (fun state => ∃ done, Merging a b arr state done)
    (fun state => a.length + b.length - (state.i + state.j))
    (fun state invariant runs => by
      obtain ⟨done, merging⟩ := invariant
      obtain ⟨someA, someB⟩ : state.i < a.length ∧ state.j < b.length := by simpa using runs
      obtain ⟨next, turn, total, kept⟩ := takeSmallest_turn room fits merging someA someB
      exact ⟨next, turn, kept, by omega⟩)
    initial (show a.length + b.length - (0 + 0) < fuel by omega)
  refine ⟨finish, ran, ⟨done, merging⟩, ?_⟩
  have iLe := merging.i_le
  have jLe := merging.j_le
  simp only [Bool.and_eq_false_iff, decide_eq_false_iff_not] at ended
  omega

/-- Only one vector has elements left after the first loop, so the rest of the
merge is that vector. -/
theorem restA_loop {start : State α} (initial : ∃ done, Merging a b arr start done)
    (either : start.i = a.length ∨ start.j = b.length) :
    ∃ finish, whileLoop (fun state => decide (state.i < a.length)) (takeA a) fuel start =
        some finish ∧
      (∃ done, Merging a b arr finish done) ∧ finish.i = a.length := by
  obtain ⟨finish, ran, ⟨⟨done, merging⟩, _⟩, ended⟩ := whileLoop_eq_some
    (fun state => decide (state.i < a.length)) (takeA a)
    (fun state => (∃ done, Merging a b arr state done) ∧
      (state.i = a.length ∨ state.j = b.length))
    (fun state => a.length - state.i)
    (fun state invariant runs => by
      obtain ⟨⟨done, merging⟩, either⟩ := invariant
      have someA : state.i < a.length := by simpa using runs
      have noneB : b.drop state.j = [] := List.drop_eq_nil_of_le (by omega)
      have front : (b.drop state.j).merge (a.drop state.i) =
          a[state.i] :: (b.drop state.j).merge (a.drop (state.i + 1)) := by
        rw [noneB, List.nil_merge, List.nil_merge, List.drop_eq_getElem_cons someA]
      obtain ⟨next, turn, i, j, kept⟩ := takeA_turn room fits merging someA front
      exact ⟨next, turn, ⟨kept, by omega⟩, by omega⟩)
    ⟨initial, either⟩ (show a.length - start.i < fuel by omega)
  refine ⟨finish, ran, ⟨done, merging⟩, ?_⟩
  have iLe := merging.i_le
  simp only [decide_eq_false_iff_not] at ended
  omega

theorem restB_loop {start : State α} (initial : ∃ done, Merging a b arr start done)
    (emptied : start.i = a.length) :
    ∃ finish, whileLoop (fun state => decide (state.j < b.length)) (takeB b) fuel start =
        some finish ∧ finish.arr = .filled arr (b.merge a) := by
  obtain ⟨finish, ran, ⟨⟨done, merging⟩, emptied⟩, ended⟩ := whileLoop_eq_some
    (fun state => decide (state.j < b.length)) (takeB b)
    (fun state => (∃ done, Merging a b arr state done) ∧ state.i = a.length)
    (fun state => b.length - state.j)
    (fun state invariant runs => by
      obtain ⟨⟨done, merging⟩, emptied⟩ := invariant
      have someB : state.j < b.length := by simpa using runs
      have noneA : a.drop state.i = [] := List.drop_eq_nil_of_le (by omega)
      have front : (b.drop state.j).merge (a.drop state.i) =
          b[state.j] :: (b.drop (state.j + 1)).merge (a.drop state.i) := by
        rw [noneA, List.merge_right, List.merge_right, List.drop_eq_getElem_cons someB]
      obtain ⟨next, turn, i, j, kept⟩ := takeB_turn room fits merging someB front
      exact ⟨next, turn, ⟨kept, by omega⟩, by omega⟩)
    ⟨initial, emptied⟩ (show b.length - start.j < fuel by omega)
  refine ⟨finish, ran, ?_⟩
  simp only [decide_eq_false_iff_not] at ended
  have whole := merging.merge_eq
  rw [List.drop_eq_nil_of_le (Nat.le_of_not_lt ended), List.drop_eq_nil_of_le emptied.ge,
    List.nil_merge, List.append_nil] at whole
  rw [merging.arr_eq, whole]

theorem merge_eq_filled :
    merge fuel a a.length b b.length arr = some (.filled arr (b.merge a)) := by
  obtain ⟨both, bothRan, merging, either⟩ := both_loop room fits enough
  obtain ⟨restA, aRan, merging, emptied⟩ := restA_loop room fits enough merging either
  obtain ⟨restB, bRan, result⟩ := restB_loop room fits enough merging emptied
  simp only [merge, bothRan, aRan, bRan, Option.bind_eq_bind, Option.bind_some, result]
  rfl

end Loops

section CheckSorted

variable [LinearOrder α]

/-- The neighbours at the index are there and in order. -/
def OrderedAt (values : List α) (index : ℕ) : Prop :=
  ∃ value next, values[index]? = some value ∧ values[index + 1]? = some next ∧ value ≤ next

theorem checkSortedLoop_eq_some_true {values : List α} {turns i : ℕ} :
    checkSortedLoop values turns i = some true ↔ ∀ k < turns, OrderedAt values (i + k) := by
  induction turns generalizing i with
  | zero => simp [checkSortedLoop]
  | succ turns ih =>
      have shift : (∀ k < turns + 1, OrderedAt values (i + k)) ↔
          OrderedAt values i ∧ ∀ k < turns, OrderedAt values (i + 1 + k) := by
        rw [Nat.forall_lt_succ_left]
        simp only [Nat.add_zero, Nat.add_right_comm, Nat.add_assoc]
      rw [shift, ← ih]
      simp only [checkSortedLoop, Option.bind_eq_bind, Option.bind_eq_some_iff, OrderedAt]
      constructor
      · intro passed
        obtain ⟨value, found, next, foundNext, passed⟩ := passed
        split at passed
        · cases passed
        · next ordered => exact ⟨⟨value, next, found, foundNext, not_lt.mp ordered⟩, passed⟩
      · intro ordered
        obtain ⟨⟨value, next, found, foundNext, le⟩, rest⟩ := ordered
        exact ⟨value, found, next, foundNext, by rw [if_neg (not_lt.mpr le), rest]⟩

theorem checkSorted_eq_some_true_iff {values : List α} {n : ℕ} (inside : n ≤ values.length) :
    checkSorted values n = some true ↔ (values.take n).Pairwise (· ≤ ·) := by
  rw [checkSorted, checkSortedLoop_eq_some_true, ← List.isChain_iff_pairwise,
    List.isChain_iff_getElem]
  simp only [Nat.zero_add, List.length_take, List.getElem_take]
  constructor
  · intro ordered i below
    obtain ⟨value, next, found, foundNext, le⟩ := ordered i (by omega)
    rw [List.getElem?_eq_getElem (by omega), Option.some.injEq] at found foundNext
    rwa [found, foundNext]
  · intro ordered i below
    exact ⟨_, _, List.getElem?_eq_getElem (by omega), List.getElem?_eq_getElem (by omega),
      ordered i (by omega)⟩

end CheckSorted

section Main

variable [LinearOrder α]

theorem merge_sorted {a b : List α} (sortedA : a.Pairwise (· ≤ ·)) (sortedB : b.Pairwise (· ≤ ·)) :
    (b.merge a).Pairwise (· ≤ ·) := by
  have trans : ∀ x y z : α, decide (x ≤ y) → decide (y ≤ z) → decide (x ≤ z) := by
    intro x y z first second
    simp only [decide_eq_true_eq] at first second ⊢
    exact first.trans second
  have total : ∀ x y : α, decide (x ≤ y) || decide (y ≤ x) := by
    intro x y
    simpa using le_total x y
  simpa using List.pairwise_merge trans total b a (by simpa using sortedB) (by simpa using sortedA)

/-- `merge` writes the merged vector over the first entries of its result, each
entry once, and `checkSorted` accepts it; what `checkSorted` accepts is
ascending. -/
theorem merge_merges (a b arr : Vec α)
    (room : a.elems.length + b.elems.length ≤ arr.elems.length)
    (sortedA : a.elems.Pairwise (· ≤ ·)) (sortedB : b.elems.Pairwise (· ≤ ·)) :
    (∀ fuel, a.elems.length + b.elems.length < fuel →
      ∃ merged result,
        merge fuel a.elems a.elems.length b.elems b.elems.length arr.elems = some result ∧
        result.writes = List.range (a.elems.length + b.elems.length) ∧
        result.values = merged ++ arr.elems.drop (a.elems.length + b.elems.length) ∧
        merged.Pairwise (· ≤ ·) ∧ merged.Perm (a.elems ++ b.elems) ∧
        checkSorted result.values (a.elems.length + b.elems.length) = some true) ∧
    (∀ (values : List α) (n : ℕ), n ≤ values.length → checkSorted values n = some true →
      (values.take n).Pairwise (· ≤ ·)) := by
  have sorted := merge_sorted sortedA sortedB
  have perm : (b.elems.merge a.elems).Perm (a.elems ++ b.elems) :=
    (List.merge_perm_append _).trans List.perm_append_comm
  have length : (b.elems.merge a.elems).length = a.elems.length + b.elems.length := by
    rw [List.length_merge, Nat.add_comm]
  constructor
  · intro fuel enough
    refine ⟨b.elems.merge a.elems, _, merge_eq_filled room arr.length_le enough, ?_, ?_, sorted,
      perm, ?_⟩
    · rw [TracedArray.filled, length]
    · rw [TracedArray.filled, length]
    · have inside : a.elems.length + b.elems.length ≤
          (TracedArray.filled arr.elems (b.elems.merge a.elems)).values.length := by
        simp only [TracedArray.filled, List.length_append, length]
        omega
      rw [checkSorted_eq_some_true_iff inside, TracedArray.filled,
        List.take_append_of_le_length length.ge, List.take_of_length_le length.le]
      exact sorted
  · intro values n inside passed
    exact (checkSorted_eq_some_true_iff inside).mp passed

theorem merge_merges_ties :
    ∃ merged result, merge 10 [1, 3, 3] 3 [2, 3] 2 [0, 0, 0, 0, 0, 7] = some result ∧
      result.writes = List.range 5 ∧ result.values = merged ++ [7] ∧
      merged.Pairwise (· ≤ ·) ∧ merged.Perm [1, 3, 3, 2, 3] ∧
      checkSorted result.values 5 = some true :=
  (merge_merges (α := ℕ) ⟨[1, 3, 3], by decide⟩ ⟨[2, 3], by decide⟩
    ⟨[0, 0, 0, 0, 0, 7], by decide⟩ (by decide) (by decide) (by decide)).1 10 (by decide)

end Main

end Ence360.Distributed.Merge
