import Ence360.Assignment.QueryReader

/-!
# The queries that are executed

`getValidInput` is compared with the queries that the fields of the input spell. The
two agree as long as the groups are well formed, so the first group that is not
decides.
-/

set_option autoImplicit false

namespace Ence360.Assignment.QueryReader

open Semantics.Scanf

section Reading

variable {input rest : List Byte} {query : ReadQuery}

theorem executed_of_none (ended : getValidInput input = none) : executed input = [] := by
  rw [executed]
  split
  · rfl
  · next valid => rw [ended] at valid; cases valid

theorem executed_of_some (valid : getValidInput input = some (query, rest)) :
    executed input = query :: executed rest := by
  rw [executed]
  split
  · next ended => rw [valid] at ended; cases ended
  · next same =>
      rw [valid] at same
      cases same
      rfl

theorem executed_eq_nil_iff : executed input = [] ↔ (getValidInput input).isSome = false := by
  cases valid : getValidInput input with
  | none => simp [executed_of_none valid]
  | some read =>
      obtain ⟨query, rest⟩ := read
      simp [executed_of_some valid]

end Reading

section Groups

variable {input token : List Byte} {rest : List (List Byte)}

theorem tokens_eq_cons (split : tokens input = token :: rest) :
    firstToken input = token ∧ token ≠ [] ∧ tokens (dropToken input) = rest := by
  by_cases empty : firstToken input = []
  · rw [tokens_of_firstToken_nil empty] at split
    cases split
  · rw [tokens_of_firstToken_ne_nil empty] at split
    cases split
    exact ⟨rfl, empty, rfl⟩

theorem firstToken_of_tokens_nil (split : tokens input = []) : firstToken input = [] := by
  by_cases empty : firstToken input = []
  · exact empty
  · rw [tokens_of_firstToken_ne_nil empty] at split
    cases split

theorem tokens_iterate_dropToken (n : ℕ) (input : List Byte) :
    tokens (dropToken^[n] input) = (tokens input).drop n := by
  induction n generalizing input with
  | zero => rfl
  | succ n ih =>
      rw [Function.iterate_succ_apply, ih]
      cases split : tokens input with
      | nil =>
          have empty := skipSpace_of_firstToken_nil (firstToken_of_tokens_nil split)
          have ended : dropToken input = [] := by simp [dropToken, empty]
          rw [ended, show tokens [] = [] from rfl, List.drop_nil, List.drop_nil]
      | cons token rest =>
          rw [(tokens_eq_cons split).2.2]
          rfl

theorem groupQuery_eq_some {name start finish count : List Byte} {query : ReadQuery}
    (formed : groupQuery name start finish count = some query) :
    isNumeral start ∧ isNumeral finish ∧ numeralValue start ≤ numeralValue finish ∧
      isCount count ∧ ∃ func, MathFunc.ofName name = some func ∧
        query = { func, start := .finite (numeralValue start),
                  finish := .finite (numeralValue finish), numSteps := decimalValue count } := by
  simp only [groupQuery] at formed
  split at formed
  · next shape =>
      obtain ⟨func, known, same⟩ := Option.map_eq_some_iff.mp formed
      exact ⟨shape.1, shape.2.1, shape.2.2.1, shape.2.2.2, func, known, same.symm⟩
  · cases formed

theorem ofName_eq_some {name : List Byte} {func : MathFunc}
    (known : MathFunc.ofName name = some func) :
    name.length ≤ 9 ∧ cString (name.take 9) = name := by
  simp only [MathFunc.ofName] at known
  split at known
  · next same => subst same; decide
  · split at known
    · next same => subst same; decide
    · split at known
      · next same => subst same; decide
      · cases known

theorem isCount_eq_true {count : List Byte} (counts : isCount count) :
    (∀ byte ∈ count, isDigit byte) ∧ 0 < decimalValue count ∧ decimalValue count < 2 ^ 64 := by
  simp only [isCount, Bool.and_eq_true, List.all_eq_true, decide_eq_true_eq] at counts
  exact ⟨counts.1.1, counts.1.2, counts.2⟩

theorem scanSign_of_digits {count : List Byte} (all : ∀ byte ∈ count, isDigit byte) :
    scanSign count = (false, count) := by
  cases count with
  | nil => rfl
  | cons byte rest =>
      have digit := all byte List.mem_cons_self
      simp only [isDigit, Bool.and_eq_true, decide_eq_true_eq] at digit
      have minus : '-'.toNat = 45 := rfl
      have plus : '+'.toNat = 43 := rfl
      have notMinus : isByte '-' byte = false := by
        simp only [isByte, decide_eq_false_iff_not]
        omega
      have notPlus : isByte '+' byte = false := by
        simp only [isByte, decide_eq_false_iff_not]
        omega
      simp [scanSign, notMinus, notPlus]

end Groups

section Conversions

variable {input : List Byte}

theorem scanRange_of_leadingDigits {start finish count : List Byte} {rest : List (List Byte)}
    (split : tokens input = start :: finish :: count :: rest)
    (startNumeral : isNumeral start) (finishNumeral : isNumeral finish) :
    scanRange input =
      if leadingDigits count = [] then none
      else some ((.finite (numeralValue start), .finite (numeralValue finish),
        strtoul (scanSign count).1 (decimalValue (leadingDigits count))),
        (scanSign count).2.dropWhile isDigit ++ dropToken^[3] input) := by
  obtain ⟨first, -, split⟩ := tokens_eq_cons split
  obtain ⟨second, -, split⟩ := tokens_eq_cons split
  obtain ⟨third, -, -⟩ := tokens_eq_cons split
  subst first second third
  simp only [scanRange, scanFloat_of_isNumeral startNumeral, scanFloat_of_isNumeral finishNumeral,
    Option.bind_eq_bind, Option.bind_some]
  split_ifs with digits
  · rw [scanSize_of_leadingDigits_nil digits]
    rfl
  · rw [scanSize_of_leadingDigits_ne_nil digits]
    rfl

theorem scanRange_of_length_lt (name : List Byte)
    (numerals : rangesNumeral (name :: tokens input)) (short : (tokens input).length < 3) :
    scanRange input = none := by
  have scanFloat_end : ∀ {ended : List Byte}, tokens ended = [] → scanFloat ended = none := by
    intro ended none
    have empty := skipSpace_of_firstToken_nil (firstToken_of_tokens_nil none)
    simp [scanFloat, empty, scanSign, scanMagnitude]
  cases split : tokens input with
  | nil => simp [scanRange, scanFloat_end split]
  | cons start others =>
      obtain ⟨first, -, afterStart⟩ := tokens_eq_cons split
      rw [split] at numerals short
      cases others with
      | nil =>
          have startNumeral : isNumeral (firstToken input) := by
            rw [first]
            exact numerals
          simp [scanRange, scanFloat_of_isNumeral startNumeral, scanFloat_end afterStart]
      | cons finish others =>
          obtain ⟨second, -, afterFinish⟩ := tokens_eq_cons afterStart
          cases others with
          | nil =>
              simp only [rangesNumeral, Bool.and_eq_true] at numerals
              rw [← first, ← second] at numerals
              have digits : leadingDigits (firstToken (dropToken (dropToken input))) = [] := by
                rw [firstToken_of_tokens_nil afterFinish]
                rfl
              simp [scanRange, scanFloat_of_isNumeral numerals.1,
                scanFloat_of_isNumeral numerals.2, scanSize_of_leadingDigits_nil digits]
          | cons count others =>
              simp only [List.length_cons] at short
              omega

theorem getValidInput_of_firstToken_nil (empty : firstToken input = []) :
    getValidInput input = none := by
  simp [getValidInput, scanString_of_firstToken_nil empty]

theorem getValidInput_of_firstToken_ne_nil (present : firstToken input ≠ []) :
    getValidInput input =
      (scanRange ((firstToken input).drop 9 ++ dropToken input)).bind
        fun ((start, finish, numSteps), rest) =>
          (MathFunc.ofName (cString ((firstToken input).take 9))).bind fun func =>
            if finish.ge start ∧ numSteps > 0 then
              some ({ func, start, finish, numSteps }, rest)
            else none := by
  simp only [getValidInput, scanString_of_firstToken_ne_nil (Nat.succ_pos 8) present,
    Option.bind_eq_bind, Option.bind_some]
  rfl

theorem getValidInput_isSome (present : firstToken input ≠ []) :
    (getValidInput input).isSome =
      ((MathFunc.ofName (cString ((firstToken input).take 9))).isSome &&
        (scanRange ((firstToken input).drop 9 ++ dropToken input)).any
          fun ((start, finish, numSteps), _) => finish.ge start && 0 < numSteps) := by
  rw [getValidInput_of_firstToken_ne_nil present]
  cases scanned : scanRange ((firstToken input).drop 9 ++ dropToken input) with
  | none => simp
  | some read =>
      cases known : MathFunc.ofName (cString ((firstToken input).take 9)) with
      | none => simp
      | some func =>
          simp only [Option.bind_some, Option.isSome_some, Option.any_some, Bool.true_and]
          split <;> simp_all

/-- A well-formed group is read as its query and no further. -/
theorem getValidInput_of_groupQuery {name start finish count : List Byte}
    {rest : List (List Byte)} {query : ReadQuery}
    (split : tokens input = name :: start :: finish :: count :: rest)
    (formed : groupQuery name start finish count = some query) :
    getValidInput input = some (query, dropToken^[4] input) := by
  obtain ⟨startNumeral, finishNumeral, ordered, counts, func, known, same⟩ :=
    groupQuery_eq_some formed
  obtain ⟨first, present, remaining⟩ := tokens_eq_cons split
  subst first same
  obtain ⟨all, positive, small⟩ := isCount_eq_true counts
  have digits : leadingDigits count = count := by
    simp only [leadingDigits, scanSign_of_digits all]
    exact List.takeWhile_eq_self_iff.mpr all
  have nonempty : count ≠ [] := by
    intro empty
    rw [empty] at positive
    exact Nat.lt_irrefl 0 positive
  have nothing : count.dropWhile isDigit = [] := List.dropWhile_eq_nil_iff.mpr all
  obtain ⟨short, terminated⟩ := ofName_eq_some known
  rw [getValidInput_of_firstToken_ne_nil present, List.drop_eq_nil_of_le short, List.nil_append,
    scanRange_of_leadingDigits remaining startNumeral finishNumeral, terminated, known, digits,
    if_neg nonempty, scanSign_of_digits all, strtoul_of_lt small, nothing]
  have ge : (Number.finite (numeralValue finish)).ge (.finite (numeralValue start)) := by
    simpa using ordered
  simp only [Option.bind_some, ge, positive, gt_iff_lt, and_self, if_true, List.nil_append]
  rfl

theorem getValidInput_isSome_eq_overlooked (numerals : rangesNumeral (tokens input)) :
    (getValidInput input).isSome = overlooked input := by
  by_cases empty : firstToken input = []
  · rw [getValidInput_of_firstToken_nil empty]
    simp [overlooked, empty, show MathFunc.ofName (cString []) = none from by decide]
  · rw [getValidInput_isSome empty]
    rw [tokens_of_firstToken_ne_nil empty] at numerals
    simp only [overlooked]
    congr 1
    split
    · next short =>
        rw [List.drop_eq_nil_of_le short, List.nil_append]
        split
        · next start finish count rest remaining =>
            rw [remaining] at numerals
            simp only [rangesNumeral, Bool.and_eq_true] at numerals
            rw [scanRange_of_leadingDigits remaining numerals.1.1 numerals.1.2]
            split
            · next digits => simp [digits, decimalValue]
            · simp [strtoul_pos_iff]
        · next few =>
            rw [scanRange_of_length_lt (firstToken input) numerals]
            · rfl
            · rcases remaining : tokens (dropToken input) with _ | ⟨start, _ | ⟨finish, _ | rest⟩⟩
              · decide
              · simp
              · simp
              · exact absurd remaining (few start finish _ _)
    · rfl

end Conversions

section Loop

theorem rangesNumeral_drop (groups : ℕ) (fields : List (List Byte))
    (numerals : rangesNumeral fields) :
    rangesNumeral (fields.drop (4 * groups)) := by
  induction groups generalizing fields with
  | zero => exact numerals
  | succ groups ih =>
      match fields with
      | [] | [_] | [_, _] | [_, _, _] => simp [rangesNumeral, Nat.mul_succ]
      | _ :: _ :: _ :: _ :: rest =>
          simp only [rangesNumeral, Bool.and_eq_true] at numerals
          exact ih rest numerals.2

/-- The loop runs the well-formed groups and goes on from the first other one. -/
theorem executed_eq_intended_append (input : List Byte) :
    executed input = intended (tokens input) ++ executed (remainder input) := by
  -- The induction follows the groups of the token list.
  generalize split : tokens input = fields
  induction fields using intended.induct generalizing input with
  | case1 name start finish count rest query formed ih =>
      have valid := getValidInput_of_groupQuery split formed
      have after : tokens (dropToken^[4] input) = rest := by
        rw [tokens_iterate_dropToken, split]
        rfl
      have grouped : intended (tokens input) = query :: intended rest := by
        simp [split, intended, formed]
      have same : remainder (dropToken^[4] input) = remainder input := by
        simp only [remainder, after, grouped, List.length_cons, Nat.mul_succ,
          Function.iterate_add_apply]
      rw [executed_of_some valid, ih _ after, same]
      simp [intended, formed]
  | case2 name start finish count rest formed =>
      have grouped : intended (tokens input) = [] := by simp [split, intended, formed]
      simp [← split, remainder, grouped]
  | case3 fields short =>
      have grouped : intended (tokens input) = [] := by
        rw [split]
        unfold intended
        split
        · next name start finish count rest => exact absurd rfl (short name start finish count rest)
        · rfl
      simp [← split, remainder, grouped]

/-- With numerals in the range fields the loop runs exactly the well-formed
queries unless the first group that is not well formed is overlooked. -/
theorem executed_eq_intended_iff (input : List Byte) (numerals : rangesNumeral (tokens input)) :
    executed input = intended (tokens input) ↔ overlooked (remainder input) = false := by
  have remaining : rangesNumeral (tokens (remainder input)) := by
    rw [remainder, tokens_iterate_dropToken]
    exact rangesNumeral_drop _ _ numerals
  rw [← getValidInput_isSome_eq_overlooked remaining, ← executed_eq_nil_iff]
  rw [executed_eq_intended_append input]
  exact List.append_right_eq_self

theorem executed_eq_intended_five :
    let input := bytes ['s', 'i', 'n', ' ', '0', ' ', '1', ' ', '5']
    rangesNumeral (tokens input) ∧ overlooked (remainder input) = false ∧
      executed input = intended (tokens input) := by
  intro input
  have numerals : rangesNumeral (tokens input) := by decide
  have holds : overlooked (remainder input) = false := by decide
  exact ⟨numerals, holds, (executed_eq_intended_iff input numerals).mpr holds⟩

/-- A negative number of steps is not well formed, but the loop runs it. -/
theorem executed_ne_intended_negative :
    let input := bytes ['s', 'i', 'n', ' ', '0', ' ', '1', ' ', '-', '1']
    rangesNumeral (tokens input) ∧
      executed input = [⟨.sin, .finite 0, .finite 1, 2 ^ 64 - 1⟩] ∧
      executed input ≠ intended (tokens input) := by
  intro input
  have valid : getValidInput input = some (⟨.sin, .finite 0, .finite 1, 2 ^ 64 - 1⟩, []) := by
    decide +kernel
  have runs : executed input = [⟨.sin, .finite 0, .finite 1, 2 ^ 64 - 1⟩] := by
    rw [executed_of_some valid, executed_of_none (by decide)]
  have empty : intended (tokens input) = [] := by decide
  refine ⟨by decide, runs, ?_⟩
  rw [runs, empty]
  exact List.cons_ne_nil _ _

end Loop

end Ence360.Assignment.QueryReader
