import Ence360.Semantics.ScanfProperties

/-!
# The query reader (`getValidInput` of the assignment programs)

The four programs share `getValidInput` and the loop that calls it until it
returns false. A query that has been read holds the numbers as `scanf` converts
them. The second half says which queries an input is meant to hold.
-/

set_option autoImplicit false

namespace Ence360.Assignment.QueryReader

open Semantics.Scanf

inductive MathFunc where
  | sin
  | gaussian
  | chargeDecay
  deriving DecidableEq

def bytes (text : List Char) : List Byte :=
  text.map fun char => UInt8.ofNat char.toNat

namespace MathFunc

def ofName (name : List Byte) : Option MathFunc :=
  if name = bytes ['s', 'i', 'n'] then some sin
  else if name = bytes ['g', 'a', 'u', 's', 's'] then some gaussian
  else if name = bytes ['d', 'e', 'c', 'a', 'y'] then some chargeDecay
  else none

end MathFunc

structure ReadQuery where
  func : MathFunc
  start : Number
  finish : Number
  numSteps : ℕ
  deriving DecidableEq

/-- What `strcmp` sees of the bytes that `%9s` has stored. -/
def cString (stored : List Byte) : List Byte :=
  stored.takeWhile fun byte => byte ≠ 0

/-- The `%lf %lf %zu` of the format string, when all three conversions succeed. -/
def scanRange (input : List Byte) : Option ((Number × Number × ℕ) × List Byte) := do
  let (start, afterStart) ← scanFloat input
  let (finish, afterFinish) ← scanFloat afterStart
  let (numSteps, rest) ← scanSize afterFinish
  return ((start, finish, numSteps), rest)

/-- The query and the rest of the stream when `getValidInput` returns true. After
fewer than four conversions the stored values do not matter: it returns false. -/
def getValidInput (input : List Byte) : Option (ReadQuery × List Byte) := do
  let (funcName, afterName) ← scanString 9 input
  let ((start, finish, numSteps), rest) ← scanRange afterName
  let func ← MathFunc.ofName (cString funcName)
  if finish.ge start ∧ numSteps > 0 then return ({ func, start, finish, numSteps }, rest)
  else none

theorem scanRange_suffix {input rest : List Byte} {range : Number × Number × ℕ}
    (scanned : scanRange input = some (range, rest)) : rest <:+ input := by
  obtain ⟨⟨start, afterStart⟩, first, scanned⟩ := Option.bind_eq_some_iff.mp scanned
  obtain ⟨⟨finish, afterFinish⟩, second, scanned⟩ := Option.bind_eq_some_iff.mp scanned
  obtain ⟨⟨numSteps, after⟩, third, scanned⟩ := Option.bind_eq_some_iff.mp scanned
  cases scanned
  exact (scanSize_suffix third).trans ((scanFloat_suffix second).trans (scanFloat_suffix first))

theorem getValidInput_length_lt {input rest : List Byte} {query : ReadQuery}
    (valid : getValidInput input = some (query, rest)) : rest.length < input.length := by
  obtain ⟨⟨funcName, afterName⟩, named, valid⟩ := Option.bind_eq_some_iff.mp valid
  obtain ⟨⟨range, after⟩, ranged, valid⟩ := Option.bind_eq_some_iff.mp valid
  obtain ⟨func, known, valid⟩ := Option.bind_eq_some_iff.mp valid
  split at valid
  · cases valid
    exact Nat.lt_of_le_of_lt (scanRange_suffix ranged).length_le (scanString_length_lt named)
  · cases valid

/-- The queries that the loop of `main` integrates, in order. -/
def executed (input : List Byte) : List ReadQuery :=
  match _ : getValidInput input with
  | none => []
  | some (query, rest) => query :: executed rest
termination_by input.length
decreasing_by exact getValidInput_length_lt (by assumption)

section Intended

/-- Decimal digits only, with a value that a `size_t` holds and that is not zero. -/
def isCount (token : List Byte) : Bool :=
  token.all isDigit && 0 < decimalValue token && decimalValue token < 2 ^ 64

def groupQuery (name start finish count : List Byte) : Option ReadQuery :=
  if isNumeral start ∧ isNumeral finish ∧ numeralValue start ≤ numeralValue finish ∧
      isCount count then
    (MathFunc.ofName name).map fun func =>
      { func
        start := .finite (numeralValue start)
        finish := .finite (numeralValue finish)
        numSteps := decimalValue count }
  else none

def intended : List (List Byte) → List ReadQuery
  | name :: start :: finish :: count :: rest =>
      match groupQuery name start finish count with
      | some query => query :: intended rest
      | none => []
  | _ => []

/-- The range fields, the second and the third token of every group, are numerals. -/
def rangesNumeral : List (List Byte) → Bool
  | [_, start] => isNumeral start
  | [_, start, finish] => isNumeral start && isNumeral finish
  | _ :: start :: finish :: _ :: rest =>
      isNumeral start && isNumeral finish && rangesNumeral rest
  | _ => true

/-- The input from the first group on that is not well formed. -/
def remainder (input : List Byte) : List Byte :=
  dropToken^[4 * (intended (tokens input)).length] input

/-- The group that the input starts with passes for a query: its name counts only
up to a null byte, and of its last token only the leading digits matter, whatever
their sign and size. What `%9s` leaves of a longer name is read in place of the
tokens that follow it. -/
def overlooked (input : List Byte) : Bool :=
  let name := firstToken input
  (MathFunc.ofName (cString (name.take 9))).isSome &&
    if name.length ≤ 9 then
      match tokens (dropToken input) with
      | start :: finish :: count :: _ =>
          numeralValue start ≤ numeralValue finish && 0 < decimalValue (leadingDigits count)
      | _ => false
    else
      (scanRange (name.drop 9 ++ dropToken input)).any fun ((start, finish, numSteps), _) =>
        finish.ge start && 0 < numSteps

end Intended

end Ence360.Assignment.QueryReader
