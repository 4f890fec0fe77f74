import Mathlib.Data.Rat.Defs
import Mathlib.Algebra.Order.Ring.Rat

/-!
# Formatted input

The `scanf` conversions of strings, floating-point numbers and `size_t` numbers
on a stream of bytes, in the C locale and as C11 describes them: the input item
is the longest sequence that is a matching sequence or the start of one, and a
conversion has no result when its item does not match. Numbers are exact.
-/

set_option autoImplicit false

namespace Ence360.Semantics.Scanf

abbrev Byte := UInt8

def isSpace (byte : Byte) : Bool :=
  byte.toNat = 32 || (9 ≤ byte.toNat && byte.toNat ≤ 13)

def isDigit (byte : Byte) : Bool :=
  48 ≤ byte.toNat && byte.toNat ≤ 57

/-- The byte is the given lower-case letter in either case. -/
def isLetter (letter : Char) (byte : Byte) : Bool :=
  byte.toNat = letter.toNat || byte.toNat + 32 = letter.toNat

def isByte (char : Char) (byte : Byte) : Bool :=
  byte.toNat = char.toNat

def skipSpace (input : List Byte) : List Byte :=
  input.dropWhile isSpace

/-- `%<limit>s`. -/
def scanString (limit : ℕ) (input : List Byte) : Option (List Byte × List Byte) :=
  let stream := skipSpace input
  let word := (stream.takeWhile fun byte => !isSpace byte).take limit
  if word = [] then none else some (word, stream.drop word.length)

/-- An optional sign: whether it is a minus, and what follows. -/
def scanSign : List Byte → Bool × List Byte
  | [] => (false, [])
  | byte :: rest =>
      if isByte '-' byte then (true, rest)
      else if isByte '+' byte then (false, rest)
      else (false, byte :: rest)

def decimalValue (digits : List Byte) : ℕ :=
  digits.foldl (fun value byte => value * 10 + (byte.toNat - 48)) 0

/-- The result of `strtoul` for a 64-bit `unsigned long`. -/
def strtoul (negative : Bool) (value : ℕ) : ℕ :=
  if 2 ^ 64 ≤ value then 2 ^ 64 - 1
  else if negative then (2 ^ 64 - value) % 2 ^ 64
  else value

/-- `%zu`. -/
def scanSize (input : List Byte) : Option (ℕ × List Byte) :=
  let (negative, body) := scanSign (skipSpace input)
  let digits := body.takeWhile isDigit
  if digits = [] then none
  else some (strtoul negative (decimalValue digits), body.dropWhile isDigit)

inductive Number where
  | finite (value : ℚ)
  | infinity (negative : Bool)
  | nan
  deriving DecidableEq

namespace Number

def neg : Number → Number
  | finite value => finite (-value)
  | infinity negative => infinity !negative
  | nan => nan

/-- The operator `>=`. -/
def ge : Number → Number → Bool
  | nan, _ | _, nan => false
  | finite left, finite right => right ≤ left
  | finite _, infinity negative => negative
  | infinity negative, finite _ => !negative
  | infinity left, infinity right => !left || right

end Number

/-- The digits and the exponent of a decimal or hexadecimal number. -/
structure Radix where
  base : ℕ
  digit : Byte → Option ℕ
  exponentLetter : Char
  exponentBase : ℕ

namespace Radix

def decimal : Radix where
  base := 10
  digit byte := if isDigit byte then some (byte.toNat - 48) else none
  exponentLetter := 'e'
  exponentBase := 10

def hexadecimal : Radix where
  base := 16
  digit byte :=
    if isDigit byte then some (byte.toNat - 48)
    else if 97 ≤ byte.toNat ∧ byte.toNat ≤ 102 then some (byte.toNat - 87)
    else if 65 ≤ byte.toNat ∧ byte.toNat ≤ 70 then some (byte.toNat - 55)
    else none
  exponentLetter := 'p'
  exponentBase := 2

variable (radix : Radix)

def isDigit (byte : Byte) : Bool :=
  (radix.digit byte).isSome

def value (digits : List Byte) : ℕ :=
  digits.foldl (fun value byte => value * radix.base + (radix.digit byte).getD 0) 0

/-- An exponent that is begun must have digits. -/
def scanExponent : List Byte → Option (ℤ × List Byte)
  | [] => some (0, [])
  | letter :: rest =>
      if isLetter radix.exponentLetter letter then
        let (negative, body) := scanSign rest
        let digits := body.takeWhile Scanf.isDigit
        if digits = [] then none
        else
          let exponent : ℤ := decimalValue digits
          some (if negative then -exponent else exponent, body.dropWhile Scanf.isDigit)
      else some (0, letter :: rest)

def scanFraction : List Byte → List Byte × List Byte
  | [] => ([], [])
  | point :: rest =>
      if isByte '.' point then (rest.takeWhile radix.isDigit, rest.dropWhile radix.isDigit)
      else ([], point :: rest)

/-- Digits with an optional point among them and an optional exponent. -/
def scanFixed (body : List Byte) : Option (Number × List Byte) :=
  let whole := body.takeWhile radix.isDigit
  let (fraction, afterFraction) := radix.scanFraction (body.dropWhile radix.isDigit)
  if whole = [] ∧ fraction = [] then none
  else
    (radix.scanExponent afterFraction).map fun (exponent, rest) =>
      (.finite (radix.value (whole ++ fraction) / radix.base ^ fraction.length *
        (radix.exponentBase : ℚ) ^ exponent), rest)

end Radix

def scanWord : List Char → List Byte → Option (List Byte)
  | [], input => some input
  | _ :: _, [] => none
  | letter :: letters, byte :: rest =>
      if isLetter letter byte then scanWord letters rest else none

/-- What follows the `i` of `inf` or `infinity`. -/
def scanInfinity (input : List Byte) : Option (Number × List Byte) :=
  (scanWord ['n', 'f'] input).bind fun rest =>
    match rest with
    | [] => some (.infinity false, [])
    | byte :: _ =>
        if isLetter 'i' byte then
          (scanWord ['i', 'n', 'i', 't', 'y'] rest).map fun rest => (.infinity false, rest)
        else some (.infinity false, rest)

def isNanChar (byte : Byte) : Bool :=
  isDigit byte || (97 ≤ byte.toNat && byte.toNat ≤ 122) ||
    (65 ≤ byte.toNat && byte.toNat ≤ 90) || isByte '_' byte

/-- What follows the `n` of `nan` or of `nan` with a sequence in parentheses. -/
def scanNan (input : List Byte) : Option (Number × List Byte) :=
  (scanWord ['a', 'n'] input).bind fun rest =>
    match rest with
    | [] => some (.nan, [])
    | byte :: sequence =>
        if isByte '(' byte then
          match sequence.dropWhile isNanChar with
          | [] => none
          | last :: rest => if isByte ')' last then some (.nan, rest) else none
        else some (.nan, rest)

def scanMagnitude : List Byte → Option (Number × List Byte)
  | [] => none
  | first :: rest =>
      if isLetter 'i' first then scanInfinity rest
      else if isLetter 'n' first then scanNan rest
      else
        match rest with
        | [] => Radix.decimal.scanFixed [first]
        | second :: digits =>
            if isByte '0' first && isLetter 'x' second then Radix.hexadecimal.scanFixed digits
            else Radix.decimal.scanFixed (first :: rest)

/-- `%lf`. -/
def scanFloat (input : List Byte) : Option (Number × List Byte) :=
  let (negative, body) := scanSign (skipSpace input)
  (scanMagnitude body).map fun (number, rest) =>
    (if negative then number.neg else number, rest)

/-- The maximal sequences without white space. -/
def tokens (input : List Byte) : List (List Byte) :=
  (input.splitOnP isSpace).filter fun token => !token.isEmpty

def firstToken (input : List Byte) : List Byte :=
  (skipSpace input).takeWhile fun byte => !isSpace byte

def dropToken (input : List Byte) : List Byte :=
  (skipSpace input).dropWhile fun byte => !isSpace byte

def isNumeral (token : List Byte) : Bool :=
  let body := (scanSign token).2
  !body.isEmpty && body.all isDigit

def numeralValue (token : List Byte) : ℤ :=
  let (negative, body) := scanSign token
  if negative then -decimalValue body else decimalValue body

/-- The decimal digits that a token starts with, after an optional sign. -/
def leadingDigits (token : List Byte) : List Byte :=
  (scanSign token).2.takeWhile isDigit

end Ence360.Semantics.Scanf
