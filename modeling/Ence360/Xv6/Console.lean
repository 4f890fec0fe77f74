import Ence360.Semantics.Transition
import Mathlib.Logic.Function.Basic

/-!
# Input from the console (`lab10xv6/xv6/console.c`)

Keys come one by one from the loop of `consoleintr`. A call of `consoleread` runs
until it returns or sleeps, and goes on later with the bytes it has.
-/

set_option autoImplicit false

namespace Ence360.Xv6.Console

open Semantics

def inputBuf : UInt32 := 128

def newline : UInt8 := 10

def ret : UInt8 := 13

def backspace : UInt8 := 8

def delete : UInt8 := 127

/-- `C('D')`. -/
def ctrlD : UInt8 := 4

def ctrlP : UInt8 := 16

def ctrlU : UInt8 := 21

structure Input where
  buf : ℕ → UInt8
  r : UInt32
  w : UInt32
  e : UInt32

section Keys

/-- The loop for `C('U')`, which makes at most `e - w` turns. -/
def killLine : ℕ → Input → Input
  | 0, input => input
  | turns + 1, input =>
      if input.e ≠ input.w ∧ input.buf ((input.e - 1) % inputBuf).toNat ≠ newline then
        killLine turns { input with e := input.e - 1 }
      else input

/-- One turn of the loop of `consoleintr`. -/
def consoleintr (input : Input) (c : UInt8) : Input :=
  if c = ctrlP then input
  else if c = ctrlU then killLine (input.e - input.w).toNat input
  else if c = backspace ∨ c = delete then
    if input.e ≠ input.w then { input with e := input.e - 1 } else input
  else if c ≠ 0 ∧ input.e - input.r < inputBuf then
    let c := if c = ret then newline else c
    let input := { input with
      buf := Function.update input.buf (input.e % inputBuf).toNat c
      e := input.e + 1 }
    if c = newline ∨ c = ctrlD ∨ input.e = input.r + inputBuf then { input with w := input.e }
    else input
  else input

end Keys

section Read

/-- `n` bytes are still wanted of `target`; whether the call has returned. -/
def consoleread (target : ℕ) : ℕ → Input → List UInt8 → Input × List UInt8 × Bool
  | 0, input, dst => (input, dst, true)
  | n + 1, input, dst =>
      if input.r = input.w then (input, dst, false)
      else
        let c := input.buf (input.r % inputBuf).toNat
        let input := { input with r := input.r + 1 }
        if c = ctrlD then
          if n + 1 < target then ({ input with r := input.r - 1 }, dst, true)
          else (input, dst, true)
        else if c = newline then (input, dst ++ [c], true)
        else consoleread target n input (dst ++ [c])

end Read

/-- The console and the answers so far. -/
structure State where
  input : Input
  answers : List (List UInt8 × Bool)

inductive Action where
  | key (c : UInt8)
  /-- Some call for `target` bytes that has `dst` begins or goes on. -/
  | read (target : ℕ) (dst : List UInt8)

def system : System State Action where
  initial state := state.input.r = 0 ∧ state.input.w = 0 ∧ state.input.e = 0 ∧ state.answers = []
  step state action :=
    match action with
    | .key c => some { state with input := consoleintr state.input c }
    | .read target dst =>
        let (input, answer) := consoleread target (target - dst.length) state.input dst
        some ⟨input, state.answers ++ [answer]⟩

end Ence360.Xv6.Console
