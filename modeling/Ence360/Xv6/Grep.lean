import Mathlib.Data.List.Basic
import Mathlib.Tactic.Common

/-!
# `grep` (`lab10xv6/xv6/grep.c`)

The matcher for the operators `^ . * $`, on strings without their final zero, and
the loop that cuts what it reads into lines.
-/

set_option autoImplicit false

namespace Ence360.Xv6.Grep

def star : UInt8 := 42

def dot : UInt8 := 46

def caret : UInt8 := 94

def dollar : UInt8 := 36

def newline : UInt8 := 10

section Matcher

/-- The loop of `matchstar`; `here` is `matchhere` at the expression after the star. -/
def matchstarLoop (here : List UInt8 → Bool) (c : UInt8) : List UInt8 → Bool
  | [] => here []
  | t :: text => here (t :: text) || ((t == c || c == dot) && matchstarLoop here c text)

def matchhere : List UInt8 → List UInt8 → Bool
  | [], _ => true
  | [c], text =>
      if c = dollar then text.isEmpty
      else
        match text with
        | [] => false
        | t :: _ => c == dot || c == t
  | c :: d :: re, text =>
      if d = star then matchstarLoop (matchhere re) c text
      else
        match text with
        | [] => false
        | t :: text => (c == dot || c == t) && matchhere (d :: re) text

def matchstar (c : UInt8) (re text : List UInt8) : Bool :=
  matchstarLoop (matchhere re) c text

/-- The loop of `match`, which also looks at the empty string. -/
def matchLoop (re : List UInt8) : List UInt8 → Bool
  | [] => matchhere re []
  | t :: text => matchhere re (t :: text) || matchLoop re text

/-- `match`. -/
def matchText (re text : List UInt8) : Bool :=
  match re with
  | [] => matchLoop re text
  | c :: rest => if c = caret then matchhere rest text else matchLoop re text

end Matcher

section Lines

/-- `strchr`, as the offset of the character. -/
def strchr (s : List UInt8) (c : UInt8) : Option ℕ :=
  (s.takeWhile (· ≠ 0)).findIdx? (· = c)

/-- The inner loop of `grep` from `p` on: what it writes, and where `p` ends up. -/
def grepLines (pattern : List UInt8) : ℕ → List UInt8 → List UInt8 × List UInt8
  | 0, p => ([], p)
  | fuel + 1, p =>
      match strchr p newline with
      | none => ([], p)
      | some q =>
          let line := p.take q
          let (written, rest) := grepLines pattern fuel (p.drop (q + 1))
          (if matchText pattern line then line ++ newline :: written else written, rest)

def bufSize : ℕ := 1024

/-- The bytes that stay in `buf` for the next turn: none when there was no line, else
what `memmove` brings to the front. -/
def keep (buf p : List UInt8) : List UInt8 :=
  if p.length = buf.length then [] else p

/-- `grep`, with `m` bytes of `buf` filled. At its `i`-th turn `read` has up to
`ready i` bytes for it. -/
def grepLoop (pattern : List UInt8) (ready : ℕ → ℕ) :
    ℕ → ℕ → List UInt8 → List UInt8 → List UInt8
  | 0, _, _, _ => []
  | fuel + 1, i, buf, input =>
      let n := min (ready i) (min (bufSize - buf.length - 1) input.length)
      if n = 0 then []
      else
        let buf := buf ++ input.take n
        let (written, p) := grepLines pattern buf.length buf
        written ++ grepLoop pattern ready fuel (i + 1) (keep buf p) (input.drop n)

def grep (pattern : List UInt8) (ready : ℕ → ℕ) (input : List UInt8) : List UInt8 :=
  grepLoop pattern ready (input.length + 1) 0 [] input

end Lines

end Ence360.Xv6.Grep
