import Mathlib.Data.List.Basic
import Mathlib.Tactic.Common

/-!
# The parser of the shell (`lab10xv6/xv6/sh.c`)

Pointers into the line are positions in it; `es`, the position of its final zero,
is its length. Each function has fuel for its loop or for the calls below it, and
says so when it runs out.
-/

set_option autoImplicit false

namespace Ence360.Xv6.Sh

def maxArgs : ℕ := 10

/-- `" \t\r\n\v"`. -/
def whitespace : List UInt8 := [32, 9, 13, 10, 11]

def bar : UInt8 := 124

def lparen : UInt8 := 40

def rparen : UInt8 := 41

def semi : UInt8 := 59

def amp : UInt8 := 38

def less : UInt8 := 60

def greater : UInt8 := 62

/-- What `gettoken` returns for `>>`. -/
def append : UInt8 := 43

/-- What `gettoken` returns for a word. -/
def word : UInt8 := 97

def symbols : List UInt8 := [less, bar, greater, amp, semi, lparen, rparen]

inductive Mode where
  | rdonly
  | wronlyCreate
  deriving DecidableEq

/-- The bytes from `start` up to `stop`. -/
structure Span where
  start : ℕ
  stop : ℕ
  deriving DecidableEq

structure Redirection where
  file : Span
  mode : Mode
  fd : ℕ
  deriving DecidableEq

inductive Cmd where
  | exec (argv : List Span)
  | redir (cmd : Cmd) (redirection : Redirection)
  | pipe (left right : Cmd)
  | list (left right : Cmd)
  | back (cmd : Cmd)
  deriving DecidableEq

/-- Where the parser panics; `leftovers` is printed with what is left over. -/
inductive Failure where
  | parseblock
  | missingParen
  | missingFile
  | syntaxError
  | tooManyArgs
  | leftovers (s : ℕ)
  | outOfFuel
  deriving DecidableEq

section Lexer

variable (text : List UInt8)

def charAt (s : ℕ) : UInt8 :=
  (text[s]?).getD 0

/-- `while(s < es && keeps(*s)) s++`. -/
def advance (keeps : UInt8 → Bool) (s : ℕ) : ℕ :=
  s + ((text.drop s).takeWhile keeps).length

def isSpace (c : UInt8) : Bool :=
  c ∈ whitespace

def inWord (c : UInt8) : Bool :=
  c ∉ whitespace ∧ c ∉ symbols

def skip (s : ℕ) : ℕ :=
  advance text isSpace s

def wordEnd (s : ℕ) : ℕ :=
  advance text inWord s

/-- The value of `gettoken` and the end of its token, which starts at `q`. -/
def scan (q : ℕ) : UInt8 × ℕ :=
  let c := charAt text q
  if c = 0 then (0, q)
  else if c = bar ∨ c = lparen ∨ c = rparen ∨ c = semi ∨ c = amp ∨ c = less then (c, q + 1)
  else if c = greater then
    if charAt text (q + 1) = greater then (append, q + 2) else (greater, q + 1)
  else (word, wordEnd text q)

structure Token where
  kind : UInt8
  span : Span
  deriving DecidableEq

def gettoken (s : ℕ) : Token × ℕ :=
  let q := skip text s
  let (kind, eq) := scan text q
  (⟨kind, ⟨q, eq⟩⟩, skip text eq)

def peek (s : ℕ) (toks : List UInt8) : Bool :=
  let c := charAt text (skip text s)
  c ≠ 0 ∧ c ∈ toks

end Lexer

section Parser

variable (text : List UInt8)

/-- The redirections, in the order in which `redircmd` wraps them. -/
def parseredirs : ℕ → ℕ → Except Failure (List Redirection × ℕ)
  | 0, _ => .error .outOfFuel
  | fuel + 1, s =>
      if peek text s [less, greater] then do
        let (tok, s) := gettoken text s
        let (file, s) := gettoken text s
        if file.kind ≠ word then throw .missingFile
        let redirection : Redirection :=
          if tok.kind = less then ⟨file.span, .rdonly, 0⟩ else ⟨file.span, .wronlyCreate, 1⟩
        let (redirections, s) ← parseredirs fuel s
        return (redirection :: redirections, s)
      else return ([], skip text s)

/-- The loop of `parseexec` with room for `slots` more arguments, the last of them
only to notice that there are too many. -/
def parseargs : ℕ → ℕ → Except Failure (List Span × List Redirection × ℕ)
  | slots, s =>
      if peek text s [bar, rparen, amp, semi] then return ([], [], skip text s)
      else do
        let (tok, s) := gettoken text s
        if tok.kind = 0 then return ([], [], s)
        if tok.kind ≠ word then throw .syntaxError
        match slots with
        | 0 | 1 => throw .tooManyArgs
        | slots + 2 =>
            let (redirections, s) ← parseredirs text (text.length + 1) s
            let (argv, more, s) ← parseargs (slots + 1) s
            return (tok.span :: argv, redirections ++ more, s)

def wrap (cmd : Cmd) (redirections : List Redirection) : Cmd :=
  redirections.foldl .redir cmd

def parseamps : ℕ → Cmd → ℕ → Except Failure (Cmd × ℕ)
  | 0, _, _ => .error .outOfFuel
  | fuel + 1, cmd, s =>
      if peek text s [amp] then parseamps fuel (.back cmd) (gettoken text s).2
      else return (cmd, skip text s)

mutual

def parseline : ℕ → ℕ → Except Failure (Cmd × ℕ)
  | 0, _ => .error .outOfFuel
  | fuel + 1, s => do
      let (cmd, s) ← parsepipe fuel s
      let (cmd, s) ← parseamps text (text.length + 1) cmd s
      if peek text s [semi] then
        let (right, s) ← parseline fuel (gettoken text s).2
        return (.list cmd right, s)
      else return (cmd, skip text s)
termination_by structural fuel => fuel

def parsepipe : ℕ → ℕ → Except Failure (Cmd × ℕ)
  | 0, _ => .error .outOfFuel
  | fuel + 1, s => do
      let (cmd, s) ← parseexec fuel s
      if peek text s [bar] then
        let (right, s) ← parsepipe fuel (gettoken text s).2
        return (.pipe cmd right, s)
      else return (cmd, skip text s)
termination_by structural fuel => fuel

def parseexec : ℕ → ℕ → Except Failure (Cmd × ℕ)
  | 0, _ => .error .outOfFuel
  | fuel + 1, s =>
      if peek text s [lparen] then parseblock fuel (skip text s)
      else do
        let (redirections, s) ← parseredirs text (text.length + 1) (skip text s)
        let (argv, more, s) ← parseargs text maxArgs s
        return (wrap (.exec argv) (redirections ++ more), s)
termination_by structural fuel => fuel

def parseblock : ℕ → ℕ → Except Failure (Cmd × ℕ)
  | 0, _ => .error .outOfFuel
  | fuel + 1, s => do
      if ¬ peek text s [lparen] then throw .parseblock
      let (cmd, s) ← parseline fuel (gettoken text s).2
      if ¬ peek text s [rparen] then throw .missingParen
      let (redirections, s) ← parseredirs text (text.length + 1) (gettoken text s).2
      return (wrap cmd redirections, s)
termination_by structural fuel => fuel

end

/-- The calls below `parseline` are at most four for each token and for the end. -/
def parsecmd : Except Failure Cmd := do
  let (cmd, s) ← parseline text (4 * (text.length + 1)) 0
  let s := skip text s
  if s ≠ text.length then throw (.leftovers s)
  return cmd

end Parser

section Strings

/-- The positions that `nulterminate` sets to zero. -/
def Cmd.ends : Cmd → List ℕ
  | .exec argv => argv.map Span.stop
  | .redir cmd redirection => cmd.ends ++ [redirection.file.stop]
  | .pipe left right | .list left right => left.ends ++ right.ends
  | .back cmd => cmd.ends

/-- The line with its final zero, after `nulterminate`. -/
def nulterminate (text : List UInt8) (cmd : Cmd) : List UInt8 :=
  cmd.ends.foldl (fun line s => line.set s 0) (text ++ [0])

/-- The string at a position. -/
def cString (line : List UInt8) (s : ℕ) : List UInt8 :=
  (line.drop s).takeWhile (· ≠ 0)

end Strings

end Ence360.Xv6.Sh
