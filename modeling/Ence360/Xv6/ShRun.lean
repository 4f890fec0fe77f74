import Ence360.Semantics.Descriptors
import Ence360.Xv6.Sh

/-!
# How the shell runs a command (`lab10xv6/xv6/sh.c`)

`runcmd` never returns: it becomes a program, or it exits. It is read as a tree of
what its process and the children of it do. A place is where in the command a
process has come to; it tells apart the pipes and files that are opened there.
The calls that may fail are answered by a `System`.
-/

set_option autoImplicit false

namespace Ence360.Xv6.Sh

open Semantics

abbrev Place := List ℕ

inductive File where
  /-- What the shell itself was given. -/
  | inherited (fd : ℕ)
  | opened (name : List UInt8) (mode : Mode) (place : Place)
  | readEnd (place : Place)
  | writeEnd (place : Place)
  deriving DecidableEq

structure System where
  opens : Place → Bool
  execs : Place → Bool
  pipes : Place → Bool
  /-- The first or the second `fork` at a place. -/
  forks : Place → ℕ → Bool

/-- What is written on descriptor 2 before `exit`; `panic` writes its text alone. -/
inductive Complaint where
  | exec (name : List UInt8)
  | open (name : List UInt8)
  | pipe
  | fork
  | parse (failure : Failure)
  deriving DecidableEq

inductive Run (Table : Type) where
  | exit
  | complain (complaint : Complaint) (error : Option File)
  /-- The process becomes the program `argv[0]`. -/
  | exec (place : Place) (argv : List (List UInt8)) (table : Table)
  | fork (child rest : Run Table)
  | wait (place : Place) (table : Table) (rest : Run Table)

section Commands

variable (line : List UInt8) (system : System)

def runcmd : DescriptorTable File → Place → Cmd → Run (DescriptorTable File)
  | _, _, .exec [] => .exit
  | table, place, .exec (program :: arguments) =>
      let argv := (program :: arguments).map fun span => cString line span.start
      if system.execs place then .exec place argv table
      else .complain (.exec (cString line program.start)) (table.file 2)
  | table, place, .redir cmd redirection =>
      let table := table.close redirection.fd
      let name := cString line redirection.file.start
      if system.opens place then
        runcmd (table.allocate (.opened name redirection.mode place)) (0 :: place) cmd
      else .complain (.open name) (table.file 2)
  | table, place, .list left right =>
      if system.forks place 0 then
        .fork (runcmd table (0 :: place) left)
          (.wait place table (runcmd table (1 :: place) right))
      else .complain .fork (table.file 2)
  | table, place, .pipe left right =>
      if system.pipes place then
        let (p₀, p₁, table) := table.pipe (.readEnd place) (.writeEnd place)
        if system.forks place 0 then
          .fork (runcmd ((((table.close 1).dup p₁).close p₀).close p₁) (0 :: place) left)
            (if system.forks place 1 then
              .fork (runcmd ((((table.close 0).dup p₀).close p₀).close p₁) (1 :: place) right)
                (let table := (table.close p₀).close p₁
                .wait place table (.wait place table .exit))
            else .complain .fork (table.file 2))
        else .complain .fork (table.file 2)
      else .complain .pipe (table.file 2)
  | table, place, .back cmd =>
      if system.forks place 0 then .fork (runcmd table (0 :: place) cmd) .exit
      else .complain .fork (table.file 2)

end Commands

section Main

variable (system : System)

/-- The child of `main` for one line. -/
def runLine (table : DescriptorTable File) (text : List UInt8) : Run (DescriptorTable File) :=
  match parsecmd text with
  | .error failure => .complain (.parse failure) (table.file 2)
  | .ok cmd => runcmd (nulterminate text cmd) system table [] cmd

/-- The first loop of `main`, with at most `fuel` calls of `open`. -/
def openConsole (console : File) : ℕ → DescriptorTable File → DescriptorTable File
  | 0, table => table
  | fuel + 1, table =>
      let fd := table.lowestFree
      let table := table.allocate console
      if 3 ≤ fd then table.close fd else openConsole console fuel table

end Main

end Ence360.Xv6.Sh
