import Mathlib.Data.Int.Notation
import Mathlib.Data.Nat.Notation

/-!
# Directories and path names (`lab10xv6/xv6/fs.c`)

A string is the list of its bytes without the zero at its end, so a read past the
list gives zero. The array of a name has `dirsiz` bytes, and no zero at its end when
the name is that long. Inode numbers are those of directory entries.
-/

set_option autoImplicit false

namespace Ence360.Xv6.Namei

def dirsiz : ℕ := 14

def slash : UInt8 := 47

/-- What `MAXFILE` blocks have room for. -/
def maxEntries : ℕ := (12 + 128) * 512 / 16

structure Dirent where
  inum : UInt16
  name : List UInt8
  deriving DecidableEq

/-- An inode that is not a directory has no entries. -/
structure Inode where
  isDir : Bool
  entries : List Dirent

abbrev Tree := UInt16 → Inode

def rootino : UInt16 := 1

section Names

def strncmp : ℕ → List UInt8 → List UInt8 → ℤ
  | 0, _, _ => 0
  | n + 1, p, q =>
      if p.headD 0 ≠ 0 ∧ p.headD 0 = q.headD 0 then strncmp n p.tail q.tail
      else (p.headD 0).toNat - (q.headD 0).toNat

/-- The `n` bytes that are written. -/
def strncpy : ℕ → List UInt8 → List UInt8
  | 0, _ => []
  | n + 1, t =>
      if t.headD 0 = 0 then List.replicate (n + 1) 0 else t.headD 0 :: strncpy n t.tail

def namecmp (s t : List UInt8) : ℤ :=
  strncmp dirsiz s t

end Names

section Directories

/-- The loop of `dirlookup`; `i` is `off` in entries. -/
def lookupLoop (name : List UInt8) : ℕ → List Dirent → Option (ℕ × UInt16)
  | _, [] => none
  | i, de :: entries =>
      if de.inum = 0 then lookupLoop name (i + 1) entries
      else if namecmp name de.name = 0 then some (i, de.inum)
      else lookupLoop name (i + 1) entries

def dirlookup (entries : List Dirent) (name : List UInt8) : Option (ℕ × UInt16) :=
  lookupLoop name 0 entries

inductive Refusal where
  /-- The name is there: `dirlink` returns `-1`. -/
  | present
  | panic
  deriving DecidableEq

def dirlink (entries : List Dirent) (name : List UInt8) (inum : UInt32) :
    Except Refusal (List Dirent) :=
  match dirlookup entries name with
  | some _ => .error .present
  | none =>
      let off := entries.findIdx (·.inum = 0)
      if maxEntries ≤ off then .error .panic
      else .ok (entries.take off ++
        { inum := inum.toUInt16, name := strncpy dirsiz name } :: entries.drop (off + 1))

def isdirempty (entries : List Dirent) : Bool :=
  (entries.drop 2).all (·.inum = 0)

/-- The change that `sys_unlink` makes to the directory; `none` where it returns `-1`. -/
def unlink (tree : Tree) (entries : List Dirent) (name : List UInt8) : Option (List Dirent) :=
  if namecmp name [46] = 0 ∨ namecmp name [46, 46] = 0 then none
  else match dirlookup entries name with
    | none => none
    | some (off, ip) =>
        if (tree ip).isDir ∧ ¬ isdirempty (tree ip).entries then none
        else some (entries.set off { inum := 0, name := List.replicate dirsiz 0 })

end Directories

section Paths

/-- The path behind the first name, and the name in its array. -/
def skipelem (path name : List UInt8) : Option (List UInt8 × List UInt8) :=
  let path := path.dropWhile (· = slash)
  if path = [] then none
  else
    let s := path.takeWhile (· ≠ slash)
    let path := path.dropWhile (· ≠ slash)
    let name :=
      if dirsiz ≤ s.length then s.take dirsiz else s ++ 0 :: name.drop (s.length + 1)
    some (path.dropWhile (· = slash), name)

theorem skipelem_shorter {path name rest name' : List UInt8}
    (skipped : skipelem path name = some (rest, name')) : rest.length < path.length := by
  unfold skipelem at skipped
  dsimp only at skipped
  split at skipped
  · cases skipped
  · next nonempty =>
      obtain ⟨rfl, -⟩ := Prod.mk.inj (Option.some.inj skipped)
      have notSlash := List.head_dropWhile_not (· = slash) nonempty
      have shorter := (List.dropWhile_sublist (l := path) (· = slash)).length_le
      generalize path.dropWhile (· = slash) = first at nonempty notSlash shorter
      obtain ⟨byte, more, rfl⟩ := List.exists_cons_of_ne_nil nonempty
      have notSlash : byte ≠ slash := of_decide_eq_false notSlash
      rw [List.dropWhile_cons, if_pos (decide_eq_true notSlash)]
      calc ((more.dropWhile (· ≠ slash)).dropWhile (· = slash)).length
          ≤ (more.dropWhile (· ≠ slash)).length := (List.dropWhile_sublist _).length_le
        _ ≤ more.length := (List.dropWhile_sublist _).length_le
        _ < (byte :: more).length := Nat.lt_succ_self _
        _ ≤ path.length := shorter

/-- The loop of `namex`; each turn takes a name off the path. -/
def namexLoop (tree : Tree) (nameiparent : Bool) (ip : UInt16) (path name : List UInt8) :
    Option (UInt16 × List UInt8) :=
  match _ : skipelem path name with
  | none => if nameiparent then none else some (ip, name)
  | some (rest, name) =>
      if ¬ (tree ip).isDir then none
      else if nameiparent ∧ rest = [] then some (ip, name)
      else match dirlookup (tree ip).entries name with
        | none => none
        | some (_, next) => namexLoop tree nameiparent next rest name
termination_by path.length
decreasing_by exact skipelem_shorter ‹_›

/-- The inode and the array `name`. -/
def namex (tree : Tree) (cwd : UInt16) (path : List UInt8) (nameiparent : Bool)
    (name : List UInt8) : Option (UInt16 × List UInt8) :=
  let ip := if path.headD 0 = slash then rootino else cwd
  namexLoop tree nameiparent ip path name

def namei (tree : Tree) (cwd : UInt16) (path name : List UInt8) : Option UInt16 :=
  (namex tree cwd path false name).map Prod.fst

def nameiparent (tree : Tree) (cwd : UInt16) (path name : List UInt8) :
    Option (UInt16 × List UInt8) :=
  namex tree cwd path true name

end Paths

end Ence360.Xv6.Namei
