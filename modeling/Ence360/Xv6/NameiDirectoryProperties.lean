import Ence360.Semantics.Refinement
import Ence360.Xv6.Namei
import Mathlib.Data.List.Nodup

/-!
# A directory is a map from names to inodes

Names count up to `dirsiz` bytes. Whatever is linked and unlinked, a directory has
each name once, and a lookup finds what was linked last under it.
-/

set_option autoImplicit false

namespace Ence360.Xv6.Namei

section Names

variable {n : ℕ} {p q name : List UInt8}

/-- The string in an array of `n` bytes. -/
def cut (n : ℕ) (array : List UInt8) : List UInt8 :=
  (array.take n).takeWhile (· ≠ 0)

def nameOf (array : List UInt8) : List UInt8 :=
  cut dirsiz array

theorem cut_succ (n : ℕ) (p : List UInt8) :
    cut (n + 1) p = if p.headD 0 = 0 then [] else p.headD 0 :: cut n p.tail := by
  cases p with
  | nil => rfl
  | cons a p =>
      by_cases stop : a = 0
      · simp [cut, stop]
      · simp [cut, stop]

theorem strncmp_eq_zero_iff : strncmp n p q = 0 ↔ cut n p = cut n q := by
  induction n generalizing p q with
  | zero => simp [strncmp, cut]
  | succ n ih =>
      rw [strncmp, cut_succ, cut_succ]
      generalize p.headD 0 = a
      generalize q.headD 0 = b
      have zero : (a.toNat : ℤ) - b.toNat = 0 ↔ a = b := by
        rw [← UInt8.toNat_inj]
        omega
      by_cases same : a = b
      · subst same
        by_cases stop : a = 0
        · simp [stop]
        · simp [stop, ih]
      · rw [if_neg fun both => same both.2, zero]
        refine ⟨fun equal => absurd equal same, fun equal => ?_⟩
        split at equal
        · next first =>
            split at equal
            · next second => exact first.trans second.symm
            · cases equal
        · split at equal
          · cases equal
          · exact (List.cons.inj equal).1

theorem namecmp_eq_zero_iff : namecmp p q = 0 ↔ nameOf p = nameOf q :=
  strncmp_eq_zero_iff

theorem cut_replicate (n m : ℕ) : cut n (List.replicate m 0) = [] := by
  cases n with
  | zero => rfl
  | succ n =>
      cases m with
      | zero => rfl
      | succ m => rw [cut_succ, List.replicate_succ, List.headD_cons, if_pos rfl]

theorem cut_strncpy : cut n (strncpy n name) = cut n name := by
  induction n generalizing name with
  | zero => rfl
  | succ n ih =>
      rw [strncpy, cut_succ n name]
      split
      · exact cut_replicate _ _
      · next goesOn => rw [cut_succ, List.headD_cons, if_neg goesOn, List.tail_cons, ih]

end Names

section Lookup

variable {entries : List Dirent} {name key : List UInt8} {inum : UInt32}

/-- What a name stands for. -/
def lookup (entries : List Dirent) (key : List UInt8) : Option UInt16 :=
  (entries.find? fun de => de.inum ≠ 0 ∧ nameOf de.name = key).map Dirent.inum

theorem lookup_cons (de : Dirent) (entries : List Dirent) (key : List UInt8) :
    lookup (de :: entries) key =
      if de.inum ≠ 0 ∧ nameOf de.name = key then some de.inum else lookup entries key := by
  unfold lookup
  rw [List.find?_cons]
  split
  · next holds => simp [of_decide_eq_true holds]
  · next fails => rw [if_neg (of_decide_eq_false fails)]

theorem lookup_append (entries more : List Dirent) (key : List UInt8) :
    lookup (entries ++ more) key = (lookup entries key).or (lookup more key) := by
  induction entries with
  | nil => rfl
  | cons de entries ih =>
      rw [List.cons_append, lookup_cons, lookup_cons, ih]
      split
      · rfl
      · rfl

theorem lookupLoop_map (i : ℕ) :
    (lookupLoop name i entries).map Prod.snd = lookup entries (nameOf name) := by
  induction entries generalizing i with
  | nil => rfl
  | cons de entries ih =>
      rw [lookupLoop, lookup_cons]
      by_cases free : de.inum = 0
      · simp [free, ih]
      · by_cases same : namecmp name de.name = 0
        · simp [free, same, namecmp_eq_zero_iff.mp same]
        · have other : nameOf de.name ≠ nameOf name := fun equal =>
            same (namecmp_eq_zero_iff.mpr equal.symm)
          simp [free, same, other, ih]

theorem dirlookup_map : (dirlookup entries name).map Prod.snd = lookup entries (nameOf name) :=
  lookupLoop_map 0

theorem dirlookup_eq_none_iff : dirlookup entries name = none ↔
    lookup entries (nameOf name) = none := by
  rw [← dirlookup_map, Option.map_eq_none_iff]

/-- Where `dirlookup` finds the entry. -/
theorem lookupLoop_at {i off : ℕ} {ip : UInt16}
    (found : lookupLoop name i entries = some (off, ip)) :
    ∃ before de after, entries = before ++ de :: after ∧ off = i + before.length ∧
      de.inum ≠ 0 ∧ nameOf de.name = nameOf name := by
  induction entries generalizing i with
  | nil => cases found
  | cons de entries ih =>
      have later (result : lookupLoop name (i + 1) entries = some (off, ip)) :
          ∃ before other after, de :: entries = before ++ other :: after ∧
            off = i + before.length ∧ other.inum ≠ 0 ∧ nameOf other.name = nameOf name := by
        obtain ⟨before, other, after, rfl, place, used, same⟩ := ih result
        refine ⟨de :: before, other, after, rfl, ?_, used, same⟩
        rw [place, List.length_cons]
        omega
      rw [lookupLoop] at found
      by_cases free : de.inum = 0
      · rw [if_pos free] at found
        exact later found
      · rw [if_neg free] at found
        by_cases same : namecmp name de.name = 0
        · rw [if_pos same, Option.some.injEq, Prod.mk.injEq] at found
          exact ⟨[], de, entries, rfl, found.1.symm, free, (namecmp_eq_zero_iff.mp same).symm⟩
        · rw [if_neg same] at found
          exact later found

end Lookup

section Distinct

variable {entries before after : List Dirent} {name key : List UInt8} {inum : UInt32} {de : Dirent}

/-- The names in a directory. -/
def names (entries : List Dirent) : List (List UInt8) :=
  (entries.filter (·.inum ≠ 0)).map fun de => nameOf de.name

def Distinct (entries : List Dirent) : Prop :=
  (names entries).Nodup

theorem names_append (entries more : List Dirent) :
    names (entries ++ more) = names entries ++ names more := by
  simp [names]

theorem names_cons (de : Dirent) (entries : List Dirent) :
    names (de :: entries) = if de.inum ≠ 0 then nameOf de.name :: names entries
      else names entries := by
  by_cases free : de.inum = 0
  · simp [names, free]
  · simp [names, free]

theorem lookup_eq_none_iff : lookup entries key = none ↔ key ∉ names entries := by
  induction entries with
  | nil => simp [lookup, names]
  | cons de entries ih =>
      rw [lookup_cons, names_cons]
      by_cases free : de.inum = 0
      · simp [free, ih]
      · by_cases same : nameOf de.name = key
        · simp [free, same]
        · simp [free, same, Ne.symm same, ih]

/-- An entry that is free does not count. -/
theorem lookup_free (free : de.inum = 0) :
    lookup (before ++ de :: after) key = lookup (before ++ after) key := by
  rw [lookup_append, lookup_cons, if_neg fun used => used.1 free, lookup_append]

theorem names_free (free : de.inum = 0) :
    names (before ++ de :: after) = names (before ++ after) := by
  rw [names_append, names_cons, if_neg fun used => used free, names_append]

/-- An entry for a name that is not there adds the name. -/
theorem lookup_insert (absent : lookup (before ++ after) (nameOf de.name) = none)
    (used : de.inum ≠ 0) (key : List UInt8) : lookup (before ++ de :: after) key =
      if key = nameOf de.name then some de.inum else lookup (before ++ after) key := by
  rw [lookup_append, lookup_cons, lookup_append]
  by_cases same : key = nameOf de.name
  · rw [lookup_append, Option.or_eq_none_iff] at absent
    rw [if_pos same, same, absent.1, if_pos ⟨used, rfl⟩]
    rfl
  · rw [if_neg same, if_neg fun both => same both.2.symm]

theorem Distinct.insert (distinct : Distinct (before ++ after))
    (absent : lookup (before ++ after) (nameOf de.name) = none) :
    Distinct (before ++ de :: after) := by
  by_cases free : de.inum = 0
  · unfold Distinct
    rw [names_free free]
    exact distinct
  · rw [lookup_eq_none_iff] at absent
    unfold Distinct at distinct ⊢
    rw [names_append] at distinct absent
    rw [names_append, names_cons, if_pos free]
    exact List.nodup_middle.mpr (List.nodup_cons.mpr ⟨absent, distinct⟩)

/-- In a directory with distinct names an entry is the only one with its name. -/
theorem Distinct.remove (distinct : Distinct (before ++ de :: after)) (used : de.inum ≠ 0) :
    Distinct (before ++ after) ∧ lookup (before ++ after) (nameOf de.name) = none := by
  rw [lookup_eq_none_iff]
  unfold Distinct at distinct ⊢
  rw [names_append, names_cons, if_pos used] at distinct
  obtain ⟨absent, distinct⟩ := List.nodup_cons.mp (List.nodup_middle.mp distinct)
  rw [names_append]
  exact ⟨distinct, absent⟩

/-- Where `dirlink` writes its entry. -/
theorem exists_split (entries : List Dirent) :
    let off := entries.findIdx (·.inum = 0)
    (∀ key, lookup entries key = lookup (entries.take off ++ entries.drop (off + 1)) key) ∧
      names entries = names (entries.take off ++ entries.drop (off + 1)) := by
  intro off
  by_cases inside : off < entries.length
  · have split : entries = entries.take off ++ entries[off] :: entries.drop (off + 1) := by
      rw [List.getElem_cons_drop, List.take_append_drop]
    have free : entries[off].inum = 0 := by
      simpa using List.findIdx_getElem (w := inside)
    refine ⟨fun key => ?_, ?_⟩
    · conv_lhs => rw [split]
      exact lookup_free free
    · conv_lhs => rw [split]
      exact names_free free
  · rw [List.take_of_length_le (by omega), List.drop_eq_nil_of_le (by omega), List.append_nil]
    exact ⟨fun _ => rfl, rfl⟩

end Distinct

section Operations

variable {tree : Tree} {entries entries' : List Dirent} {name : List UInt8} {inum : UInt32}

theorem dirlink_ok (linked : dirlink entries name inum = .ok entries') :
    lookup entries (nameOf name) = none ∧ (Distinct entries → Distinct entries') ∧
      ∀ key, lookup entries' key = if key = nameOf name ∧ inum.toUInt16 ≠ 0 then some inum.toUInt16
        else lookup entries key := by
  unfold dirlink at linked
  split at linked
  · cases linked
  · next missing =>
      have absent := dirlookup_eq_none_iff.mp missing
      obtain ⟨sameLookup, sameNames⟩ := exists_split entries
      generalize entries.findIdx (·.inum = 0) = off at linked sameLookup sameNames
      dsimp only at linked
      split at linked
      · cases linked
      · obtain rfl := Except.ok.inj linked
        have stored : nameOf (strncpy dirsiz name) = nameOf name := cut_strncpy
        have gone : lookup (entries.take off ++ entries.drop (off + 1))
            (nameOf (strncpy dirsiz name)) = none := by
          rw [stored, ← sameLookup]
          exact absent
        refine ⟨absent, fun distinct => ?_, fun key => ?_⟩
        · unfold Distinct at distinct
          rw [sameNames] at distinct
          exact Distinct.insert distinct gone
        · by_cases used : inum.toUInt16 = 0
          · rw [lookup_free used, if_neg fun both => both.2 used, sameLookup]
          · rw [lookup_insert gone used, stored, sameLookup]
            simp only [used, ne_eq, not_false_eq_true, and_true]

theorem dirlink_present (refused : dirlink entries name inum = .error .present) :
    lookup entries (nameOf name) ≠ none := by
  intro absent
  unfold dirlink at refused
  rw [dirlookup_eq_none_iff.mpr absent] at refused
  dsimp only at refused
  split at refused
  · cases refused
  · cases refused

/-- Whether `sys_unlink` removes the name. -/
def mayUnlink (tree : Tree) (found : Option UInt16) (name : List UInt8) : Bool :=
  nameOf name ≠ [46] ∧ nameOf name ≠ [46, 46] ∧
    found.any fun ip => ¬ ((tree ip).isDir ∧ ¬ isdirempty (tree ip).entries)

theorem unlink_eq_none (refused : mayUnlink tree (lookup entries (nameOf name)) name = false) :
    unlink tree entries name = none := by
  unfold unlink
  split
  · rfl
  · next allowed =>
      rw [namecmp_eq_zero_iff, namecmp_eq_zero_iff, not_or] at allowed
      split
      · rfl
      · next off ip found =>
          have target : lookup entries (nameOf name) = some ip := by
            rw [← dirlookup_map, found]
            rfl
          rw [mayUnlink, target, decide_eq_false_iff_not] at refused
          split
          · rfl
          · next free => exact absurd ⟨allowed.1, allowed.2, decide_eq_true free⟩ refused

theorem unlink_eq_some (distinct : Distinct entries)
    (may : mayUnlink tree (lookup entries (nameOf name)) name = true) :
    ∃ entries', unlink tree entries name = some entries' ∧ Distinct entries' ∧
      ∀ key, lookup entries' key = if key = nameOf name then none else lookup entries key := by
  rw [mayUnlink, decide_eq_true_eq] at may
  obtain ⟨notDot, notDots, free⟩ := may
  have allowed : ¬ (namecmp name [46] = 0 ∨ namecmp name [46, 46] = 0) := by
    rw [namecmp_eq_zero_iff, namecmp_eq_zero_iff, not_or]
    exact ⟨notDot, notDots⟩
  cases found : dirlookup entries name with
  | none =>
      rw [dirlookup_eq_none_iff.mp found] at free
      cases free
  | some result =>
      obtain ⟨off, ip⟩ := result
      have target : lookup entries (nameOf name) = some ip := by
        rw [← dirlookup_map, found]
        rfl
      rw [target] at free
      obtain ⟨before, de, after, rfl, place, used, same⟩ := lookupLoop_at found
      obtain ⟨kept, gone⟩ := distinct.remove used
      refine ⟨before ++ { inum := 0, name := List.replicate dirsiz 0 } :: after, ?_, ?_, ?_⟩
      · have notBusy : ¬ ((tree ip).isDir = true ∧ ¬ isdirempty (tree ip).entries = true) := by
          exact of_decide_eq_true free
        rw [unlink, if_neg allowed, found]
        dsimp only
        rw [if_neg notBusy, place, Nat.zero_add, List.set_append_right _ _ (Nat.le_refl _),
          Nat.sub_self, List.set_cons_zero]
      · unfold Distinct
        rw [names_free rfl]
        exact kept
      · intro key
        rw [lookup_free rfl]
        by_cases equal : key = nameOf name
        · rw [if_pos equal, equal, ← same]
          exact gone
        · rw [if_neg equal, lookup_append, lookup_append, lookup_cons,
            if_neg fun both => equal (both.2.symm.trans same)]

end Operations

section Refinement

open Semantics

/-- Calls on one directory; the tree is there for `isdirempty`. -/
inductive Operation where
  | link (name : List UInt8) (inum : UInt32)
  | unlink (tree : Tree) (name : List UInt8)

/-- There is no next state after a panic. -/
def directory : System (List Dirent) Operation where
  initial := Distinct
  step entries operation :=
    match operation with
    | .link name inum =>
        match dirlink entries name inum with
        | .ok entries => some entries
        | .error .present => some entries
        | .error .panic => none
    | .unlink tree name => some ((unlink tree entries name).getD entries)

/-- What the calls mean for a map from names to inodes. -/
def mapping : System (List UInt8 → Option UInt16) Operation where
  initial _ := True
  step map operation :=
    match operation with
    | .link name inum =>
        if map (nameOf name) = none ∧ inum.toUInt16 ≠ 0 then
          some (Function.update map (nameOf name) (some inum.toUInt16))
        else some map
    | .unlink tree name =>
        if mayUnlink tree (map (nameOf name)) name then
          some (Function.update map (nameOf name) none)
        else some map

variable {entries next : List Dirent} {name : List UInt8}

theorem link_step {inum : UInt32} (distinct : Distinct entries)
    (stepped : directory.step entries (.link name inum) = some next) :
    mapping.step (lookup entries) (.link name inum) = some (lookup next) ∧ Distinct next := by
  unfold directory at stepped
  dsimp only at stepped
  split at stepped
  · next entries' linked =>
      obtain ⟨absent, kept, after⟩ := dirlink_ok linked
      obtain rfl := Option.some.inj stepped
      refine ⟨?_, kept distinct⟩
      simp only [mapping]
      split
      · next adds =>
          refine congrArg some (funext fun key => ?_)
          rw [after, Function.update_apply]
          simp only [adds.2, ne_eq, not_false_eq_true, and_true]
      · next ignores =>
          refine congrArg some (funext fun key => ?_)
          rw [after, if_neg fun both => ignores ⟨absent, both.2⟩]
  · next refused =>
      obtain rfl := Option.some.inj stepped
      refine ⟨?_, distinct⟩
      simp only [mapping]
      rw [if_neg fun both => dirlink_present refused both.1]
  · cases stepped

theorem unlink_step {tree : Tree} (distinct : Distinct entries)
    (stepped : directory.step entries (.unlink tree name) = some next) :
    mapping.step (lookup entries) (.unlink tree name) = some (lookup next) ∧ Distinct next := by
  obtain rfl := Option.some.inj stepped
  simp only [mapping]
  cases may : mayUnlink tree (lookup entries (nameOf name)) name with
  | false =>
      rw [unlink_eq_none may]
      exact ⟨rfl, distinct⟩
  | true =>
      obtain ⟨entries', unlinked, kept, after⟩ := unlink_eq_some distinct may
      rw [unlinked]
      refine ⟨congrArg some (funext fun key => ?_), kept⟩
      rw [Function.update_apply]
      exact (after key).symm

def directoryRefinement : Refinement directory mapping where
  related entries map := lookup entries = map ∧ Distinct entries
  visible _ operation := [operation]
  step := by
    rintro entries _ operation next ⟨rfl, distinct⟩ stepped
    have follows : mapping.step (lookup entries) operation = some (lookup next) ∧
        Distinct next := by
      cases operation with
      | link name inum => exact link_step distinct stepped
      | unlink tree name => exact unlink_step distinct stepped
    refine ⟨lookup next, ?_, rfl, follows.2⟩
    rw [System.execute, follows.1]
    rfl

/-- Every run on a directory is one on a map from names to inodes, and each name is
there once at every moment. -/
theorem directory_refines {start finish : List Dirent} {events : List (List Dirent × Operation)}
    (distinct : Distinct start) (run : directory.Run start events finish) :
    mapping.execute (lookup start) (events.map Prod.snd) = some (lookup finish) ∧
      Distinct finish := by
  obtain ⟨map, executed, rfl, kept⟩ := directoryRefinement.run run ⟨rfl, distinct⟩
  have trace : directoryRefinement.trace events = events.map Prod.snd :=
    List.map_eq_flatMap.symm
  rw [trace] at executed
  exact ⟨executed, kept⟩

theorem directory_refines_relink : ∃ events finish, directory.Run [] events finish ∧
    events.map Prod.snd = [.link [97] 5, .unlink (fun _ => ⟨false, []⟩) [97], .link [97] 6] ∧
      mapping.execute (lookup []) (events.map Prod.snd) = some (lookup finish) ∧
      Distinct finish := by
  have executed : directory.execute []
      [.link [97] 5, .unlink (fun _ => ⟨false, []⟩) [97], .link [97] 6] =
        some [{ inum := 6, name := 97 :: List.replicate 13 0 }] := rfl
  obtain ⟨events, operations, run⟩ := System.run_of_execute executed
  exact ⟨events, _, run, operations, directory_refines List.nodup_nil run⟩

end Refinement

end Ence360.Xv6.Namei
