import Ence360.Xv6.NameiDirectoryProperties
import Mathlib.Data.List.TakeWhile

/-!
# What a path name means

A path is the list of the names between its slashes, and leads from directory to
directory.
-/

set_option autoImplicit false

namespace Ence360.Xv6.Namei

section Components

variable {path rest name name' first : List UInt8}

/-- The names between the slashes, as far as they count. -/
def components (path : List UInt8) : List (List UInt8) :=
  ((path.splitOn slash).filter (· ≠ [])).map (·.take dirsiz)

theorem components_slash (path : List UInt8) : components (slash :: path) = components path := by
  have split : (slash :: path).splitOn slash = [] :: path.splitOn slash :=
    List.splitOn_append_cons_self_of_not_mem (List.not_mem_nil (a := slash)) path
  simp [components, split]

theorem components_name (inside : slash ∉ first) (nonempty : first ≠ []) :
    components (first ++ slash :: rest) = first.take dirsiz :: components rest := by
  simp [components, List.splitOn_append_cons_self_of_not_mem inside, nonempty]

theorem components_last (inside : slash ∉ first) (nonempty : first ≠ []) :
    components first = [first.take dirsiz] := by
  simp [components, List.splitOn_eq_singleton inside, nonempty]

theorem components_nil : components [] = [] := by
  rfl

theorem components_skip (path : List UInt8) :
    components (path.dropWhile (· = slash)) = components path := by
  induction path with
  | nil => rfl
  | cons byte path ih =>
      rw [List.dropWhile_cons]
      split
      · next isSlash => rw [ih, of_decide_eq_true isSlash, components_slash]
      · rfl

theorem dropWhile_cases (keeps : UInt8 → Bool) (path : List UInt8) :
    path.dropWhile keeps = [] ∨
      ∃ byte rest, path.dropWhile keeps = byte :: rest ∧ keeps byte = false := by
  induction path with
  | nil => exact .inl rfl
  | cons byte path ih =>
      rw [List.dropWhile_cons]
      split
      · exact ih
      · next stops => exact .inr ⟨byte, path, rfl, by simpa using stops⟩

/-- A path that does not begin with a slash begins with a name. -/
theorem components_first {byte : UInt8} (notSlash : byte ≠ slash) :
    (byte :: rest).takeWhile (· ≠ slash) ≠ [] ∧ components (byte :: rest) =
      ((byte :: rest).takeWhile (· ≠ slash)).take dirsiz ::
        components ((byte :: rest).dropWhile (· ≠ slash)) := by
  have begins : (byte :: rest).takeWhile (· ≠ slash) ≠ [] := by
    simp [notSlash]
  have inside : slash ∉ (byte :: rest).takeWhile (· ≠ slash) := fun member => by
    simpa using List.mem_takeWhile_imp member
  refine ⟨begins, ?_⟩
  conv_lhs => rw [← List.takeWhile_append_dropWhile (p := (· ≠ slash)) (l := byte :: rest)]
  rcases dropWhile_cases (· ≠ slash) (byte :: rest) with ends | ⟨next, more, goesOn, isSlash⟩
  · rw [ends, List.append_nil, components_last inside begins, components_nil]
  · obtain rfl : next = slash := by simpa using isSlash
    rw [goesOn, components_name inside begins, components_slash]

/-- The name that `skipelem` copies, whatever was in its array. -/
theorem nameOf_copied (text : 0 ∉ first) (array : List UInt8) :
    nameOf (if dirsiz ≤ first.length then first.take dirsiz
      else first ++ 0 :: array.drop (first.length + 1)) = first.take dirsiz := by
  have whole : (first.take dirsiz).takeWhile (· ≠ 0) = first.take dirsiz := by
    rw [List.takeWhile_eq_self_iff]
    intro byte member
    refine decide_eq_true fun zero => text ?_
    rw [← zero]
    exact List.mem_of_mem_take member
  unfold nameOf cut
  split
  · rw [List.take_take, Nat.min_self, whole]
  · next short =>
      rw [List.take_of_length_le (Nat.le_of_lt (Nat.lt_of_not_le short))] at whole ⊢
      obtain ⟨more, enough⟩ : ∃ more, dirsiz = first.length + (more + 1) :=
        ⟨dirsiz - first.length - 1, by omega⟩
      rw [enough, List.take_length_add_append, List.take_succ_cons, List.takeWhile_append_of_pos]
      · simp
      · intro byte member
        refine decide_eq_true fun zero => text ?_
        rwa [← zero]

theorem skipelem_none (result : skipelem path name = none) : components path = [] := by
  unfold skipelem at result
  dsimp only at result
  split at result
  · next empty => rw [← components_skip, empty, components_nil]
  · cases result

theorem skipelem_some (text : 0 ∉ path) (result : skipelem path name = some (rest, name')) :
    components path = nameOf name' :: components rest ∧ 0 ∉ rest ∧
      (rest = [] ↔ components rest = []) := by
  unfold skipelem at result
  dsimp only at result
  split at result
  · cases result
  · next nonempty =>
      rw [Option.some.injEq, Prod.mk.injEq] at result
      obtain ⟨rfl, rfl⟩ := result
      obtain ⟨byte, more, begins, notSlash⟩ :=
        (dropWhile_cases (· = slash) path).resolve_left nonempty
      obtain ⟨named, first⟩ := @components_first more byte (of_decide_eq_false notSlash)
      have sameText : 0 ∉ byte :: more := by
        rw [← begins]
        exact fun zero => text ((List.dropWhile_sublist _).subset zero)
      rw [begins]
      refine ⟨?_, ?_, ?_⟩
      · rw [← components_skip path, begins, first, components_skip, nameOf_copied]
        exact fun zero => sameText ((List.takeWhile_sublist _).subset zero)
      · exact fun zero => sameText
          (((List.dropWhile_sublist _).trans (List.dropWhile_sublist _)).subset zero)
      · refine ⟨fun empty => by rw [empty, components_nil], fun none => ?_⟩
        refine (dropWhile_cases (· = slash) _).resolve_right ?_
        rintro ⟨next, rest, goesOn, other⟩
        rw [goesOn, (@components_first rest next (of_decide_eq_false other)).2] at none
        cases none

end Components

section Walks

variable {tree : Tree} {cwd : UInt16} {path name : List UInt8}

/-- Where a list of names leads, each looked up in the directory before it. -/
def walk (tree : Tree) : UInt16 → List (List UInt8) → Option UInt16
  | ip, [] => some ip
  | ip, name :: names =>
      if (tree ip).isDir then (lookup (tree ip).entries name).bind fun next => walk tree next names
      else none

/-- The directory that holds the last name, and this name. -/
def walkParent (tree : Tree) (ip : UInt16) (names : List (List UInt8)) :
    Option (UInt16 × List UInt8) :=
  names.getLast?.bind fun last => (walk tree ip names.dropLast).bind fun dp =>
    if (tree dp).isDir then some (dp, last) else none

/-- Where a path begins. -/
def origin (cwd : UInt16) (path : List UInt8) : UInt16 :=
  if path.headD 0 = slash then rootino else cwd

theorem walkParent_single (ip : UInt16) (name : List UInt8) : walkParent tree ip [name] =
    if (tree ip).isDir then some (ip, name) else none :=
  rfl

theorem walkParent_cons {names : List (List UInt8)} (ip : UInt16) (name : List UInt8)
    (more : names ≠ []) : walkParent tree ip (name :: names) =
      if (tree ip).isDir then
        (lookup (tree ip).entries name).bind fun next => walkParent tree next names
      else none := by
  obtain ⟨second, names, rfl⟩ := List.exists_cons_of_ne_nil more
  rw [walkParent, List.getLast?_cons_cons, List.dropLast_cons_cons, walk]
  cases found : lookup (tree ip).entries name with
  | none => simp
  | some next =>
      by_cases isDir : (tree ip).isDir = true
      · simp [isDir, walkParent]
      · simp [isDir]

theorem namexLoop_namei {ip : UInt16} (text : 0 ∉ path) :
    (namexLoop tree false ip path name).map Prod.fst = walk tree ip (components path) := by
  induction path using (measure List.length).wf.induction generalizing ip name with
  | _ path ih =>
      rw [namexLoop]
      split
      · next ended =>
          rw [skipelem_none ended]
          rfl
      · next rest array skipped =>
          obtain ⟨names, text, -⟩ := skipelem_some text skipped
          rw [names, walk, ← dirlookup_map]
          by_cases isDir : (tree ip).isDir = true
          · simp only [isDir, not_true_eq_false, if_false, Bool.false_eq_true, false_and, if_true]
            cases dirlookup (tree ip).entries array with
            | none => rfl
            | some found => exact ih rest (skipelem_shorter skipped) text
          · simp only [isDir, Bool.false_eq_true, not_false_eq_true, if_true, if_false]
            rfl

theorem namexLoop_parent {ip : UInt16} (text : 0 ∉ path) :
    (namexLoop tree true ip path name).map (fun found => (found.1, nameOf found.2)) =
      walkParent tree ip (components path) := by
  induction path using (measure List.length).wf.induction generalizing ip name with
  | _ path ih =>
      rw [namexLoop]
      split
      · next ended =>
          rw [skipelem_none ended]
          rfl
      · next rest array skipped =>
          obtain ⟨names, text, ends⟩ := skipelem_some text skipped
          rw [names]
          by_cases isDir : (tree ip).isDir = true
          · by_cases last : rest = []
            · rw [ends.mp last, walkParent_single]
              simp [isDir, last]
            · rw [walkParent_cons _ _ fun none => last (ends.mpr none), ← dirlookup_map]
              simp only [isDir, not_true_eq_false, if_false, last, and_false, if_true]
              cases dirlookup (tree ip).entries array with
              | none => rfl
              | some found => exact ih rest (skipelem_shorter skipped) text
          · have blocked : walkParent tree ip (nameOf array :: components rest) = none := by
              by_cases last : components rest = []
              · rw [last, walkParent_single, if_neg isDir]
              · rw [walkParent_cons _ _ last, if_neg isDir]
            rw [blocked]
            simp [isDir]

theorem namei_walks (text : 0 ∉ path) :
    namei tree cwd path name = walk tree (origin cwd path) (components path) :=
  namexLoop_namei text

theorem nameiparent_walks (text : 0 ∉ path) :
    (nameiparent tree cwd path name).map (fun found => (found.1, nameOf found.2)) =
      walkParent tree (origin cwd path) (components path) :=
  namexLoop_parent text

/-- A path leads to the inode its names lead to. -/
theorem namex_walks (text : 0 ∉ path) :
    namei tree cwd path name = walk tree (origin cwd path) (components path) ∧
      (nameiparent tree cwd path name).map (fun found => (found.1, nameOf found.2)) =
        walkParent tree (origin cwd path) (components path) :=
  ⟨namei_walks text, nameiparent_walks text⟩

/-- The path is `/a//b/`. -/
theorem namex_walks_slashes :
    let tree : Tree := fun ip =>
      if ip = 1 then ⟨true, [⟨2, [97]⟩]⟩ else if ip = 2 then ⟨true, [⟨3, [98]⟩]⟩ else ⟨false, []⟩
    namei tree 7 [47, 97, 47, 47, 98, 47] [] = some 3 ∧
      walk tree 1 [[97], [98]] = namei tree 7 [47, 97, 47, 47, 98, 47] [] ∧
      (nameiparent tree 7 [47, 97, 47, 47, 98, 47] []).map
        (fun found => (found.1, nameOf found.2)) = walkParent tree 1 [[97], [98]] := by
  intro tree
  obtain ⟨whole, parent⟩ := @namex_walks tree 7 [47, 97, 47, 47, 98, 47] [] (by decide)
  exact ⟨whole, whole.symm, parent⟩

end Walks

section Creation

variable {tree tree' : Tree} {ip dp target : UInt16} {names : List (List UInt8)}
  {last : List UInt8}

theorem walk_append (names : List (List UInt8)) (last : List UInt8) (ip : UInt16) :
    walk tree ip (names ++ [last]) = (walk tree ip names).bind fun dp => walk tree dp [last] := by
  induction names generalizing ip with
  | nil => rfl
  | cons name names ih =>
      rw [List.cons_append, walk, walk]
      split
      · rw [Option.bind_assoc]
        exact congrArg _ (funext fun next => ih next)
      · rfl

/-- A tree in which every name still stands for its inode. -/
structure Extends (tree tree' : Tree) : Prop where
  isDir : ∀ ip, (tree' ip).isDir = (tree ip).isDir
  lookup : ∀ ip key found, Namei.lookup (tree ip).entries key = some found →
    Namei.lookup (tree' ip).entries key = some found

theorem Extends.walk (extend : Extends tree tree') (found : walk tree ip names = some target) :
    walk tree' ip names = some target := by
  induction names generalizing ip with
  | nil => exact found
  | cons name names ih =>
      rw [Namei.walk] at found ⊢
      rw [extend.isDir]
      split at found
      · next isDir =>
          obtain ⟨next, here, rest⟩ := Option.bind_eq_some_iff.mp found
          rw [if_pos isDir, extend.lookup ip name next here]
          exact ih rest
      · cases found

theorem walkParent_some (parent : walkParent tree ip names = some (dp, last)) :
    ∃ first, names = first ++ [last] ∧ walk tree ip first = some dp ∧ (tree dp).isDir = true := by
  obtain ⟨final, ends, rest⟩ := Option.bind_eq_some_iff.mp parent
  obtain ⟨holder, leads, checked⟩ := Option.bind_eq_some_iff.mp rest
  split at checked
  · next isDir =>
      rw [Option.some.injEq, Prod.mk.injEq] at checked
      obtain ⟨rfl, rfl⟩ := checked
      exact ⟨names.dropLast, (List.dropLast_append_getLast? final ends).symm, leads, isDir⟩
  · cases checked

variable {cwd : UInt16} {path name array : List UInt8} {inum : UInt32} {entries : List Dirent}

theorem extends_link (linked : dirlink (tree dp).entries array inum = .ok entries) :
    Extends tree (Function.update tree dp { tree dp with entries }) := by
  obtain ⟨absent, -, after⟩ := dirlink_ok linked
  refine ⟨fun ip => ?_, fun ip key found before => ?_⟩
  · by_cases same : ip = dp
    · subst same
      rw [Function.update_self]
    · rw [Function.update_of_ne same]
  · by_cases same : ip = dp
    · subst same
      rw [Function.update_self, after, if_neg, before]
      rintro ⟨rfl, -⟩
      rw [absent] at before
      cases before
    · rw [Function.update_of_ne same]
      exact before

/-- After `dirlink` in the directory that `nameiparent` gave, the path leads to the
new inode, and all other paths lead where they did. -/
theorem created_is_found (text : 0 ∉ path)
    (parent : nameiparent tree cwd path name = some (dp, array))
    (linked : dirlink (tree dp).entries array inum = .ok entries) (used : inum.toUInt16 ≠ 0) :
    namei tree cwd path name = none ∧
      namei (Function.update tree dp { tree dp with entries }) cwd path name =
        some inum.toUInt16 ∧
      ∀ other buffer found, 0 ∉ other → namei tree cwd other buffer = some found →
        namei (Function.update tree dp { tree dp with entries }) cwd other buffer =
          some found := by
  have extend := extends_link linked
  obtain ⟨absent, -, after⟩ := dirlink_ok linked
  have walked := @nameiparent_walks tree cwd path name text
  rw [parent] at walked
  obtain ⟨first, names, leads, isDir⟩ := walkParent_some walked.symm
  refine ⟨?_, ?_, ?_⟩
  · rw [namei_walks text, names, walk_append, leads, Option.bind_some, walk, if_pos isDir, absent]
    rfl
  · rw [namei_walks text, names, walk_append, extend.walk leads, Option.bind_some, walk,
      extend.isDir, if_pos isDir, Function.update_self, after, if_pos ⟨rfl, used⟩]
    rfl
  · intro other buffer found otherText before
    rw [namei_walks otherText] at before ⊢
    exact extend.walk before

/-- `/a` in an empty root directory. -/
theorem created_is_found_root :
    let tree : Tree := fun _ => ⟨true, []⟩
    let entries : List Dirent := [{ inum := 5, name := 97 :: List.replicate 13 0 }]
    namei tree 1 [47, 97] [] = none ∧
      namei (Function.update tree 1 { tree 1 with entries }) 1 [47, 97] [] = some 5 ∧
      ∀ other buffer found, 0 ∉ other → namei tree 1 other buffer = some found →
        namei (Function.update tree 1 { tree 1 with entries }) 1 other buffer = some found := by
  intro tree entries
  have parent : nameiparent tree 1 [47, 97] [] = some (1, [97, 0]) := by
    rw [nameiparent, namex, namexLoop]
    rfl
  exact @created_is_found tree 1 1 [47, 97] [] [97, 0] 5 entries (by decide) parent rfl (by decide)

end Creation

end Ence360.Xv6.Namei
