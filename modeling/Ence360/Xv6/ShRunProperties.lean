import Ence360.Xv6.ShRun
import Ence360.Xv6.ShStringProperties

/-!
# What a command is wired to

What the shell does with descriptors is told again with three files in place of a
table. The programs and the waiting processes then have exactly these files as
descriptors 0, 1 and 2, and no other.
-/

set_option autoImplicit false

namespace Ence360.Xv6.Sh

open Semantics

structure Stdio where
  input : File
  output : File
  error : File

def Stdio.file (stdio : Stdio) : ℕ → Option File
  | 0 => some stdio.input
  | 1 => some stdio.output
  | 2 => some stdio.error
  | _ => none

def Stdio.table (stdio : Stdio) : DescriptorTable File where
  file := stdio.file
  bound := 3
  closed fd high := by
    obtain ⟨other, rfl⟩ := Nat.exists_eq_add_of_le' high
    rfl

def Stdio.redirect (stdio : Stdio) (fd : ℕ) (file : File) : Stdio :=
  match fd with
  | 0 => { stdio with input := file }
  | 1 => { stdio with output := file }
  | _ => { stdio with error := file }

def Run.map {Table Other : Type} (view : Table → Other) : Run Table → Run Other
  | .exit => .exit
  | .complain complaint error => .complain complaint error
  | .exec place argv table => .exec place argv (view table)
  | .fork child rest => .fork (child.map view) (rest.map view)
  | .wait place table rest => .wait place (view table) (rest.map view)

section Meaning

variable (text : List UInt8) (system : System)

/-- The meaning of a command: a pipe joins the output of the left to the input of
the right, and the process that waits for them keeps neither end. -/
def meaning : Stdio → Place → Cmd → Run Stdio
  | _, _, .exec [] => .exit
  | stdio, place, .exec (program :: arguments) =>
      if system.execs place then .exec place ((program :: arguments).map (bytes text)) stdio
      else .complain (.exec (bytes text program)) (some stdio.error)
  | stdio, place, .redir cmd redirection =>
      let name := bytes text redirection.file
      if system.opens place then
        let file := File.opened name redirection.mode place
        meaning (stdio.redirect redirection.fd file) (0 :: place) cmd
      else .complain (.open name) (some stdio.error)
  | stdio, place, .list left right =>
      if system.forks place 0 then
        .fork (meaning stdio (0 :: place) left)
          (.wait place stdio (meaning stdio (1 :: place) right))
      else .complain .fork (some stdio.error)
  | stdio, place, .pipe left right =>
      if system.pipes place then
        if system.forks place 0 then
          .fork (meaning { stdio with output := .writeEnd place } (0 :: place) left)
            (if system.forks place 1 then
              .fork (meaning { stdio with input := .readEnd place } (1 :: place) right)
                (.wait place stdio (.wait place stdio .exit))
            else .complain .fork (some stdio.error))
        else .complain .fork (some stdio.error)
      else .complain .pipe (some stdio.error)
  | stdio, place, .back cmd =>
      if system.forks place 0 then .fork (meaning stdio (0 :: place) cmd) .exit
      else .complain .fork (some stdio.error)

def meaningLine (stdio : Stdio) : Run Stdio :=
  match parsecmd text with
  | .error failure => .complain (.parse failure) (some stdio.error)
  | .ok cmd => meaning text system stdio [] cmd

end Meaning

section Tables

variable {table : DescriptorTable File} {stdio : Stdio} {fd : ℕ} {file : File}

theorem Stdio.redirect_file (standard : fd < 3) :
    Function.update stdio.file fd (some file) = (stdio.redirect fd file).file := by
  funext other
  match fd, standard with
  | 0, _ => match other with | 0 | 1 | 2 | _ + 3 => rfl
  | 1, _ => match other with | 0 | 1 | 2 | _ + 3 => rfl
  | 2, _ => match other with | 0 | 1 | 2 | _ + 3 => rfl

theorem close_free (table : DescriptorTable File) (fd : ℕ) : (table.close fd).file fd = none := by
  rw [DescriptorTable.close_file, Function.update_self]

theorem close_below (opened : ∀ lower < 3, table.file lower ≠ none) (standard : fd < 3) :
    ∀ lower < fd, (table.close fd).file lower ≠ none := by
  intro lower below
  rw [DescriptorTable.close_file, Function.update_of_ne (by omega)]
  exact opened lower (by omega)

theorem Stdio.file_ne_none (stdio : Stdio) : ∀ fd < 3, stdio.file fd ≠ none := by
  intro fd standard
  match fd, standard with
  | 0, _ | 1, _ | 2, _ => exact Option.some_ne_none _

theorem allocate_close (same : table.file = stdio.file) (standard : fd < 3) :
    ((table.close fd).allocate file).file = (stdio.redirect fd file).file := by
  have opened : ∀ lower < 3, table.file lower ≠ none := by
    rw [same]
    exact stdio.file_ne_none
  rw [DescriptorTable.allocate_file (close_free table fd) (close_below opened standard),
    DescriptorTable.close_file, Function.update_idem, same, Stdio.redirect_file standard]

variable {readEnd writeEnd : File}

/-- With three descriptors open, the ends of a new pipe are the next two. -/
theorem pipe_eq (readEnd writeEnd : File) (same : table.file = stdio.file) :
    ∃ opened, table.pipe readEnd writeEnd = (3, 4, opened) ∧
      opened.file =
        Function.update (Function.update stdio.file 3 (some readEnd)) 4 (some writeEnd) := by
  have third : table.lowestFree = 3 := by
    refine DescriptorTable.lowestFree_eq ?_ ?_
    · rw [same]
      rfl
    · rw [same]
      exact stdio.file_ne_none
  have fourth : (table.set 3 (some readEnd)).lowestFree = 4 := by
    refine DescriptorTable.lowestFree_eq ?_ ?_
    · rw [DescriptorTable.set_file, same]
      rfl
    · intro lower below
      rw [DescriptorTable.set_file, same]
      match lower, below with
      | 0, _ | 1, _ | 2, _ | 3, _ => exact Option.some_ne_none _
  refine ⟨_, by rw [DescriptorTable.pipe, third, fourth], ?_⟩
  rw [DescriptorTable.set_file, DescriptorTable.set_file, same]

/-- A child of `PIPE`: one end becomes `fd`, and the descriptors of both are closed. -/
theorem dup_end (fd old : ℕ) {opened : DescriptorTable File}
    (same : opened.file =
      Function.update (Function.update stdio.file 3 (some readEnd)) 4 (some writeEnd))
    (standard : fd < 3) (isEnd : opened.file old = some file) (high : 3 ≤ old) :
    (((opened.close fd).dup old).close 3 |>.close 4).file = (stdio.redirect fd file).file := by
  have below : ∀ lower < 3, opened.file lower ≠ none := by
    intro lower low
    rw [same, Function.update_of_ne (by omega), Function.update_of_ne (by omega)]
    exact stdio.file_ne_none lower low
  have kept : (opened.close fd).file old = some file := by
    rw [DescriptorTable.close_file, Function.update_of_ne (by omega), isEnd]
  rw [DescriptorTable.close_file, DescriptorTable.close_file,
    DescriptorTable.dup_file kept (close_free opened fd) (close_below below standard),
    DescriptorTable.close_file, Function.update_idem, same, ← Stdio.redirect_file standard]
  funext other
  simp only [Function.update_apply]
  by_cases four : other = 4
  · subst four
    rw [if_pos rfl, if_neg (by omega)]
    rfl
  · by_cases three : other = 3
    · subst three
      rw [if_neg four, if_pos rfl, if_neg (by omega)]
      rfl
    · simp only [four, three, if_false]

/-- The parent of `PIPE`. -/
theorem close_ends {opened : DescriptorTable File}
    (same : opened.file =
      Function.update (Function.update stdio.file 3 (some readEnd)) 4 (some writeEnd)) :
    ((opened.close 3).close 4).file = stdio.file := by
  rw [DescriptorTable.close_file, DescriptorTable.close_file, same]
  funext other
  match other with
  | 0 | 1 | 2 | 3 | 4 | _ + 5 => rfl

end Tables

section Wiring

variable {text line : List UInt8} {system : System}

/-- The redirections of a command are of its input or its output. -/
def Cmd.Standard : Cmd → Prop
  | .exec _ => True
  | .redir cmd redirection => cmd.Standard ∧ redirection.fd < 2
  | .pipe left right | .list left right => left.Standard ∧ right.Standard
  | .back cmd => cmd.Standard

theorem Cmd.Standard.wrap {cmd : Cmd} {redirections : List Redirection} (inner : cmd.Standard)
    (standard : ∀ redirection ∈ redirections, redirection.fd < 2) :
    (wrap cmd redirections).Standard := by
  induction redirections generalizing cmd with
  | nil => exact inner
  | cons redirection redirections ih =>
      obtain ⟨first, rest⟩ := List.forall_mem_cons.mp standard
      exact ih ⟨inner, first⟩ rest

theorem Redirects.standard {token : Token} {span : Span} {redirection : Redirection}
    (redirects : Redirects token span redirection) : redirection.fd < 2 := by
  cases redirects with
  | input => exact Nat.zero_lt_two
  | output => exact Nat.one_lt_two

theorem Redirs.standard {used : List Token} {redirections : List Redirection}
    (redirs : Redirs used redirections) : ∀ redirection ∈ redirections, redirection.fd < 2 := by
  induction redirs with
  | nil => nofun
  | cons redirects _ ih => exact List.forall_mem_cons.mpr ⟨redirects.standard, ih⟩

theorem Words.standard {used : List Token} {argv : List Span} {redirections : List Redirection}
    (words : Words used argv redirections) :
    ∀ redirection ∈ redirections, redirection.fd < 2 := by
  induction words with
  | nil => nofun
  | arg _ ih => exact ih
  | redir redirects _ ih => exact List.forall_mem_cons.mpr ⟨redirects.standard, ih⟩

theorem Amps.standard {used : List Token} {cmd result : Cmd} (amps : Amps used cmd result)
    (standard : cmd.Standard) : result.Standard := by
  induction amps with
  | nil => exact standard
  | cons _ _ ih => exact ih standard

theorem Line.standard {used : List Token} {cmd : Cmd} (line : Line used cmd) :
    cmd.Standard := by
  refine line.induct (P := fun _ cmd => cmd.Standard) ?_ ?_ ?_ ?_ ?_
  · intro _ _ _ words _
    exact .wrap trivial words.standard
  · intro _ _ _ _ _ _ _ inner _ redirs
    exact .wrap inner redirs.standard
  · intro _ _ _ _ _ first _ more
    exact ⟨first, more⟩
  · intro _ _ _ _ first background
    exact background.standard first
  · intro _ _ _ _ _ first _ more
    exact ⟨first, more⟩

theorem error_file {table : DescriptorTable File} {stdio : Stdio}
    (same : table.file = stdio.file) : table.file 2 = some stdio.error := by
  rw [same]
  rfl

theorem runcmd_map {cmd : Cmd} {table : DescriptorTable File} {stdio : Stdio} (place : Place)
    (strings : ∀ span ∈ cmd.words, cString line span.start = bytes text span)
    (standard : cmd.Standard) (same : table.file = stdio.file) :
    (runcmd line system table place cmd).map DescriptorTable.file =
      (meaning text system stdio place cmd).map Stdio.file := by
  induction cmd generalizing table stdio place with
  | exec argv =>
      cases argv with
      | nil => rfl
      | cons program arguments =>
          have names : (program :: arguments).map (fun span => cString line span.start) =
              (program :: arguments).map (bytes text) := List.map_congr_left strings
          have first := strings program List.mem_cons_self
          rw [runcmd, meaning]
          split
          · rw [Run.map, Run.map, names, same]
          · rw [first, error_file same]
            rfl
  | redir cmd redirection ih =>
      have name := strings redirection.file (List.mem_append_right _ List.mem_cons_self)
      obtain ⟨inner, standard⟩ := standard
      rw [runcmd, meaning]
      dsimp only
      rw [name]
      split
      · exact ih _ (fun span member => strings span (List.mem_append_left _ member)) inner
          (allocate_close same (by omega))
      · rw [DescriptorTable.close_file, Function.update_of_ne (by omega), error_file same]
        rfl
  | list left right leftIH rightIH =>
      obtain ⟨leftStandard, rightStandard⟩ := standard
      have leftSame := leftIH (0 :: place)
        (fun span member => strings span (List.mem_append_left _ member)) leftStandard same
      have rightSame := rightIH (1 :: place)
        (fun span member => strings span (List.mem_append_right _ member)) rightStandard same
      rw [runcmd, meaning]
      split
      · rw [Run.map, Run.map, Run.map, Run.map, leftSame, rightSame, same]
      · rw [error_file same]
        rfl
  | pipe left right leftIH rightIH =>
      obtain ⟨leftStandard, rightStandard⟩ := standard
      obtain ⟨opened, pipe, files⟩ := pipe_eq (.readEnd place) (.writeEnd place) same
      have leftSame := leftIH (0 :: place)
        (fun span member => strings span (List.mem_append_left _ member)) leftStandard
        (dup_end 1 4 files (by omega) (by rw [files]; rfl) (by omega))
      have rightSame := rightIH (1 :: place)
        (fun span member => strings span (List.mem_append_right _ member)) rightStandard
        (dup_end 0 3 files (by omega) (by rw [files]; rfl) (by omega))
      have parent := close_ends files
      have error : opened.file 2 = some stdio.error := by
        rw [files]
        rfl
      rw [runcmd, meaning, pipe]
      dsimp only
      split
      · split
        · split
          · simp only [Run.map, leftSame, rightSame, parent]
            rfl
          · rw [Run.map, Run.map, leftSame, error]
            rfl
        · rw [error]
          rfl
      · rw [error_file same]
        rfl
  | back cmd ih =>
      have inner := ih (0 :: place) strings standard same
      rw [runcmd, meaning]
      split
      · rw [Run.map, Run.map, inner]
        rfl
      · rw [error_file same]
        rfl

/-- The processes of a line hold exactly the files that its meaning gives them. -/
theorem runLine_refines {table : DescriptorTable File} {stdio : Stdio} (isText : IsText text)
    (same : table.file = stdio.file) :
    (runLine system table text).map DescriptorTable.file =
      (meaningLine text system stdio).map Stdio.file := by
  rw [runLine, meaningLine]
  cases parsed : parsecmd text with
  | error failure =>
      dsimp only
      rw [error_file same]
      rfl
  | ok cmd =>
      have standard := ((parsecmd_accepts_iff isText cmd).mp parsed).standard
      exact runcmd_map [] (fun _ member => cString_nulterminate isText parsed member) standard same

/-- The line `a|b` when nothing fails. -/
theorem runLine_refines_pipe :
    let stdio : Stdio := ⟨.inherited 0, .inherited 1, .inherited 2⟩
    let system : System := ⟨fun _ => true, fun _ => true, fun _ => true, fun _ _ => true⟩
    (stdio.table.file = stdio.file) ∧
      (runLine system stdio.table [97, 124, 98]).map DescriptorTable.file =
        (meaningLine [97, 124, 98] system stdio).map Stdio.file := by
  have isText : IsText [97, 124, 98] := isText_of_all rfl
  exact ⟨rfl, runLine_refines isText rfl⟩

end Wiring

section Console

variable {table : DescriptorTable File} {console : File} {fuel : ℕ}

/-- How many of the first three descriptors are free. -/
def free (table : DescriptorTable File) : ℕ :=
  (List.range 3).countP fun fd => (table.file fd).isNone

theorem free_set (console : File) (table : DescriptorTable File) {fd : ℕ} (standard : fd < 3)
    (closed : table.file fd = none) :
    free (table.set fd (some console)) < free table := by
  simp only [free, DescriptorTable.set_file, List.range, List.range.loop, List.countP_cons,
    List.countP_nil]
  match fd, standard with
  | 0, _ => simp [closed]
  | 1, _ => simp [closed]
  | 2, _ => simp [closed]

theorem exists_stdio {file : ℕ → Option File} (opened : ∀ fd < 3, ∃ entry, file fd = some entry)
    (low : ∀ fd, 3 ≤ fd → file fd = none) : ∃ stdio : Stdio, file = stdio.file := by
  obtain ⟨input, first⟩ := opened 0 (by omega)
  obtain ⟨output, second⟩ := opened 1 (by omega)
  obtain ⟨error, third⟩ := opened 2 (by omega)
  refine ⟨⟨input, output, error⟩, ?_⟩
  funext fd
  rcases fd with _ | _ | _ | fd
  · exact first
  · exact second
  · exact third
  · exact low _ (by omega)

/-- After its first loop the shell has just the first three descriptors. -/
theorem openConsole_file (low : ∀ fd, 3 ≤ fd → table.file fd = none)
    (enough : free table < fuel) :
    ∃ stdio : Stdio, (openConsole console fuel table).file = stdio.file := by
  induction fuel generalizing table with
  | zero => omega
  | succ fuel ih =>
      rw [openConsole]
      split
      · next high =>
          have third : table.lowestFree = 3 := by
            have notAbove := DescriptorTable.lowestFree_le (low 3 (by omega))
            omega
          have opened : ∀ fd < 3, ∃ file, table.file fd = some file := by
            intro fd standard
            rw [← Option.ne_none_iff_exists']
            intro closed
            have notAbove := DescriptorTable.lowestFree_le closed
            omega
          rw [DescriptorTable.close_file, DescriptorTable.allocate, DescriptorTable.set_file,
            Function.update_idem, third, Function.update_eq_self_iff.mpr (low 3 (by omega)).symm]
          exact exists_stdio opened low
      · next standard =>
          refine ih ?_ ?_
          · intro fd high
            rw [DescriptorTable.allocate, DescriptorTable.set_file,
              Function.update_of_ne (by omega), low fd high]
          · have fewer := free_set console table (by omega) table.lowestFree_free
            rw [DescriptorTable.allocate]
            omega

end Console

section Ends

/-- The programs and the waiting processes of a run, each with where it is. -/
def Run.processes {Table : Type} : Run Table → List (Place × Table)
  | .exit | .complain _ _ => []
  | .exec place _ table => [(place, table)]
  | .fork child rest => child.processes ++ rest.processes
  | .wait place table rest => (place, table) :: rest.processes

theorem Run.processes_map {Table Other : Type} (view : Table → Other) (run : Run Table) :
    (run.map view).processes = run.processes.map fun process => (process.1, view process.2) := by
  induction run with
  | exit => rfl
  | complain => rfl
  | exec => rfl
  | fork child rest childIH restIH =>
      rw [Run.map, processes, processes, childIH, restIH, List.map_append]
  | wait place table rest ih => rw [Run.map, processes, processes, ih, List.map_cons]

/-- Who holds the end of a pipe is on its side of the pipe. -/
structure OnItsSide (place : Place) (file : ℕ → Option File) : Prop where
  writeEnd {fd : ℕ} {pipe : Place} : file fd = some (.writeEnd pipe) → 0 :: pipe <:+ place
  readEnd {fd : ℕ} {pipe : Place} : file fd = some (.readEnd pipe) → 1 :: pipe <:+ place

variable {text : List UInt8} {system : System} {stdio : Stdio} {place : Place}

theorem OnItsSide.below {file : ℕ → Option File} (side : OnItsSide place file) (child : ℕ) :
    OnItsSide (child :: place) file where
  writeEnd held := (side.writeEnd held).trans (List.suffix_cons child place)
  readEnd held := (side.readEnd held).trans (List.suffix_cons child place)

theorem OnItsSide.redirect {file : File} {fd : ℕ} (side : OnItsSide place stdio.file)
    (standard : fd < 3) (written : ∀ pipe, file = .writeEnd pipe → 0 :: pipe <:+ place)
    (read : ∀ pipe, file = .readEnd pipe → 1 :: pipe <:+ place) :
    OnItsSide place (stdio.redirect fd file).file := by
  rw [← Stdio.redirect_file standard]
  constructor
  · intro other pipe held
    by_cases same : other = fd
    · rw [same, Function.update_self] at held
      exact written pipe (Option.some.inj held)
    · rw [Function.update_of_ne same] at held
      exact side.writeEnd held
  · intro other pipe held
    by_cases same : other = fd
    · rw [same, Function.update_self] at held
      exact read pipe (Option.some.inj held)
    · rw [Function.update_of_ne same] at held
      exact side.readEnd held

theorem meaning_onItsSide {cmd : Cmd} (standard : cmd.Standard)
    (side : OnItsSide place stdio.file) :
    ∀ process ∈ (meaning text system stdio place cmd).processes,
      OnItsSide process.1 process.2.file := by
  induction cmd generalizing stdio place with
  | exec argv =>
      cases argv with
      | nil => nofun
      | cons program arguments =>
          rw [meaning]
          split
          · exact List.forall_mem_singleton.mpr side
          · nofun
  | redir cmd redirection ih =>
      obtain ⟨inner, standard⟩ := standard
      rw [meaning]
      dsimp only
      split
      · refine ih inner (OnItsSide.below (side.redirect (by omega) ?_ ?_) 0)
        all_goals
          intro pipe same
          cases same
      · nofun
  | list left right leftIH rightIH =>
      rw [meaning]
      split
      · refine List.forall_mem_append.mpr ⟨leftIH standard.1 (side.below 0), ?_⟩
        exact List.forall_mem_cons.mpr ⟨side, rightIH standard.2 (side.below 1)⟩
      · nofun
  | pipe left right leftIH rightIH =>
      have leftSide : OnItsSide (0 :: place) (stdio.redirect 1 (.writeEnd place)).file := by
        refine (side.below 0).redirect (by omega) ?_ nofun
        rintro pipe ⟨⟩
        exact List.suffix_refl _
      have rightSide : OnItsSide (1 :: place) (stdio.redirect 0 (.readEnd place)).file := by
        refine (side.below 1).redirect (by omega) nofun ?_
        rintro pipe ⟨⟩
        exact List.suffix_refl _
      rw [meaning]
      split
      · split
        · refine List.forall_mem_append.mpr ⟨leftIH standard.1 leftSide, ?_⟩
          split
          · refine List.forall_mem_append.mpr ⟨rightIH standard.2 rightSide, ?_⟩
            exact List.forall_mem_cons.mpr ⟨side, List.forall_mem_singleton.mpr side⟩
          · nofun
        · nofun
      · nofun
  | back cmd ih =>
      rw [meaning]
      split
      · exact List.forall_mem_append.mpr ⟨ih standard (side.below 0), nofun⟩
      · nofun

/-- No process but those of the left command can keep a pipe from its end of file,
and no process but those of the right command can read from it. -/
theorem runLine_onItsSide {table : DescriptorTable File} (isText : IsText text)
    (same : table.file = (Stdio.mk (.inherited 0) (.inherited 1) (.inherited 2)).file) :
    ∀ process ∈ (runLine system table text).processes,
      OnItsSide process.1 process.2.file := by
  intro process member
  have refines : (runLine system table text).map DescriptorTable.file = _ :=
    runLine_refines isText same
  have mapped : (process.1, process.2.file) ∈
      ((runLine system table text).map DescriptorTable.file).processes := by
    rw [Run.processes_map]
    exact List.mem_map.mpr ⟨process, member, rfl⟩
  rw [refines, Run.processes_map] at mapped
  obtain ⟨other, among, equal⟩ := List.mem_map.mp mapped
  obtain ⟨places, files⟩ := Prod.mk.inj equal
  rw [← places, ← files]
  rw [meaningLine] at among
  cases parsed : parsecmd text with
  | error failure =>
      rw [parsed] at among
      cases among
  | ok cmd =>
      rw [parsed] at among
      refine meaning_onItsSide ((parsecmd_accepts_iff isText cmd).mp parsed).standard ?_ other among
      constructor
      all_goals
        intro fd pipe held
        match fd with
        | 0 | 1 | 2 | _ + 3 => cases held

/-- The line `a|b` when nothing fails. -/
theorem runLine_onItsSide_pipe :
    let stdio : Stdio := ⟨.inherited 0, .inherited 1, .inherited 2⟩
    let system : System := ⟨fun _ => true, fun _ => true, fun _ => true, fun _ _ => true⟩
    ∀ process ∈ (runLine system stdio.table [97, 124, 98]).processes,
      OnItsSide process.1 process.2.file := by
  have isText : IsText [97, 124, 98] := isText_of_all rfl
  exact runLine_onItsSide isText rfl

end Ends

end Ence360.Xv6.Sh
