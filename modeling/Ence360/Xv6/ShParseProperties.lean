import Ence360.Xv6.ShLexProperties

/-!
# The grammar of the shell

`parsecmd` accepts exactly the lines of the grammar, and builds the command that
the grammar gives them. It ends on all lines, also on those that it rejects.
-/

set_option autoImplicit false

namespace Ence360.Xv6.Sh

section Grammar

/-- Both `>` and `>>` create the file and write from its start. -/
inductive Redirects : Token → Span → Redirection → Prop where
  | input {token : Token} {file : Span} (kind : token.kind = less) :
      Redirects token file ⟨file, .rdonly, 0⟩
  | output {token : Token} {file : Span} (kind : token.kind = greater ∨ token.kind = append) :
      Redirects token file ⟨file, .wronlyCreate, 1⟩

inductive Redirs : List Token → List Redirection → Prop where
  | nil : Redirs [] []
  | cons {token : Token} {file : Span} {redirection : Redirection} {rest : List Token}
      {redirections : List Redirection} (redirects : Redirects token file redirection)
      (more : Redirs rest redirections) :
      Redirs (token :: ⟨word, file⟩ :: rest) (redirection :: redirections)

/-- Arguments and redirections in any order. -/
inductive Words : List Token → List Span → List Redirection → Prop where
  | nil : Words [] [] []
  | arg {span : Span} {rest : List Token} {argv : List Span} {redirections : List Redirection}
      (more : Words rest argv redirections) :
      Words (⟨word, span⟩ :: rest) (span :: argv) redirections
  | redir {token : Token} {file : Span} {redirection : Redirection} {rest : List Token}
      {argv : List Span} {redirections : List Redirection}
      (redirects : Redirects token file redirection) (more : Words rest argv redirections) :
      Words (token :: ⟨word, file⟩ :: rest) argv (redirection :: redirections)

inductive Amps : List Token → Cmd → Cmd → Prop where
  | nil {cmd : Cmd} : Amps [] cmd cmd
  | cons {token : Token} {rest : List Token} {cmd result : Cmd} (kind : token.kind = amp)
      (more : Amps rest (.back cmd) result) : Amps (token :: rest) cmd result

mutual

inductive Line : List Token → Cmd → Prop where
  | single {pipe amps : List Token} {cmd result : Cmd} (first : Pipeline pipe cmd)
      (background : Amps amps cmd result) : Line (pipe ++ amps) result
  | list {pipe amps rest : List Token} {token : Token} {cmd result right : Cmd}
      (first : Pipeline pipe cmd) (background : Amps amps cmd result)
      (kind : token.kind = semi) (more : Line rest right) :
      Line (pipe ++ amps ++ token :: rest) (.list result right)

inductive Pipeline : List Token → Cmd → Prop where
  | single {tokens : List Token} {cmd : Cmd} (first : Exec tokens cmd) : Pipeline tokens cmd
  | pipe {tokens rest : List Token} {token : Token} {cmd right : Cmd} (first : Exec tokens cmd)
      (kind : token.kind = bar) (more : Pipeline rest right) :
      Pipeline (tokens ++ token :: rest) (.pipe cmd right)

inductive Exec : List Token → Cmd → Prop where
  | words {tokens : List Token} {argv : List Span} {redirections : List Redirection}
      (simple : Words tokens argv redirections) (few : argv.length < maxArgs) :
      Exec tokens (wrap (.exec argv) redirections)
  | block {opening closing : Token} {tokens rest : List Token} {cmd : Cmd}
      {redirections : List Redirection} (open_ : opening.kind = lparen) (line : Line tokens cmd)
      (close : closing.kind = rparen) (redirs : Redirs rest redirections) :
      Exec (opening :: tokens ++ closing :: rest) (wrap cmd redirections)

end

/-- What holds of simple commands and is kept by the rest of the grammar. -/
theorem Line.induct {P : List Token → Cmd → Prop}
    (words : ∀ {used argv redirections}, Words used argv redirections →
      argv.length < maxArgs → P used (wrap (.exec argv) redirections))
    (block : ∀ {opening closing : Token} {used rest cmd redirections}, opening.kind = lparen →
      P used cmd → closing.kind = rparen → Redirs rest redirections →
      P (opening :: used ++ closing :: rest) (wrap cmd redirections))
    (pipe : ∀ {token : Token} {used rest cmd right}, P used cmd → token.kind = bar →
      P rest right → P (used ++ token :: rest) (.pipe cmd right))
    (background : ∀ {used amps cmd result}, P used cmd → Amps amps cmd result →
      P (used ++ amps) result)
    (list : ∀ {token : Token} {used rest cmd right}, P used cmd → token.kind = semi →
      P rest right → P (used ++ token :: rest) (.list cmd right))
    {used : List Token} {cmd : Cmd} (line : Line used cmd) : P used cmd := by
  refine @Line.rec (fun used cmd _ => P used cmd) (fun used cmd _ => P used cmd)
    (fun used cmd _ => P used cmd) ?_ ?_ ?_ ?_ ?_ ?_ used cmd line
  · intro pipeline amps cmd result _ ampersands first
    exact background first ampersands
  · intro pipeline amps rest token cmd result right _ ampersands kind _ first more
    exact list (background first ampersands) kind more
  · intro used cmd _ first
    exact first
  · intro used rest token cmd right _ kind _ first more
    exact pipe first kind more
  · intro used argv redirections simple few
    exact words simple few
  · intro opening closing used rest cmd redirections opens _ closes redirs inner
    exact block opens inner closes redirs

end Grammar

section Reading

variable {text : List UInt8} {s middle after : ℕ} {used more : List Token}

/-- The tokens between two positions of the line. -/
structure Reads (text : List UInt8) (s : ℕ) (used : List Token) (after : ℕ) : Prop where
  tokens_eq : tokens text s = used ++ tokens text after
  within : s ≤ text.length → after ≤ text.length

theorem Reads.skip (isText : IsText text) (s : ℕ) : Reads text s [] (skip text s) where
  tokens_eq := (tokens_skip isText s).symm
  within := advance_le

theorem Reads.trans (first : Reads text s used middle) (second : Reads text middle more after) :
    Reads text s (used ++ more) after where
  tokens_eq := by rw [first.tokens_eq, second.tokens_eq, List.append_assoc]
  within inside := second.within (first.within inside)

theorem Reads.gettoken (isText : IsText text) (more : (gettoken text s).1.kind ≠ 0) :
    Reads text s [(gettoken text s).1] (gettoken text s).2 where
  tokens_eq := (tokens_eq_cons_iff isText).mpr ⟨more, rfl, rfl⟩
  within _ := by
    have inside : Sh.skip text s < text.length :=
      Nat.lt_of_not_le fun ended => more ((gettoken_kind_eq_zero_iff isText).mpr ended)
    exact (gettoken_advances isText inside).2

theorem Reads.peeked (isText : IsText text) {toks : List UInt8} (special : toks ⊆ symbols)
    (peeked : peek text s toks = true) :
    Reads text s [(Sh.gettoken text s).1] (Sh.gettoken text s).2 ∧
      (Sh.gettoken text s).1.kind ∈ kinds toks := by
  obtain ⟨token, rest, found, member⟩ := (peek_iff isText special).mp peeked
  obtain ⟨kind, rfl, -⟩ := (tokens_eq_cons_iff isText).mp found
  exact ⟨.gettoken isText kind, member⟩

/-- At the end of the line `gettoken` only skips white space. -/
theorem Reads.ended (isText : IsText text) (ended : (Sh.gettoken text s).1.kind = 0) :
    Reads text s [] (Sh.gettoken text s).2 := by
  have zero : charAt text (Sh.skip text s) = 0 :=
    (charAt_eq_zero_iff isText).mpr ((gettoken_kind_eq_zero_iff isText).mp ended)
  have position : (Sh.gettoken text s).2 = Sh.skip text s := by
    rw [Sh.gettoken, scan]
    simp only [zero, if_true]
    exact skip_skip text s
  rw [position]
  exact .skip isText s

end Reading

section Soundness

variable {text : List UInt8} {s after fuel : ℕ} {cmd result : Cmd}

theorem except_bind_ok {Value Result : Type} {source : Except Failure Value}
    {continuation : Value → Except Failure Result} {result : Result}
    (success : source >>= continuation = .ok result) :
    ∃ value, source = .ok value ∧ continuation value = .ok result := by
  cases source with
  | error => cases success
  | ok value => exact ⟨value, rfl, success⟩

theorem parseredirs_sound (isText : IsText text) {redirections : List Redirection}
    (parsed : parseredirs text fuel s = .ok (redirections, after)) :
    ∃ used, Reads text s used after ∧ Redirs used redirections := by
  induction fuel generalizing s redirections with
  | zero => cases parsed
  | succ fuel ih =>
      rw [parseredirs] at parsed
      by_cases peeked : peek text s [less, greater] = true
      · rw [if_pos peeked] at parsed
        dsimp only at parsed
        obtain ⟨first, member⟩ := Reads.peeked isText (by decide) peeked
        generalize gettoken text s = token at parsed first member
        obtain ⟨token, middle⟩ := token
        split at parsed
        · cases parsed
        · next file =>
            have file : (gettoken text middle).1.kind = word := not_not.mp file
            have second := Reads.gettoken (s := middle) isText (by rw [file]; decide)
            obtain ⟨⟨redirections', last⟩, tail, done⟩ := except_bind_ok parsed
            cases done
            obtain ⟨used, reads, redirs⟩ := ih tail
            refine ⟨_, (first.trans second).trans reads, ?_⟩
            generalize gettoken text middle = next at file
            obtain ⟨⟨kind, span⟩, position⟩ := next
            cases file
            refine .cons ?_ redirs
            dsimp only at member ⊢
            split
            · next input => exact .input input
            · next output =>
                have member : token.kind ∈ [append, less, greater] := member
                have other : token.kind = append ∨ token.kind = greater := by
                  simpa [output] using member
                exact .output other.symm
      · rw [if_neg peeked] at parsed
        cases parsed
        exact ⟨[], .skip isText s, .nil⟩

theorem Redirs.words {used more : List Token} {argv : List Span}
    {redirections others : List Redirection} (redirs : Redirs used redirections)
    (words : Words more argv others) : Words (used ++ more) argv (redirections ++ others) := by
  induction redirs with
  | nil => exact words
  | cons redirects _ ih => exact .redir redirects ih

theorem parseargs_sound (isText : IsText text) {slots : ℕ} {argv : List Span}
    {redirections : List Redirection}
    (parsed : parseargs text slots s = .ok (argv, redirections, after)) :
    ∃ used, Reads text s used after ∧ Words used argv redirections ∧
      (argv = [] ∨ argv.length < slots) := by
  induction slots using Nat.strongRecOn generalizing s argv redirections with
  | _ slots ih =>
      rw [parseargs] at parsed
      by_cases peeked : peek text s [bar, rparen, amp, semi] = true
      · rw [if_pos peeked] at parsed
        cases parsed
        exact ⟨[], .skip isText s, .nil, .inl rfl⟩
      · rw [if_neg peeked] at parsed
        dsimp only at parsed
        split at parsed
        · next ended =>
            cases parsed
            exact ⟨[], .ended isText ended, .nil, .inl rfl⟩
        · next more =>
            split at parsed
            · cases parsed
            · next kind =>
                have kind : (gettoken text s).1.kind = word := not_not.mp kind
                have first := Reads.gettoken (s := s) isText more
                split at parsed
                · cases parsed
                · cases parsed
                · next slots =>
                    obtain ⟨⟨rest, middle⟩, head, parsed⟩ := except_bind_ok parsed
                    obtain ⟨⟨argv', others, last⟩, tail, done⟩ := except_bind_ok parsed
                    cases done
                    obtain ⟨_, second, redirs⟩ := parseredirs_sound isText head
                    obtain ⟨_, third, words, few⟩ := ih (slots + 1) (by omega) tail
                    refine ⟨_, first.trans (second.trans third), ?_, .inr ?_⟩
                    · generalize gettoken text s = token at kind
                      obtain ⟨⟨_, span⟩, position⟩ := token
                      cases kind
                      exact .arg (redirs.words words)
                    · rcases few with rfl | few
                      · rw [List.length_singleton]
                        omega
                      · rw [List.length_cons]
                        exact Nat.succ_lt_succ few

theorem parseamps_sound (isText : IsText text)
    (parsed : parseamps text fuel cmd s = .ok (result, after)) :
    ∃ used, Reads text s used after ∧ Amps used cmd result := by
  induction fuel generalizing s cmd with
  | zero => cases parsed
  | succ fuel ih =>
      rw [parseamps] at parsed
      by_cases peeked : peek text s [amp] = true
      · rw [if_pos peeked] at parsed
        obtain ⟨first, member⟩ := Reads.peeked isText (by decide) peeked
        obtain ⟨_, second, amps⟩ := ih parsed
        exact ⟨_, first.trans second, .cons (List.mem_singleton.mp member) amps⟩
      · rw [if_neg peeked] at parsed
        cases parsed
        exact ⟨[], .skip isText s, .nil⟩

/-- What the calls with some fuel below `parseline` accept. -/
structure SoundAt (text : List UInt8) (fuel : ℕ) : Prop where
  line {s after : ℕ} {cmd : Cmd} : parseline text fuel s = .ok (cmd, after) →
    ∃ used, Reads text s used after ∧ Line used cmd
  pipe {s after : ℕ} {cmd : Cmd} : parsepipe text fuel s = .ok (cmd, after) →
    ∃ used, Reads text s used after ∧ Pipeline used cmd
  exec {s after : ℕ} {cmd : Cmd} : parseexec text fuel s = .ok (cmd, after) →
    ∃ used, Reads text s used after ∧ Exec used cmd
  block {s after : ℕ} {cmd : Cmd} : parseblock text fuel s = .ok (cmd, after) →
    ∃ used, Reads text s used after ∧ Exec used cmd

theorem parseline_sound (isText : IsText text) (below : SoundAt text fuel)
    (parsed : parseline text (fuel + 1) s = .ok (cmd, after)) :
    ∃ used, Reads text s used after ∧ Line used cmd := by
  rw [parseline] at parsed
  obtain ⟨⟨first, _⟩, head, parsed⟩ := except_bind_ok parsed
  obtain ⟨⟨result, position⟩, ampersands, parsed⟩ := except_bind_ok parsed
  obtain ⟨_, readsPipe, pipeline⟩ := below.pipe head
  obtain ⟨_, readsAmps, amps⟩ := parseamps_sound isText ampersands
  have reads := readsPipe.trans readsAmps
  by_cases peeked : peek text position [semi] = true
  · dsimp only at parsed
    rw [if_pos peeked] at parsed
    obtain ⟨⟨right, last⟩, tail, done⟩ := except_bind_ok parsed
    cases done
    obtain ⟨readsSemi, member⟩ := Reads.peeked isText (by decide) peeked
    obtain ⟨_, readsLine, line⟩ := below.line tail
    exact ⟨_, reads.trans (readsSemi.trans readsLine),
      .list pipeline amps (List.mem_singleton.mp member) line⟩
  · dsimp only at parsed
    rw [if_neg peeked] at parsed
    cases parsed
    refine ⟨_, reads.trans (.skip isText position), ?_⟩
    rw [List.append_nil]
    exact .single pipeline amps

theorem parsepipe_sound (isText : IsText text) (below : SoundAt text fuel)
    (parsed : parsepipe text (fuel + 1) s = .ok (cmd, after)) :
    ∃ used, Reads text s used after ∧ Pipeline used cmd := by
  rw [parsepipe] at parsed
  obtain ⟨⟨first, position⟩, head, parsed⟩ := except_bind_ok parsed
  obtain ⟨_, reads, exec⟩ := below.exec head
  by_cases peeked : peek text position [bar] = true
  · dsimp only at parsed
    rw [if_pos peeked] at parsed
    obtain ⟨⟨right, last⟩, tail, done⟩ := except_bind_ok parsed
    cases done
    obtain ⟨readsBar, member⟩ := Reads.peeked isText (by decide) peeked
    obtain ⟨_, readsPipe, pipeline⟩ := below.pipe tail
    exact ⟨_, reads.trans (readsBar.trans readsPipe),
      .pipe exec (List.mem_singleton.mp member) pipeline⟩
  · dsimp only at parsed
    rw [if_neg peeked] at parsed
    cases parsed
    refine ⟨_, reads.trans (.skip isText position), ?_⟩
    rw [List.append_nil]
    exact .single exec

theorem parseexec_sound (isText : IsText text) (below : SoundAt text fuel)
    (parsed : parseexec text (fuel + 1) s = .ok (cmd, after)) :
    ∃ used, Reads text s used after ∧ Exec used cmd := by
  rw [parseexec] at parsed
  by_cases peeked : peek text s [lparen] = true
  · rw [if_pos peeked] at parsed
    obtain ⟨_, reads, exec⟩ := below.block parsed
    exact ⟨_, (Reads.skip isText s).trans reads, exec⟩
  · rw [if_neg peeked] at parsed
    obtain ⟨⟨redirections, _⟩, head, parsed⟩ := except_bind_ok parsed
    obtain ⟨⟨argv, more, last⟩, tail, done⟩ := except_bind_ok parsed
    cases done
    obtain ⟨_, readsRedirs, redirs⟩ := parseredirs_sound isText head
    obtain ⟨_, readsWords, words, few⟩ := parseargs_sound isText tail
    refine ⟨_, (Reads.skip isText s).trans (readsRedirs.trans readsWords),
      .words (redirs.words words) ?_⟩
    rcases few with rfl | few
    · decide
    · exact few

theorem parseblock_sound (isText : IsText text) (below : SoundAt text fuel)
    (parsed : parseblock text (fuel + 1) s = .ok (cmd, after)) :
    ∃ used, Reads text s used after ∧ Exec used cmd := by
  rw [parseblock] at parsed
  split at parsed
  · cases parsed
  · next opened =>
      obtain ⟨⟨inner, position⟩, head, parsed⟩ := except_bind_ok parsed
      dsimp only at parsed
      split at parsed
      · cases parsed
      · next closed =>
          obtain ⟨⟨redirections, last⟩, tail, done⟩ := except_bind_ok parsed
          cases done
          obtain ⟨readsOpen, opening⟩ := Reads.peeked isText (by decide) (not_not.mp opened)
          obtain ⟨_, readsLine, line⟩ := below.line head
          obtain ⟨readsClose, closing⟩ := Reads.peeked isText (by decide) (not_not.mp closed)
          obtain ⟨_, readsRedirs, redirs⟩ := parseredirs_sound isText tail
          exact ⟨_, (readsOpen.trans readsLine).trans (readsClose.trans readsRedirs),
            .block (List.mem_singleton.mp opening) line (List.mem_singleton.mp closing) redirs⟩

theorem soundAt (isText : IsText text) (fuel : ℕ) : SoundAt text fuel := by
  induction fuel with
  | zero =>
      constructor
      all_goals
        intro s after cmd parsed
        simp [parseline, parsepipe, parseexec, parseblock] at parsed
  | succ fuel ih =>
      exact ⟨parseline_sound isText ih, parsepipe_sound isText ih, parseexec_sound isText ih,
        parseblock_sound isText ih⟩

end Soundness

section Completeness

variable {text : List UInt8} {s fuel : ℕ} {used rest : List Token}

theorem length_tokens_le (text : List UInt8) (s : ℕ) :
    (tokens text s).length ≤ text.length - s := by
  induction s using tokens.induct text with
  | case1 s more ih =>
      rw [tokens, if_pos more, List.length_cons]
      omega
  | case2 s ended =>
      rw [tokens, if_neg ended]
      exact Nat.zero_le _

/-- What comes next is one of these or the end. -/
def Follow (allowed : List UInt8) (rest : List Token) : Prop :=
  ∀ token ∈ rest.head?, token.kind ∈ allowed

theorem Follow.mono {allowed others : List UInt8} (follow : Follow allowed rest)
    (weaker : allowed ⊆ others) : Follow others rest :=
  fun token first => weaker (follow token first)

theorem Follow.nil {allowed : List UInt8} : Follow allowed [] :=
  nofun

theorem Follow.cons {allowed : List UInt8} {token : Token} (member : token.kind ∈ allowed) :
    Follow allowed (token :: rest) := by
  rintro other ⟨⟩
  exact member

theorem peek_of_follow (isText : IsText text) {allowed toks : List UInt8}
    (special : toks ⊆ symbols) (follow : Follow allowed (tokens text s))
    (apart : allowed.all (· ∉ kinds toks) = true) : ¬ peek text s toks = true := by
  intro peeked
  obtain ⟨token, rest, found, member⟩ := (peek_iff isText special).mp peeked
  rw [found] at follow
  exact of_decide_eq_true (List.all_eq_true.mp apart _ (follow token rfl)) member

/-- The parser succeeds with the value and stops before `rest`. -/
def Yields {Value : Type} (text : List UInt8) (run : Except Failure (Value × ℕ)) (value : Value)
    (rest : List Token) : Prop :=
  ∃ after, run = .ok (value, after) ∧ tokens text after = rest

theorem Amps.follow {allowed : List UInt8} {cmd result : Cmd} (amps : Amps used cmd result)
    (follow : Follow allowed rest) : Follow (amp :: allowed) (used ++ rest) := by
  cases amps with
  | nil => exact follow.mono (List.subset_cons_self _ _)
  | cons kind => exact .cons (by simp [kind])

theorem Redirects.member {token : Token} {file : Span} {redirection : Redirection}
    (redirects : Redirects token file redirection) : token.kind ∈ [append, less, greater] := by
  cases redirects with
  | input kind => simp [kind]
  | output kind => rcases kind with kind | kind <;> simp [kind]

theorem Words.follow {allowed : List UInt8} {argv : List Span} {redirections : List Redirection}
    (words : Words used argv redirections) (follow : Follow allowed rest) :
    Follow (word :: append :: less :: greater :: allowed) (used ++ rest) := by
  cases words with
  | nil => exact follow.mono fun _ member => by simp [member]
  | arg => exact .cons (by simp)
  | redir redirects =>
      exact .cons (List.mem_cons_of_mem _ (List.mem_append_left allowed redirects.member))

/-- One redirection, as `parseredirs` reads it. -/
theorem parseredirs_cons (isText : IsText text) {token : Token} {file : Span}
    {redirection : Redirection} (redirects : Redirects token file redirection)
    (found : tokens text s = token :: ⟨word, file⟩ :: rest) :
    ∃ middle, tokens text middle = rest ∧ ∀ fuel, parseredirs text (fuel + 1) s =
      (parseredirs text fuel middle >>= fun tail => pure (redirection :: tail.1, tail.2)) := by
  obtain ⟨-, first, second⟩ := (tokens_eq_cons_iff isText).mp found
  obtain ⟨-, third, fourth⟩ := (tokens_eq_cons_iff isText).mp second
  refine ⟨_, fourth, fun fuel => ?_⟩
  have peeked : peek text s [less, greater] = true :=
    (peek_iff isText (by decide)).mpr ⟨token, _, found, redirects.member⟩
  rw [parseredirs, if_pos peeked]
  dsimp only
  rw [third, if_neg (not_not.mpr rfl), first]
  cases redirects with
  | input kind => rw [if_pos kind]
  | output kind =>
      have other : token.kind ≠ less := by
        rcases kind with kind | kind <;> rw [kind] <;> decide
      rw [if_neg other]

theorem parseredirs_nil (isText : IsText text) {allowed : List UInt8}
    (follow : Follow allowed (tokens text s))
    (apart : allowed.all (· ∉ kinds [less, greater]) = true) :
    parseredirs text (fuel + 1) s = .ok ([], skip text s) := by
  rw [parseredirs, if_neg (peek_of_follow isText (by decide) follow apart)]
  rfl

theorem Redirs.complete (isText : IsText text) {redirections : List Redirection}
    {allowed : List UInt8} (redirs : Redirs used redirections)
    (found : tokens text s = used ++ rest) (enough : used.length < fuel)
    (follow : Follow allowed rest) (apart : allowed.all (· ∉ kinds [less, greater]) = true) :
    Yields text (parseredirs text fuel s) redirections rest := by
  induction redirs generalizing s fuel with
  | nil =>
      obtain ⟨fuel, rfl⟩ : ∃ n, fuel = n + 1 := ⟨fuel - 1, by omega⟩
      rw [parseredirs_nil isText (found ▸ follow) apart]
      exact ⟨_, rfl, (tokens_skip isText s).trans found⟩
  | cons redirects _ ih =>
      obtain ⟨fuel, rfl⟩ : ∃ n, fuel = n + 1 := ⟨fuel - 1, by omega⟩
      obtain ⟨middle, next, step⟩ := parseredirs_cons isText redirects found
      have shorter := Nat.lt_of_succ_lt (Nat.lt_of_succ_lt_succ enough)
      obtain ⟨after, tail, left⟩ := ih next shorter
      rw [step, tail]
      exact ⟨after, rfl, left⟩

theorem Amps.complete (isText : IsText text) {cmd result : Cmd} {allowed : List UInt8}
    (amps : Amps used cmd result) (found : tokens text s = used ++ rest)
    (enough : used.length < fuel) (follow : Follow allowed rest) (apart : amp ∉ allowed) :
    Yields text (parseamps text fuel cmd s) result rest := by
  induction amps generalizing s fuel with
  | nil =>
      obtain ⟨fuel, rfl⟩ : ∃ n, fuel = n + 1 := ⟨fuel - 1, by omega⟩
      have other : allowed.all (· ∉ kinds [amp]) = true := by
        refine List.all_eq_true.mpr fun kind member => decide_eq_true fun same => ?_
        rw [List.mem_singleton.mp same] at member
        exact apart member
      have follow : Follow allowed (tokens text s) := by
        rw [found]
        exact follow
      rw [parseamps, if_neg (peek_of_follow isText (by decide) follow other)]
      exact ⟨_, rfl, (tokens_skip isText s).trans found⟩
  | cons kind _ ih =>
      obtain ⟨fuel, rfl⟩ : ∃ n, fuel = n + 1 := ⟨fuel - 1, by omega⟩
      obtain ⟨-, -, next⟩ := (tokens_eq_cons_iff isText).mp found
      have peeked : peek text s [amp] = true :=
        (peek_iff isText (by decide)).mpr ⟨_, _, found, List.mem_singleton.mpr kind⟩
      rw [parseamps, if_pos peeked]
      exact ih next (Nat.lt_of_succ_lt_succ enough)

/-- What may come after a command that is not in a pipeline or a list. -/
def delimiters : List UInt8 := [bar, amp, semi, rparen]

theorem parseargs_nil (isText : IsText text) {slots : ℕ}
    (follow : Follow delimiters (tokens text s)) :
    ∃ after, parseargs text slots s = .ok ([], [], after) ∧
      tokens text after = tokens text s := by
  rw [parseargs]
  by_cases peeked : peek text s [bar, rparen, amp, semi] = true
  · rw [if_pos peeked]
    exact ⟨_, rfl, tokens_skip isText s⟩
  · rw [if_neg peeked]
    have ended : (gettoken text s).1.kind = 0 := by
      by_contra kind
      have found := (Reads.gettoken isText kind).tokens_eq
      rw [found] at follow
      have among : delimiters ⊆ kinds [bar, rparen, amp, semi] := by decide
      exact peeked ((peek_iff isText (by decide)).mpr ⟨_, _, found, among (follow _ rfl)⟩)
    dsimp only
    rw [if_pos ended]
    have reads := Reads.ended isText ended
    exact ⟨_, rfl, reads.tokens_eq.symm⟩

/-- One argument and what comes with it, as `parseargs` reads them. -/
theorem parseargs_cons (isText : IsText text) {span : Span}
    (found : tokens text s = ⟨word, span⟩ :: rest) :
    ∃ middle, tokens text middle = rest ∧ ∀ slots, parseargs text (slots + 2) s = (do
      let (redirections, s) ← parseredirs text (text.length + 1) middle
      let (argv, more, s) ← parseargs text (slots + 1) s
      return (span :: argv, redirections ++ more, s)) := by
  obtain ⟨-, first, second⟩ := (tokens_eq_cons_iff isText).mp found
  refine ⟨_, second, fun slots => ?_⟩
  have next : Follow [word] (tokens text s) := by
    rw [found]
    exact .cons (List.mem_singleton.mpr rfl)
  rw [parseargs, if_neg (peek_of_follow isText (by decide) next (by decide))]
  dsimp only
  rw [first, if_neg (by decide : word ≠ 0), if_neg (not_not.mpr rfl)]

theorem Words.complete (isText : IsText text) {argv : List Span} {redirections : List Redirection}
    (words : Words used argv redirections) (follow : Follow delimiters rest) {slots : ℕ}
    (found : tokens text s = used ++ rest) (enough : used.length < fuel)
    (few : argv.length < slots) :
    ∃ before more middle, redirections = before ++ more ∧
      parseredirs text fuel s = .ok (before, middle) ∧
      ∃ after, parseargs text slots middle = .ok (argv, more, after) ∧
        tokens text after = rest := by
  induction words generalizing s fuel slots with
  | nil =>
      obtain ⟨fuel, rfl⟩ : ∃ n, fuel = n + 1 := ⟨fuel - 1, by omega⟩
      have here : tokens text (skip text s) = rest := (tokens_skip isText s).trans found
      have next : Follow delimiters (tokens text s) := by
        rw [found]
        exact follow
      refine ⟨[], [], _, rfl, parseredirs_nil isText next (by decide), ?_⟩
      rw [← here]
      exact parseargs_nil isText (by rw [here]; exact follow)
  | arg words ih =>
      obtain ⟨fuel, rfl⟩ : ∃ n, fuel = n + 1 := ⟨fuel - 1, by omega⟩
      rw [List.cons_append] at found
      have here := (tokens_skip isText s).trans found
      have next : Follow [word] (tokens text s) := by
        rw [found]
        exact .cons (List.mem_singleton.mpr rfl)
      obtain ⟨slots, rfl⟩ : ∃ n, slots = n + 2 :=
        ⟨slots - 2, by rw [List.length_cons] at few; omega⟩
      obtain ⟨position, behind, step⟩ := parseargs_cons isText here
      have short := length_tokens_le text position
      rw [behind, List.length_append] at short
      obtain ⟨before, more, middle, rfl, head, after, tail, left⟩ :=
        ih behind (by omega : _ < text.length + 1) (Nat.lt_of_succ_lt_succ few)
      refine ⟨[], _, _, rfl, parseredirs_nil isText next (by decide), after, ?_, left⟩
      rw [step, head]
      dsimp only [bind, Except.bind]
      rw [tail]
      rfl
  | redir redirects words ih =>
      obtain ⟨fuel, rfl⟩ : ∃ n, fuel = n + 1 := ⟨fuel - 1, by omega⟩
      obtain ⟨position, next, step⟩ := parseredirs_cons isText redirects found
      have shorter := Nat.lt_of_succ_lt (Nat.lt_of_succ_lt_succ enough)
      obtain ⟨before, more, middle, rfl, head, tail⟩ := ih next shorter few
      rw [step, head]
      exact ⟨_, more, middle, rfl, rfl, tail⟩

theorem Yields.block (isText : IsText text) {opening closing : Token} {cmd : Cmd}
    {tail : List Token} {redirections : List Redirection} (opens : opening.kind = lparen)
    (closes : closing.kind = rparen) (redirs : Redirs tail redirections)
    (follow : Follow delimiters rest)
    (line : ∀ s, tokens text s = used ++ closing :: (tail ++ rest) →
      Yields text (parseline text fuel s) cmd (closing :: (tail ++ rest)))
    (found : tokens text s = opening :: (used ++ closing :: (tail ++ rest))) :
    Yields text (parseexec text (fuel + 2) s) (wrap cmd redirections) rest := by
  have skipped := (tokens_skip isText s).trans found
  have peeked : ∀ s', tokens text s' = opening :: (used ++ closing :: (tail ++ rest)) →
      peek text s' [lparen] = true := fun s' here =>
    (peek_iff isText (by decide)).mpr ⟨_, _, here, List.mem_singleton.mpr opens⟩
  obtain ⟨-, -, inside⟩ := (tokens_eq_cons_iff isText).mp skipped
  obtain ⟨position, parsed, before⟩ := line _ inside
  obtain ⟨-, -, outside⟩ := (tokens_eq_cons_iff isText).mp before
  have closed : peek text position [rparen] = true :=
    (peek_iff isText (by decide)).mpr ⟨_, _, before, List.mem_singleton.mpr closes⟩
  have short := length_tokens_le text (gettoken text position).2
  rw [outside, List.length_append] at short
  obtain ⟨after, redirected, left⟩ :=
    redirs.complete isText outside (by omega : _ < text.length + 1) follow (by decide)
  refine ⟨after, ?_, left⟩
  rw [parseexec, if_pos (peeked s found), parseblock, if_neg (not_not.mpr (peeked _ skipped))]
  dsimp only [bind, Except.bind, pure, Except.pure]
  rw [parsed]
  dsimp only
  rw [if_neg (not_not.mpr closed), redirected]

theorem Yields.words (isText : IsText text) {argv : List Span}
    {redirections : List Redirection} (words : Words used argv redirections)
    (few : argv.length < maxArgs) (follow : Follow delimiters rest)
    (found : tokens text s = used ++ rest) :
    Yields text (parseexec text (fuel + 1) s) (wrap (.exec argv) redirections) rest := by
  have next := words.follow follow
  rw [← found] at next
  have skipped := (tokens_skip isText s).trans found
  have short := length_tokens_le text (skip text s)
  rw [skipped, List.length_append] at short
  obtain ⟨before, more, middle, rfl, head, after, tail, left⟩ :=
    words.complete isText follow skipped (by omega : _ < text.length + 1) few
  refine ⟨after, ?_, left⟩
  rw [parseexec, if_neg (peek_of_follow isText (by decide) next (by decide))]
  dsimp only [bind, Except.bind, pure, Except.pure]
  rw [head]
  dsimp only
  rw [tail]

theorem Yields.pipeSingle (isText : IsText text) {cmd : Cmd}
    (follow : Follow [amp, semi, rparen] rest)
    (exec : Yields text (parseexec text fuel s) cmd rest) :
    Yields text (parsepipe text (fuel + 1) s) cmd rest := by
  obtain ⟨after, parsed, left⟩ := exec
  rw [← left] at follow
  refine ⟨skip text after, ?_, (tokens_skip isText after).trans left⟩
  rw [parsepipe, parsed]
  dsimp only [bind, Except.bind, pure, Except.pure]
  rw [if_neg (peek_of_follow isText (by decide) follow (by decide))]

theorem Yields.pipe (isText : IsText text) {token : Token} {cmd right : Cmd}
    {more : List Token} (kind : token.kind = bar)
    (exec : Yields text (parseexec text fuel s) cmd (token :: more))
    (pipe : ∀ s, tokens text s = more → Yields text (parsepipe text fuel s) right rest) :
    Yields text (parsepipe text (fuel + 1) s) (.pipe cmd right) rest := by
  obtain ⟨position, parsed, left⟩ := exec
  obtain ⟨-, -, next⟩ := (tokens_eq_cons_iff isText).mp left
  obtain ⟨after, others, left'⟩ := pipe _ next
  have peeked : peek text position [bar] = true :=
    (peek_iff isText (by decide)).mpr ⟨_, _, left, List.mem_singleton.mpr kind⟩
  refine ⟨after, ?_, left'⟩
  rw [parsepipe, parsed]
  dsimp only [bind, Except.bind, pure, Except.pure]
  rw [if_pos peeked, others]

theorem Yields.lineSingle (isText : IsText text) {amps : List Token} {cmd result : Cmd}
    (follow : Follow [rparen] rest) (background : Amps amps cmd result)
    (pipe : Yields text (parsepipe text fuel s) cmd (amps ++ rest)) :
    Yields text (parseline text (fuel + 1) s) result rest := by
  obtain ⟨position, parsed, left⟩ := pipe
  have short := length_tokens_le text position
  rw [left, List.length_append] at short
  obtain ⟨after, behind, left⟩ :=
    background.complete isText left (by omega : _ < text.length + 1) follow (by decide)
  rw [← left] at follow
  refine ⟨skip text after, ?_, (tokens_skip isText after).trans left⟩
  rw [parseline, parsed]
  dsimp only [bind, Except.bind, pure, Except.pure]
  rw [behind]
  dsimp only
  rw [if_neg (peek_of_follow isText (by decide) follow (by decide))]

theorem Yields.list (isText : IsText text) {amps more : List Token} {token : Token}
    {cmd result right : Cmd} (background : Amps amps cmd result) (kind : token.kind = semi)
    (pipe : Yields text (parsepipe text fuel s) cmd (amps ++ token :: more))
    (line : ∀ s, tokens text s = more → Yields text (parseline text fuel s) right rest) :
    Yields text (parseline text (fuel + 1) s) (.list result right) rest := by
  obtain ⟨position, parsed, left⟩ := pipe
  have short := length_tokens_le text position
  rw [left, List.length_append] at short
  have follow : Follow [semi] (token :: more) := .cons (List.mem_singleton.mpr kind)
  obtain ⟨middle, behind, left⟩ :=
    background.complete isText left (by omega : _ < text.length + 1) follow (by decide)
  obtain ⟨-, -, next⟩ := (tokens_eq_cons_iff isText).mp left
  obtain ⟨after, others, left'⟩ := line _ next
  have peeked : peek text middle [semi] = true :=
    (peek_iff isText (by decide)).mpr ⟨_, _, left, List.mem_singleton.mpr kind⟩
  refine ⟨after, ?_, left'⟩
  rw [parseline, parsed]
  dsimp only [bind, Except.bind, pure, Except.pure]
  rw [behind]
  dsimp only
  rw [if_pos peeked, others]

-- Four calls lead from a block back to a line, and the block has two tokens more.
mutual

theorem Line.complete (isText : IsText text) {used rest : List Token} {cmd : Cmd} {s fuel : ℕ}
    (line : Line used cmd) (follow : Follow [rparen] rest) (found : tokens text s = used ++ rest)
    (enough : 4 * used.length + 4 ≤ fuel) : Yields text (parseline text fuel s) cmd rest := by
  obtain ⟨fuel, rfl⟩ : ∃ n, fuel = n + 1 := ⟨fuel - 1, by omega⟩
  cases line with
  | single first background =>
      rw [List.append_assoc] at found
      rw [List.length_append] at enough
      exact .lineSingle isText follow background
        (first.complete isText (background.follow (follow.mono (by decide))) found (by omega))
  | list first background kind more =>
      simp only [List.append_assoc, List.cons_append] at found
      simp only [List.length_append, List.length_cons] at enough
      refine .list isText background kind
        (first.complete isText (background.follow (.cons (by simp [kind]))) found (by omega))
        fun s here => more.complete isText follow here (by omega)

theorem Pipeline.complete (isText : IsText text) {used rest : List Token} {cmd : Cmd}
    {s fuel : ℕ} (pipeline : Pipeline used cmd) (follow : Follow [amp, semi, rparen] rest)
    (found : tokens text s = used ++ rest) (enough : 4 * used.length + 3 ≤ fuel) :
    Yields text (parsepipe text fuel s) cmd rest := by
  obtain ⟨fuel, rfl⟩ : ∃ n, fuel = n + 1 := ⟨fuel - 1, by omega⟩
  cases pipeline with
  | single first =>
      exact .pipeSingle isText follow
        (first.complete isText (follow.mono (by decide)) found (by omega))
  | pipe first kind more =>
      simp only [List.append_assoc, List.cons_append] at found
      simp only [List.length_append, List.length_cons] at enough
      exact .pipe isText kind
        (first.complete isText (.cons (by simp [delimiters, kind])) found (by omega))
        fun s here => more.complete isText follow here (by omega)

theorem Exec.complete (isText : IsText text) {used rest : List Token} {cmd : Cmd} {s fuel : ℕ}
    (exec : Exec used cmd) (follow : Follow delimiters rest)
    (found : tokens text s = used ++ rest) (enough : 4 * used.length + 2 ≤ fuel) :
    Yields text (parseexec text fuel s) cmd rest := by
  obtain ⟨fuel, rfl⟩ : ∃ n, fuel = n + 2 := ⟨fuel - 2, by omega⟩
  cases exec with
  | words simple few => exact .words isText simple few follow found
  | block opens line closes redirs =>
      simp only [List.append_assoc, List.cons_append] at found
      simp only [List.length_append, List.length_cons] at enough
      exact .block isText opens closes redirs follow
        (fun s here => line.complete isText (.cons (by simp [closes])) here (by omega)) found

end

end Completeness

section Termination

variable {text : List UInt8} {s after fuel : ℕ} {used : List Token}

/-- The run says something other than that its fuel is spent. -/
def Ends {Value : Type} (run : Except Failure Value) : Prop :=
  run ≠ .error .outOfFuel

theorem Ends.ok {Value : Type} (value : Value) : Ends (.ok value) :=
  nofun

theorem Ends.bind {Value Result : Type} {source : Except Failure Value}
    {continuation : Value → Except Failure Result} (first : Ends source)
    (next : ∀ value, source = .ok value → Ends (continuation value)) :
    Ends (source >>= continuation) := by
  cases source with
  | error failure =>
      intro spent
      cases spent
      exact first rfl
  | ok value => exact next value rfl

theorem Reads.length_eq (reads : Reads text s used after) :
    (tokens text s).length = used.length + (tokens text after).length := by
  rw [reads.tokens_eq, List.length_append]

theorem length_tokens_peeked (isText : IsText text) {toks : List UInt8}
    (special : toks ⊆ symbols) (peeked : peek text s toks = true) :
    (tokens text s).length = 1 + (tokens text (gettoken text s).2).length :=
  (Reads.peeked isText special peeked).1.length_eq

theorem parseredirs_ends (isText : IsText text) (enough : (tokens text s).length < fuel) :
    Ends (parseredirs text fuel s) := by
  induction fuel generalizing s with
  | zero => exact absurd enough (Nat.not_lt_zero _)
  | succ fuel ih =>
      rw [parseredirs]
      by_cases peeked : peek text s [less, greater] = true
      · rw [if_pos peeked]
        dsimp only
        split
        · nofun
        · next file =>
            have file : (gettoken text (gettoken text s).2).1.kind = word := not_not.mp file
            have second := (Reads.gettoken isText (by rw [file]; decide)).length_eq
            have first := length_tokens_peeked isText (by decide) peeked
            exact .bind (ih (by omega)) fun _ _ => .ok _
      · rw [if_neg peeked]
        exact .ok _

theorem parseredirs_line_ends (isText : IsText text) (s : ℕ) :
    Ends (parseredirs text (text.length + 1) s) := by
  have short := length_tokens_le text s
  exact parseredirs_ends isText (by omega)

theorem parseargs_ends (isText : IsText text) (slots s : ℕ) :
    Ends (parseargs text slots s) := by
  induction slots using Nat.strongRecOn generalizing s with
  | _ slots ih =>
      rw [parseargs]
      split
      · exact .ok _
      · dsimp only
        split
        · exact .ok _
        · split
          · nofun
          · split
            · nofun
            · nofun
            · next slots =>
                exact .bind (parseredirs_line_ends isText _) fun _ _ =>
                  .bind (ih (slots + 1) (by omega) _) fun _ _ => .ok _

theorem parseamps_ends (isText : IsText text) {cmd : Cmd}
    (enough : (tokens text s).length < fuel) : Ends (parseamps text fuel cmd s) := by
  induction fuel generalizing s cmd with
  | zero => exact absurd enough (Nat.not_lt_zero _)
  | succ fuel ih =>
      rw [parseamps]
      by_cases peeked : peek text s [amp] = true
      · rw [if_pos peeked]
        have left := length_tokens_peeked isText (by decide) peeked
        exact ih (by omega)
      · rw [if_neg peeked]
        exact .ok _

/-- The fuel with which the calls below `parseline` end. -/
structure EndsAt (text : List UInt8) (fuel : ℕ) : Prop where
  line {s : ℕ} : 4 * (tokens text s).length + 4 ≤ fuel → Ends (parseline text fuel s)
  pipe {s : ℕ} : 4 * (tokens text s).length + 3 ≤ fuel → Ends (parsepipe text fuel s)
  exec {s : ℕ} : 4 * (tokens text s).length + 2 ≤ fuel → Ends (parseexec text fuel s)
  block {s : ℕ} : 4 * (tokens text s).length + 1 ≤ fuel → Ends (parseblock text fuel s)

theorem parseline_ends (isText : IsText text) (below : EndsAt text fuel)
    (enough : 4 * (tokens text s).length + 4 ≤ fuel + 1) :
    Ends (parseline text (fuel + 1) s) := by
  rw [parseline]
  refine .bind (below.pipe (by omega)) fun ⟨cmd, middle⟩ head => ?_
  have short := length_tokens_le text middle
  refine .bind (parseamps_ends isText (by omega)) fun ⟨result, position⟩ ampersands => ?_
  obtain ⟨_, readsPipe, -⟩ := (soundAt isText fuel).pipe head
  obtain ⟨_, readsAmps, -⟩ := parseamps_sound isText ampersands
  have left := (readsPipe.trans readsAmps).length_eq
  dsimp only
  split
  · next peeked =>
      have taken := length_tokens_peeked isText (by decide) peeked
      exact .bind (below.line (by omega)) fun _ _ => .ok _
  · exact .ok _

theorem parsepipe_ends (isText : IsText text) (below : EndsAt text fuel)
    (enough : 4 * (tokens text s).length + 3 ≤ fuel + 1) :
    Ends (parsepipe text (fuel + 1) s) := by
  rw [parsepipe]
  refine .bind (below.exec (by omega)) fun ⟨cmd, position⟩ head => ?_
  obtain ⟨_, reads, -⟩ := (soundAt isText fuel).exec head
  have left := reads.length_eq
  dsimp only
  split
  · next peeked =>
      have taken := length_tokens_peeked isText (by decide) peeked
      exact .bind (below.pipe (by omega)) fun _ _ => .ok _
  · exact .ok _

theorem parseexec_ends (isText : IsText text) (below : EndsAt text fuel)
    (enough : 4 * (tokens text s).length + 2 ≤ fuel + 1) :
    Ends (parseexec text (fuel + 1) s) := by
  rw [parseexec]
  split
  · exact below.block (by rw [tokens_skip isText]; omega)
  · exact .bind (parseredirs_line_ends isText _) fun _ _ =>
      .bind (parseargs_ends isText _ _) fun _ _ => .ok _

theorem parseblock_ends (isText : IsText text) (below : EndsAt text fuel)
    (enough : 4 * (tokens text s).length + 1 ≤ fuel + 1) :
    Ends (parseblock text (fuel + 1) s) := by
  rw [parseblock]
  split
  · nofun
  · next opened =>
      have taken := length_tokens_peeked isText (by decide) (not_not.mp opened)
      refine .bind (below.line (by omega)) fun ⟨cmd, position⟩ _ => ?_
      dsimp only
      split
      · nofun
      · exact .bind (parseredirs_line_ends isText _) fun _ _ => .ok _

theorem endsAt (isText : IsText text) (fuel : ℕ) : EndsAt text fuel := by
  induction fuel with
  | zero => constructor <;> intro s enough <;> exact absurd enough (by omega)
  | succ fuel ih =>
      exact ⟨parseline_ends isText ih, parsepipe_ends isText ih, parseexec_ends isText ih,
        parseblock_ends isText ih⟩

theorem parsecmd_ends (isText : IsText text) : Ends (parsecmd text) := by
  have short := length_tokens_le text 0
  rw [parsecmd]
  refine .bind ((endsAt isText _).line (by omega)) fun _ _ => ?_
  dsimp only
  split
  · nofun
  · exact .ok _

end Termination

theorem parsecmd_accepts_iff {text : List UInt8} (isText : IsText text) (cmd : Cmd) :
    parsecmd text = .ok cmd ↔ Line (tokens text 0) cmd := by
  constructor
  · intro parsed
    rw [parsecmd] at parsed
    obtain ⟨⟨result, after⟩, parsed, ended⟩ := except_bind_ok parsed
    dsimp only at ended
    split at ended
    · cases ended
    · next whole =>
        cases ended
        obtain ⟨used, reads, line⟩ := (soundAt isText _).line parsed
        have empty : tokens text after = [] :=
          (tokens_eq_nil_iff isText).mpr (Nat.le_of_eq (not_not.mp whole).symm)
        rw [reads.tokens_eq, empty, List.append_nil]
        exact line
  · intro line
    have short := length_tokens_le text 0
    have found : tokens text 0 = tokens text 0 ++ [] := (List.append_nil _).symm
    obtain ⟨after, parsed, left⟩ :=
      line.complete isText .nil found (by omega : _ ≤ 4 * (text.length + 1))
    obtain ⟨_, reads, -⟩ := (soundAt isText _).line parsed
    have ended := (tokens_eq_nil_iff isText).mp left
    have within : skip text after ≤ text.length := advance_le (reads.within (Nat.zero_le _))
    rw [parsecmd, parsed]
    dsimp only [bind, Except.bind, pure, Except.pure]
    rw [if_neg (not_not.mpr (Nat.le_antisymm within ended))]

/-- On every line `parsecmd` ends, and what it accepts is the grammar. -/
theorem parsecmd_iff {text : List UInt8} (isText : IsText text) :
    parsecmd text ≠ .error .outOfFuel ∧
      ∀ cmd, parsecmd text = .ok cmd ↔ Line (tokens text 0) cmd :=
  ⟨parsecmd_ends isText, parsecmd_accepts_iff isText⟩

/-- The line `(a&;b)|c>d`, and the line `a)` with something left over. -/
theorem parsecmd_iff_block :
    let text : List UInt8 := [40, 97, 38, 59, 98, 41, 124, 99, 62, 100]
    let wrong : List UInt8 := [97, 41]
    IsText text ∧ IsText wrong ∧
      Line (tokens text 0)
        (.pipe (.list (.back (.exec [⟨1, 2⟩])) (.exec [⟨4, 5⟩]))
          (.redir (.exec [⟨7, 8⟩]) ⟨⟨9, 10⟩, .wronlyCreate, 1⟩)) ∧
      parsecmd wrong ≠ .error .outOfFuel ∧ ∀ cmd, ¬ Line (tokens wrong 0) cmd := by
  have isText : IsText [40, 97, 38, 59, 98, 41, 124, 99, 62, 100] := isText_of_all rfl
  have isWrong : IsText [97, 41] := isText_of_all rfl
  refine ⟨isText, isWrong, ((parsecmd_iff isText).2 _).mp rfl, (parsecmd_iff isWrong).1, ?_⟩
  intro cmd line
  have accepted : parsecmd [97, 41] = .ok cmd := ((parsecmd_iff isWrong).2 cmd).mpr line
  cases accepted

end Ence360.Xv6.Sh
