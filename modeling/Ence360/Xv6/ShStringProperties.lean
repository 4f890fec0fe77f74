import Ence360.Xv6.ShParseProperties
import Mathlib.Data.List.Perm.Basic
import Mathlib.Data.List.TakeWhile

/-!
# The strings of a command

`nulterminate` cuts the strings of a command out of the line in place. It sets a
position to zero where a word ends, and no word has such a position inside it.
-/

set_option autoImplicit false

namespace Ence360.Xv6.Sh

section Words

variable {text : List UInt8} {s p : ℕ}

/-- The word from `span.start` to `span.stop` is not cut and not longer. -/
structure IsWord (text : List UInt8) (span : Span) : Prop where
  ordered : span.start ≤ span.stop
  within : span.stop ≤ text.length
  inside {p : ℕ} : span.start ≤ p → p < span.stop → inWord (charAt text p) = true
  maximal : span.stop < text.length → inWord (charAt text span.stop) = false

theorem keeps_of_lt_advance {keeps : UInt8 → Bool} (after : s ≤ p)
    (before : p < advance text keeps s) : keeps (charAt text p) = true := by
  rw [advance] at before
  have inside : p - s < ((text.drop s).takeWhile keeps).length := by omega
  have kept := List.mem_takeWhile_imp (List.getElem_mem inside)
  have same : ((text.drop s).takeWhile keeps)[p - s] = charAt text p := by
    have long := (List.takeWhile_prefix keeps (l := text.drop s)).length_le
    rw [(List.takeWhile_prefix keeps).getElem inside, List.getElem_drop, charAt]
    have position : s + (p - s) = p := by omega
    rw [List.length_drop] at long
    rw [List.getElem?_eq_getElem (by omega)]
    simp only [position, Option.getD_some]
  rw [← same]
  exact kept

theorem not_keeps_of_advance_lt {keeps : UInt8 → Bool}
    (before : advance text keeps s < text.length) :
    keeps (charAt text (advance text keeps s)) = false := by
  rw [charAt_eq_head, drop_advance]
  cases rest : (text.drop s).dropWhile keeps with
  | nil =>
      rw [← drop_advance, List.drop_eq_nil_iff] at rest
      omega
  | cons c rest =>
      have first := List.head?_dropWhile_not keeps (text.drop s)
      rw [rest] at first
      simpa using first

theorem isWord_wordEnd (within : s ≤ text.length) : IsWord text ⟨s, wordEnd text s⟩ where
  ordered := le_advance text inWord s
  within := advance_le within
  inside := keeps_of_lt_advance
  maximal := not_keeps_of_advance_lt

theorem gettoken_isWord (within : s ≤ text.length) (kind : (gettoken text s).1.kind = word) :
    IsWord text (gettoken text s).1.span := by
  change (scan text (skip text s)).1 = word at kind
  change IsWord text ⟨skip text s, (scan text (skip text s)).2⟩
  rw [scan] at kind ⊢
  split
  · next zero =>
      rw [if_pos zero] at kind
      cases kind
  · next more =>
      rw [if_neg more] at kind
      split
      · next special =>
          rw [if_pos special] at kind
          dsimp only at kind
          rw [kind] at special
          exact absurd special (by decide)
      · next plain =>
          rw [if_neg plain] at kind
          split
          · next output =>
              rw [if_pos output] at kind
              split at kind <;> cases kind
          · exact isWord_wordEnd (advance_le within)

theorem isWord_of_mem_tokens {token : Token} (within : s ≤ text.length)
    (member : token ∈ tokens text s) (kind : token.kind = word) : IsWord text token.span := by
  induction s using tokens.induct text with
  | case1 s more ih =>
      rw [tokens, if_pos more] at member
      rcases List.mem_cons.mp member with rfl | member
      · exact gettoken_isWord within kind
      · exact ih more.2.2 member
  | case2 s ended =>
      rw [tokens, if_neg ended] at member
      cases member

end Words

section Spans

/-- The arguments and the files of a command. -/
def Cmd.words : Cmd → List Span
  | .exec argv => argv
  | .redir cmd redirection => cmd.words ++ [redirection.file]
  | .pipe left right | .list left right => left.words ++ right.words
  | .back cmd => cmd.words

theorem Cmd.ends_eq (cmd : Cmd) : cmd.ends = cmd.words.map Span.stop := by
  induction cmd with
  | exec argv => rfl
  | redir cmd redirection ih => rw [ends, words, ih, List.map_append, List.map_singleton]
  | pipe left right leftIH rightIH => rw [ends, words, leftIH, rightIH, List.map_append]
  | list left right leftIH rightIH => rw [ends, words, leftIH, rightIH, List.map_append]
  | back cmd ih => rw [ends, words, ih]

theorem words_wrap (cmd : Cmd) (redirections : List Redirection) :
    (wrap cmd redirections).words = cmd.words ++ redirections.map Redirection.file := by
  induction redirections generalizing cmd with
  | nil => exact (List.append_nil _).symm
  | cons redirection redirections ih =>
      change (wrap (.redir cmd redirection) redirections).words = _
      rw [ih, Cmd.words, List.append_assoc]
      rfl

/-- The words among the tokens. -/
def wordsOf (used : List Token) : List Span :=
  (used.filter (·.kind = word)).map Token.span

theorem wordsOf_append (used more : List Token) :
    wordsOf (used ++ more) = wordsOf used ++ wordsOf more := by
  rw [wordsOf, List.filter_append, List.map_append]
  rfl

theorem wordsOf_cons_word (span : Span) (rest : List Token) :
    wordsOf (⟨word, span⟩ :: rest) = span :: wordsOf rest := by
  simp [wordsOf]

theorem wordsOf_cons_symbol {token : Token} (rest : List Token) (other : token.kind ≠ word) :
    wordsOf (token :: rest) = wordsOf rest := by
  simp [wordsOf, other]

variable {used : List Token} {cmd result : Cmd} {argv : List Span}
  {redirections : List Redirection}

theorem Redirects.not_word {token : Token} {file : Span} {redirection : Redirection}
    (redirects : Redirects token file redirection) :
    token.kind ≠ word ∧ redirection.file = file := by
  have member := redirects.member
  refine ⟨fun same => ?_, by cases redirects <;> rfl⟩
  rw [same] at member
  revert member
  decide

theorem Redirs.wordsOf_eq (redirs : Redirs used redirections) :
    wordsOf used = redirections.map Redirection.file := by
  induction redirs with
  | nil => rfl
  | cons redirects _ ih =>
      obtain ⟨other, rfl⟩ := redirects.not_word
      rw [wordsOf_cons_symbol _ other, wordsOf_cons_word, ih]
      rfl

theorem Words.perm (words : Words used argv redirections) :
    (argv ++ redirections.map Redirection.file).Perm (wordsOf used) := by
  induction words with
  | nil => exact .nil
  | arg _ ih =>
      rw [wordsOf_cons_word]
      exact ih.cons _
  | redir redirects _ ih =>
      obtain ⟨other, rfl⟩ := redirects.not_word
      rw [wordsOf_cons_symbol _ other, wordsOf_cons_word]
      exact List.perm_middle.trans (ih.cons _)

theorem Amps.words_eq (amps : Amps used cmd result) :
    result.words = cmd.words ∧ wordsOf used = [] := by
  induction amps with
  | nil => exact ⟨rfl, rfl⟩
  | cons kind _ ih =>
      rw [wordsOf_cons_symbol _ (by rw [kind]; decide)]
      exact ih

theorem Line.perm (line : Line used cmd) : cmd.words.Perm (wordsOf used) := by
  refine line.induct (P := fun used cmd => cmd.words.Perm (wordsOf used)) ?_ ?_ ?_ ?_ ?_
  · intro used argv redirections words few
    rw [words_wrap]
    exact words.perm
  · intro opening closing used rest cmd redirections opens inner closes redirs
    rw [words_wrap, List.cons_append, wordsOf_cons_symbol _ (by rw [opens]; decide),
      wordsOf_append, wordsOf_cons_symbol _ (by rw [closes]; decide), redirs.wordsOf_eq]
    exact inner.append_right _
  · intro token used rest cmd right first kind more
    rw [wordsOf_append, wordsOf_cons_symbol _ (by rw [kind]; decide)]
    exact first.append more
  · intro used amps cmd result first background
    obtain ⟨same, none⟩ := background.words_eq
    rw [wordsOf_append, same, none, List.append_nil]
    exact first
  · intro token used rest cmd right first kind more
    rw [wordsOf_append, wordsOf_cons_symbol _ (by rw [kind]; decide)]
    exact first.append more

end Spans

section Cuts

/-- What the line holds in a span. -/
def bytes (text : List UInt8) (span : Span) : List UInt8 :=
  (text.drop span.start).take (span.stop - span.start)

variable {text string : List UInt8} {s p : ℕ} {span : Span}

theorem getElem?_cut (ends : List ℕ) (string : List UInt8) (p : ℕ) :
    (ends.foldl (fun string s => string.set s 0) string)[p]? =
      if p ∈ ends then (string[p]?).map fun _ => 0 else string[p]? := by
  induction ends generalizing string with
  | nil => simp
  | cons s ends ih =>
      rw [List.foldl_cons, ih, List.getElem?_set]
      by_cases here : s = p
      · subst here
        by_cases member : s ∈ ends
        all_goals
          by_cases inside : s < string.length
          all_goals simp [member, inside]
      · have other : p ≠ s := fun same => here same.symm
        simp [here, other]

/-- The end of a word is not inside a word. -/
theorem IsWord.apart {other : Span} (isWord : IsWord text span) (otherWord : IsWord text other)
    (after : span.start ≤ other.stop) : span.stop ≤ other.stop := by
  by_contra before
  have before : other.stop < span.stop := by omega
  have kept := isWord.inside after before
  rw [otherWord.maximal (by have := isWord.within; omega)] at kept
  cases kept

/-- A string that is one with the text up to its zero. -/
theorem cString_eq (isText : IsText text) (isWord : IsWord text span)
    (same : ∀ p, span.start ≤ p → p < span.stop → string[p]? = text[p]?)
    (ended : string[span.stop]? = some 0) :
    cString string span.start = bytes text span := by
  have ordered := isWord.ordered
  have within := isWord.within
  have long : span.stop < string.length := (List.getElem?_eq_some_iff.mp ended).1
  have beginning : (string.drop span.start).take (span.stop - span.start) =
      (text.drop span.start).take (span.stop - span.start) := by
    refine List.ext_getElem? fun n => ?_
    rw [List.getElem?_take, List.getElem?_take, List.getElem?_drop, List.getElem?_drop]
    split
    · exact same _ (by omega) (by omega)
    · rfl
  have rest : (string.drop span.start).drop (span.stop - span.start) =
      0 :: string.drop (span.stop + 1) := by
    obtain ⟨inside, zero⟩ := List.getElem?_eq_some_iff.mp ended
    have position : span.start + (span.stop - span.start) = span.stop := by omega
    rw [List.drop_drop, position, List.drop_eq_getElem_cons inside, zero]
  have nonzero : ∀ c ∈ (text.drop span.start).take (span.stop - span.start),
      decide (c ≠ 0) = true := fun c member =>
    decide_eq_true (isText c (List.mem_of_mem_drop (List.mem_of_mem_take member)))
  rw [bytes, cString,
    ← List.take_append_drop (span.stop - span.start) (string.drop span.start), beginning,
    rest, List.takeWhile_append_of_pos nonzero, List.takeWhile_cons_of_neg (by simp),
    List.append_nil]

theorem cString_nulterminate {cmd : Cmd} (isText : IsText text)
    (parsed : parsecmd text = .ok cmd) (member : span ∈ cmd.words) :
    cString (nulterminate text cmd) span.start = bytes text span := by
  have isWord : ∀ span ∈ cmd.words, IsWord text span := by
    intro span member
    have perm := ((parsecmd_accepts_iff isText cmd).mp parsed).perm
    have member := perm.mem_iff.mp member
    rw [wordsOf] at member
    obtain ⟨token, among, rfl⟩ := List.mem_map.mp member
    obtain ⟨present, kind⟩ := List.mem_filter.mp among
    exact isWord_of_mem_tokens (Nat.zero_le _) present (of_decide_eq_true kind)
  have within := (isWord span member).within
  refine cString_eq isText (isWord span member) ?_ ?_
  · intro p after before
    rw [nulterminate, getElem?_cut, if_neg, List.getElem?_append_left (by omega)]
    intro cut
    rw [Cmd.ends_eq] at cut
    obtain ⟨other, among, rfl⟩ := List.mem_map.mp cut
    have beyond := (isWord span member).apart (isWord other among) after
    omega
  · have cut : span.stop ∈ cmd.ends := by
      rw [Cmd.ends_eq]
      exact List.mem_map_of_mem member
    have inside : span.stop < (text ++ [0]).length := by
      rw [List.length_append, List.length_singleton]
      omega
    rw [nulterminate, getElem?_cut, if_pos cut, List.getElem?_eq_getElem inside, Option.map_some]

/-- Every word of the line is one string of the command, as it was written. -/
theorem nulterminate_words {cmd : Cmd} (isText : IsText text)
    (parsed : parsecmd text = .ok cmd) :
    (cmd.words.map fun span => cString (nulterminate text cmd) span.start).Perm
      ((wordsOf (tokens text 0)).map (bytes text)) := by
  have strings : cmd.words.map (fun span => cString (nulterminate text cmd) span.start) =
      cmd.words.map (bytes text) :=
    List.map_congr_left fun span member => cString_nulterminate isText parsed member
  rw [strings]
  exact ((parsecmd_accepts_iff isText cmd).mp parsed).perm.map _

/-- In the line `ls>a` the end of the first word is the symbol itself. -/
theorem nulterminate_words_redirect :
    let text : List UInt8 := [108, 115, 62, 97]
    let cmd : Cmd := .redir (.exec [⟨0, 2⟩]) ⟨⟨3, 4⟩, .wronlyCreate, 1⟩
    parsecmd text = .ok cmd ∧
      (cmd.words.map fun span => cString (nulterminate text cmd) span.start).Perm
        ((wordsOf (tokens text 0)).map (bytes text)) := by
  have isText : IsText [108, 115, 62, 97] := isText_of_all rfl
  exact ⟨rfl, nulterminate_words isText rfl⟩

end Cuts

end Ence360.Xv6.Sh
