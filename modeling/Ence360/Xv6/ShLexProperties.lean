import Ence360.Xv6.Sh

/-!
# The tokens of a line

`peek` and `gettoken` walk along the list of the tokens of a line: what they do at
a position depends on the tokens from there on.
-/

set_option autoImplicit false

namespace Ence360.Xv6.Sh

variable {text : List UInt8} {s : ℕ}

/-- A string of the program. -/
def IsText (text : List UInt8) : Prop :=
  ∀ c ∈ text, c ≠ 0

theorem isText_of_all (all : text.all (· ≠ 0) = true) : IsText text :=
  fun c member => of_decide_eq_true (List.all_eq_true.mp all c member)

section Positions

theorem charAt_eq_head (text : List UInt8) (s : ℕ) :
    charAt text s = (text.drop s).head?.getD 0 := by
  rw [charAt, List.head?_drop]

theorem charAt_eq_zero_iff (isText : IsText text) : charAt text s = 0 ↔ text.length ≤ s := by
  constructor
  · intro zero
    by_contra inside
    have inside : s < text.length := by omega
    rw [charAt, List.getElem?_eq_getElem inside] at zero
    exact isText _ (List.getElem_mem inside) zero
  · intro outside
    rw [charAt, List.getElem?_eq_none outside]
    rfl

variable {keeps : UInt8 → Bool}

theorem drop_advance (text : List UInt8) (keeps : UInt8 → Bool) (s : ℕ) :
    text.drop (advance text keeps s) = (text.drop s).dropWhile keeps := by
  rw [advance, ← List.drop_drop]
  conv_lhs => rw [← List.takeWhile_append_dropWhile (p := keeps) (l := text.drop s)]
  rw [List.drop_left']
  rw [List.takeWhile_append_dropWhile]

theorem le_advance (text : List UInt8) (keeps : UInt8 → Bool) (s : ℕ) :
    s ≤ advance text keeps s :=
  Nat.le_add_right _ _

theorem advance_le (within : s ≤ text.length) : advance text keeps s ≤ text.length := by
  have short := (List.takeWhile_prefix keeps (l := text.drop s)).length_le
  rw [List.length_drop] at short
  rw [advance]
  omega

theorem advance_of_not_keeps (stops : keeps (charAt text s) = false) :
    advance text keeps s = s := by
  rw [charAt_eq_head] at stops
  rw [advance]
  cases rest : text.drop s with
  | nil => rfl
  | cons c rest =>
      rw [rest] at stops
      have stops : ¬ keeps c = true := Bool.eq_false_iff.mp stops
      rw [List.takeWhile_cons_of_neg stops]
      rfl

theorem lt_advance (inside : s < text.length) (goes : keeps (charAt text s) = true) :
    s < advance text keeps s := by
  rw [charAt_eq_head] at goes
  rw [advance]
  cases rest : text.drop s with
  | nil =>
      rw [List.drop_eq_nil_iff] at rest
      omega
  | cons c rest =>
      rw [rest] at goes
      have goes : keeps c = true := goes
      rw [List.takeWhile_cons_of_pos goes, List.length_cons]
      omega

/-- A loop that stops before the end stops at a character it does not keep. -/
theorem not_keeps_advance (zero : keeps 0 = false) :
    keeps (charAt text (advance text keeps s)) = false := by
  rw [charAt_eq_head, drop_advance]
  cases rest : (text.drop s).dropWhile keeps with
  | nil => exact zero
  | cons c rest =>
      have first := List.head?_dropWhile_not keeps (text.drop s)
      rw [rest] at first
      simpa using first

theorem not_isSpace_skip (text : List UInt8) (s : ℕ) :
    isSpace (charAt text (skip text s)) = false :=
  not_keeps_advance (by decide)

theorem skip_skip (text : List UInt8) (s : ℕ) : skip text (skip text s) = skip text s :=
  advance_of_not_keeps (not_isSpace_skip text s)

end Positions

section Tokens

variable {q : ℕ}

theorem scan_kind_eq_zero_iff (isText : IsText text) :
    (scan text q).1 = 0 ↔ text.length ≤ q := by
  rw [← charAt_eq_zero_iff isText, scan]
  by_cases zero : charAt text q = 0
  · simp [zero]
  · simp only [zero, if_false, iff_false]
    split
    · exact zero
    · split
      · split
        · exact (by decide : append ≠ 0)
        · exact (by decide : greater ≠ 0)
      · exact (by decide : word ≠ 0)

/-- A token has at least one character and ends inside the line. -/
theorem scan_end (isText : IsText text) (clear : isSpace (charAt text q) = false)
    (inside : q < text.length) : q < (scan text q).2 ∧ (scan text q).2 ≤ text.length := by
  have zero : charAt text q ≠ 0 := fun same => by
    have outside := (charAt_eq_zero_iff isText).mp same
    omega
  rw [scan]
  simp only [zero, if_false]
  split
  · exact ⟨Nat.lt_succ_self q, inside⟩
  · next plain =>
      split
      · split
        · next double =>
            have within : q + 1 < text.length := by
              by_contra outside
              have ended : charAt text (q + 1) = 0 :=
                (charAt_eq_zero_iff isText).mpr (by omega)
              rw [ended] at double
              exact absurd double (by decide)
            exact ⟨by dsimp only; omega, by dsimp only; omega⟩
        · exact ⟨Nat.lt_succ_self q, inside⟩
      · next single =>
          refine ⟨lt_advance inside ?_, advance_le (by omega)⟩
          simp only [isSpace, decide_eq_false_iff_not] at clear
          simp only [not_or] at plain
          simp [inWord, clear, symbols, plain, single]

/-- The tokens from position `s` on. -/
def tokens (text : List UInt8) (s : ℕ) : List Token :=
  if (gettoken text s).1.kind ≠ 0 ∧ s < (gettoken text s).2 ∧
      (gettoken text s).2 ≤ text.length then
    (gettoken text s).1 :: tokens text (gettoken text s).2
  else []
termination_by text.length - s

theorem gettoken_kind_eq_zero_iff (isText : IsText text) :
    (gettoken text s).1.kind = 0 ↔ text.length ≤ skip text s :=
  scan_kind_eq_zero_iff isText

theorem gettoken_advances (isText : IsText text) (more : skip text s < text.length) :
    s < (gettoken text s).2 ∧ (gettoken text s).2 ≤ text.length := by
  obtain ⟨longer, within⟩ := scan_end isText (not_isSpace_skip text s) more
  have first := le_advance text isSpace s
  have last := le_advance text isSpace (scan text (skip text s)).2
  refine ⟨?_, advance_le within⟩
  change s < advance text isSpace (scan text (skip text s)).2
  change advance text isSpace s < _ at longer
  omega

theorem tokens_eq (isText : IsText text) (s : ℕ) :
    tokens text s =
      if (gettoken text s).1.kind = 0 then []
      else (gettoken text s).1 :: tokens text (gettoken text s).2 := by
  rw [tokens]
  by_cases kind : (gettoken text s).1.kind = 0
  · rw [if_pos kind, if_neg fun more => more.1 kind]
  · have more : skip text s < text.length :=
      Nat.lt_of_not_le fun ended => kind ((gettoken_kind_eq_zero_iff isText).mpr ended)
    rw [if_neg kind, if_pos ⟨kind, gettoken_advances isText more⟩]

theorem tokens_skip (isText : IsText text) (s : ℕ) :
    tokens text (skip text s) = tokens text s := by
  rw [tokens_eq isText, tokens_eq isText s, gettoken, gettoken, skip_skip]

theorem tokens_eq_nil_iff (isText : IsText text) :
    tokens text s = [] ↔ text.length ≤ skip text s := by
  rw [tokens_eq isText, ← gettoken_kind_eq_zero_iff isText]
  split
  · next zero => exact iff_of_true rfl zero
  · next kind => exact iff_of_false nofun kind

/-- What `gettoken` gives and where it goes on. -/
theorem tokens_eq_cons_iff (isText : IsText text) {token : Token} {rest : List Token} :
    tokens text s = token :: rest ↔ token.kind ≠ 0 ∧ (gettoken text s).1 = token ∧
      tokens text (gettoken text s).2 = rest := by
  rw [tokens_eq isText]
  constructor
  · intro same
    split at same
    · cases same
    · next kind =>
        cases same
        exact ⟨kind, rfl, rfl⟩
  · rintro ⟨kind, rfl, rfl⟩
    rw [if_neg kind]

/-- The kinds of the tokens that begin with one of `toks`. -/
def kinds (toks : List UInt8) : List UInt8 :=
  if greater ∈ toks then append :: toks else toks

theorem mem_kinds_iff {toks : List UInt8} {kind : UInt8} (plain : kind ≠ append) :
    kind ∈ kinds toks ↔ kind ∈ toks := by
  rw [kinds]
  split <;> simp [plain]

theorem append_mem_kinds_iff {toks : List UInt8} (special : toks ⊆ symbols) :
    append ∈ kinds toks ↔ greater ∈ toks := by
  rw [kinds]
  split
  · next member => simp [member]
  · next absent =>
      exact iff_of_false (fun member => absurd (special member) (by decide)) absent

theorem mem_toks_iff {toks : List UInt8} (special : toks ⊆ symbols)
    (more : charAt text q ≠ 0) : charAt text q ∈ toks ↔ (scan text q).1 ∈ kinds toks := by
  rw [scan]
  simp only [more, if_false]
  split
  · next single =>
      refine (mem_kinds_iff ?_).symm
      rcases single with same | same | same | same | same | same
      all_goals
        rw [same]
        decide
  · next plain =>
      split
      · next same =>
          rw [same]
          split
          · exact (append_mem_kinds_iff special).symm
          · exact (mem_kinds_iff (by decide)).symm
      · next single =>
          have ordinary : charAt text q ∉ symbols := by
            simp only [not_or] at plain
            simp [symbols, plain, single]
          refine iff_of_false (fun member => ordinary (special member)) ?_
          rw [mem_kinds_iff (show word ≠ append by decide)]
          exact fun member => absurd (special member) (show word ∉ symbols by decide)

theorem peek_iff (isText : IsText text) {toks : List UInt8} (special : toks ⊆ symbols) :
    peek text s toks = true ↔
      ∃ token rest, tokens text s = token :: rest ∧ token.kind ∈ kinds toks := by
  rw [peek]
  simp only [decide_eq_true_eq]
  constructor
  · rintro ⟨more, member⟩
    have kind : (gettoken text s).1.kind ≠ 0 := fun zero =>
      more ((charAt_eq_zero_iff isText).mpr ((gettoken_kind_eq_zero_iff isText).mp zero))
    refine ⟨_, _, (tokens_eq_cons_iff isText).mpr ⟨kind, rfl, rfl⟩, ?_⟩
    exact (mem_toks_iff special more).mp member
  · rintro ⟨token, rest, found, member⟩
    obtain ⟨kind, rfl, -⟩ := (tokens_eq_cons_iff isText).mp found
    have more : charAt text (skip text s) ≠ 0 := fun zero =>
      kind ((gettoken_kind_eq_zero_iff isText).mpr ((charAt_eq_zero_iff isText).mp zero))
    exact ⟨more, (mem_toks_iff special more).mpr member⟩

end Tokens

end Ence360.Xv6.Sh
