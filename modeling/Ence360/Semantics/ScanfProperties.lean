import Ence360.Semantics.Scanf
import Mathlib

set_option autoImplicit false

namespace Ence360.Semantics.Scanf

section Suffixes

/-! A conversion leaves a suffix of its input in the stream. -/

theorem skipSpace_suffix (input : List Byte) : skipSpace input <:+ input :=
  List.dropWhile_suffix _

theorem scanSign_suffix (input : List Byte) : (scanSign input).2 <:+ input := by
  cases input with
  | nil => exact List.suffix_refl _
  | cons byte rest =>
      simp only [scanSign]
      split
      · exact List.suffix_cons byte rest
      · split
        · exact List.suffix_cons byte rest
        · exact List.suffix_refl _

theorem scanSize_suffix {input rest : List Byte} {count : ℕ}
    (scanned : scanSize input = some (count, rest)) : rest <:+ input := by
  simp only [scanSize] at scanned
  split at scanned
  · cases scanned
  · cases scanned
    exact (List.dropWhile_suffix _).trans ((scanSign_suffix _).trans (skipSpace_suffix input))

theorem scanWord_suffix {letters : List Char} {input rest : List Byte}
    (scanned : scanWord letters input = some rest) : rest <:+ input := by
  induction letters generalizing input with
  | nil =>
      cases scanned
      exact List.suffix_refl _
  | cons letter letters ih =>
      cases input with
      | nil => cases scanned
      | cons byte tail =>
          simp only [scanWord] at scanned
          split at scanned
          · exact (ih scanned).trans (List.suffix_cons byte tail)
          · cases scanned

private theorem scanExponent_suffix {radix : Radix} {input rest : List Byte} {exponent : ℤ}
    (scanned : radix.scanExponent input = some (exponent, rest)) : rest <:+ input := by
  cases input with
  | nil =>
      cases scanned
      exact List.suffix_refl _
  | cons letter tail =>
      simp only [Radix.scanExponent] at scanned
      split at scanned
      · split at scanned
        · cases scanned
        · cases scanned
          exact (List.dropWhile_suffix _).trans
            ((scanSign_suffix tail).trans (List.suffix_cons letter tail))
      · cases scanned
        exact List.suffix_refl _

private theorem scanFraction_suffix (radix : Radix) (input : List Byte) :
    (radix.scanFraction input).2 <:+ input := by
  cases input with
  | nil => exact List.suffix_refl _
  | cons point rest =>
      simp only [Radix.scanFraction]
      split
      · exact (List.dropWhile_suffix _).trans (List.suffix_cons point rest)
      · exact List.suffix_refl _

private theorem scanFixed_suffix {radix : Radix} {body rest : List Byte} {number : Number}
    (scanned : radix.scanFixed body = some (number, rest)) : rest <:+ body := by
  simp only [Radix.scanFixed] at scanned
  split at scanned
  · cases scanned
  · obtain ⟨⟨exponent, after⟩, raised, same⟩ := Option.map_eq_some_iff.mp scanned
    cases same
    exact (scanExponent_suffix raised).trans
      ((scanFraction_suffix radix _).trans (List.dropWhile_suffix _))

private theorem scanInfinity_suffix {input rest : List Byte} {number : Number}
    (scanned : scanInfinity input = some (number, rest)) : rest <:+ input := by
  obtain ⟨after, word, scanned⟩ := Option.bind_eq_some_iff.mp scanned
  refine List.IsSuffix.trans ?_ (scanWord_suffix word)
  split at scanned
  · cases scanned
    exact List.suffix_refl _
  · split at scanned
    · obtain ⟨last, word, same⟩ := Option.map_eq_some_iff.mp scanned
      cases same
      exact scanWord_suffix word
    · cases scanned
      exact List.suffix_refl _

private theorem scanNan_suffix {input rest : List Byte} {number : Number}
    (scanned : scanNan input = some (number, rest)) : rest <:+ input := by
  obtain ⟨after, word, scanned⟩ := Option.bind_eq_some_iff.mp scanned
  refine List.IsSuffix.trans ?_ (scanWord_suffix word)
  split at scanned
  · cases scanned
    exact List.suffix_refl _
  · next byte sequence =>
      split at scanned
      · split at scanned
        · cases scanned
        · next last after remaining =>
            split at scanned
            · cases scanned
              have closed : last :: rest <:+ sequence := remaining ▸ List.dropWhile_suffix _
              exact (List.suffix_cons last rest).trans
                (closed.trans (List.suffix_cons byte sequence))
            · cases scanned
      · cases scanned
        exact List.suffix_refl _

private theorem scanMagnitude_suffix {body rest : List Byte} {number : Number}
    (scanned : scanMagnitude body = some (number, rest)) : rest <:+ body := by
  cases body with
  | nil => cases scanned
  | cons first tail =>
      simp only [scanMagnitude] at scanned
      split at scanned
      · exact (scanInfinity_suffix scanned).trans (List.suffix_cons first tail)
      · split at scanned
        · exact (scanNan_suffix scanned).trans (List.suffix_cons first tail)
        · split at scanned
          · exact scanFixed_suffix scanned
          · next second digits =>
              split at scanned
              · exact (scanFixed_suffix scanned).trans
                  ((List.suffix_cons second digits).trans (List.suffix_cons first _))
              · exact scanFixed_suffix scanned

theorem scanFloat_suffix {input rest : List Byte} {number : Number}
    (scanned : scanFloat input = some (number, rest)) : rest <:+ input := by
  simp only [scanFloat] at scanned
  obtain ⟨⟨magnitude, after⟩, unsigned, same⟩ := Option.map_eq_some_iff.mp scanned
  cases same
  exact (scanMagnitude_suffix unsigned).trans ((scanSign_suffix _).trans (skipSpace_suffix input))

theorem scanString_length_lt {limit : ℕ} {input word rest : List Byte}
    (scanned : scanString limit input = some (word, rest)) : rest.length < input.length := by
  simp only [scanString] at scanned
  split at scanned
  · cases scanned
  · next some =>
      cases scanned
      have inside := (skipSpace_suffix input).length_le
      have positive := List.length_pos_iff.mpr some
      have bounded : ((skipSpace input).takeWhile fun byte => !isSpace byte).length ≤
          (skipSpace input).length := (List.takeWhile_prefix _).length_le
      simp only [List.length_take, List.length_drop] at positive ⊢
      omega

end Suffixes

section Boundaries

/-- A token ends here: the stream is at its end or at white space. -/
def AtBoundary (rest : List Byte) : Prop :=
  ∀ byte ∈ rest.head?, isSpace byte

variable {rest : List Byte} {accepts : Byte → Bool}

theorem AtBoundary.takeWhile_append (boundary : AtBoundary rest)
    (rejects : ∀ byte, isSpace byte → accepts byte = false) (word : List Byte) :
    (word ++ rest).takeWhile accepts = word.takeWhile accepts := by
  induction word with
  | nil =>
      cases rest with
      | nil => rfl
      | cons byte rest => simp [rejects byte (boundary byte rfl)]
  | cons byte word ih => simp only [List.cons_append, List.takeWhile_cons, ih]

theorem AtBoundary.dropWhile_append (boundary : AtBoundary rest)
    (rejects : ∀ byte, isSpace byte → accepts byte = false) (word : List Byte) :
    (word ++ rest).dropWhile accepts = word.dropWhile accepts ++ rest := by
  induction word with
  | nil =>
      cases rest with
      | nil => rfl
      | cons byte rest => simp [rejects byte (boundary byte rfl)]
  | cons byte word ih =>
      simp only [List.cons_append, List.dropWhile_cons, ih]
      split <;> rfl

private theorem space_cases {byte : Byte} (space : isSpace byte) :
    byte.toNat = 32 ∨ 9 ≤ byte.toNat ∧ byte.toNat ≤ 13 := by
  simpa [isSpace] using space

theorem isDigit_of_isSpace (byte : Byte) (space : isSpace byte) : isDigit byte = false := by
  have range := space_cases space
  simp only [isDigit, Bool.and_eq_false_iff, decide_eq_false_iff_not]
  omega

private theorem isByte_of_isSpace (char : Char) (graphic : 32 < char.toNat) {byte : Byte}
    (space : isSpace byte) : isByte char byte = false := by
  have range := space_cases space
  simp only [isByte, decide_eq_false_iff_not]
  omega

private theorem isLetter_of_isSpace (letter : Char) (lower : 64 < letter.toNat) {byte : Byte}
    (space : isSpace byte) : isLetter letter byte = false := by
  have range := space_cases space
  simp only [isLetter, Bool.or_eq_false_iff, decide_eq_false_iff_not]
  omega

private theorem isLetter_of_isDigit (letter : Char) (lower : 89 < letter.toNat) {byte : Byte}
    (digit : isDigit byte) : isLetter letter byte = false := by
  simp only [isDigit, Bool.and_eq_true, decide_eq_true_eq] at digit
  simp only [isLetter, Bool.or_eq_false_iff, decide_eq_false_iff_not]
  omega

end Boundaries

section Tokens

theorem firstToken_append_dropToken (input : List Byte) :
    firstToken input ++ dropToken input = skipSpace input :=
  List.takeWhile_append_dropWhile

theorem dropToken_atBoundary (input : List Byte) : AtBoundary (dropToken input) := by
  intro byte head
  have stopped := List.head?_dropWhile_not (fun byte => !isSpace byte) (skipSpace input)
  rw [show List.dropWhile (fun byte => !isSpace byte) (skipSpace input) = dropToken input from rfl,
    Option.mem_def.mp head] at stopped
  simpa using stopped

theorem isSpace_of_mem_firstToken {input : List Byte} {byte : Byte}
    (mem : byte ∈ firstToken input) : isSpace byte = false := by
  simpa using List.mem_takeWhile_imp mem

theorem skipSpace_of_firstToken_nil {input : List Byte} (none : firstToken input = []) :
    skipSpace input = [] := by
  cases stream : skipSpace input with
  | nil => rfl
  | cons byte rest =>
      have stopped := List.head?_dropWhile_not isSpace input
      have taken := none
      rw [show input.dropWhile isSpace = byte :: rest from stream] at stopped
      simp only [List.head?_cons] at stopped
      simp [firstToken, stream, stopped] at taken

private theorem tokens_cons_of_space {byte : Byte} (space : isSpace byte) (rest : List Byte) :
    tokens (byte :: rest) = tokens rest := by
  simp [tokens, List.splitOnP_cons_eq_if_modifyHead, space]

private theorem tokens_skipSpace (input : List Byte) : tokens (skipSpace input) = tokens input := by
  induction input with
  | nil => rfl
  | cons byte rest ih =>
      by_cases space : isSpace byte
      · rw [tokens_cons_of_space space, ← ih]
        simp [skipSpace, space]
      · simp [skipSpace, space]

theorem tokens_of_firstToken_nil {input : List Byte} (none : firstToken input = []) :
    tokens input = [] := by
  rw [← tokens_skipSpace, skipSpace_of_firstToken_nil none]
  rfl

theorem tokens_of_firstToken_ne_nil {input : List Byte} (some : firstToken input ≠ []) :
    tokens input = firstToken input :: tokens (dropToken input) := by
  have solid : ∀ byte ∈ firstToken input, isSpace byte = false :=
    fun byte mem => isSpace_of_mem_firstToken mem
  rw [← tokens_skipSpace, ← firstToken_append_dropToken]
  cases remaining : dropToken input with
  | nil => simp [tokens, List.splitOnP_eq_singleton solid, some]
  | cons byte rest =>
      have space : isSpace byte := dropToken_atBoundary input byte (by simp [remaining])
      rw [tokens_cons_of_space space]
      simp [tokens, List.splitOnP_append_cons_of_forall_mem solid byte space rest, some]

end Tokens

section Conversions

/-! What the conversions read of the first token of their input, and what they
leave of it. -/

variable {input : List Byte}

theorem scanString_of_firstToken_ne_nil {limit : ℕ} (positive : 0 < limit)
    (some : firstToken input ≠ []) :
    scanString limit input =
      .some ((firstToken input).take limit, (firstToken input).drop limit ++ dropToken input) := by
  have word : (firstToken input).take limit ≠ [] := by
    simpa [List.take_eq_nil_iff, some] using positive.ne'
  have stream := firstToken_append_dropToken input
  simp only [scanString]
  rw [show ((skipSpace input).takeWhile fun byte => !isSpace byte) = firstToken input from rfl,
    if_neg word, ← stream, List.length_take, List.drop_append, Nat.min_def]
  split
  · next short => simp [Nat.sub_eq_zero_of_le short]
  · next long => simp [List.drop_eq_nil_of_le (Nat.le_of_not_ge long)]

theorem scanString_of_firstToken_nil {limit : ℕ} (empty : firstToken input = []) :
    scanString limit input = none := by
  simp [scanString, skipSpace_of_firstToken_nil empty]

private theorem scanSign_append {token : List Byte} (some : token ≠ []) (rest : List Byte) :
    scanSign (token ++ rest) = ((scanSign token).1, (scanSign token).2 ++ rest) := by
  cases token with
  | nil => exact absurd rfl some
  | cons byte token =>
      simp only [List.cons_append, scanSign]
      split
      · rfl
      · split <;> rfl

theorem scanSize_of_leadingDigits_nil (empty : leadingDigits (firstToken input) = []) :
    scanSize input = none := by
  by_cases absent : firstToken input = []
  · simp [scanSize, skipSpace_of_firstToken_nil absent, scanSign]
  · have boundary := dropToken_atBoundary input
    simp only [scanSize, ← firstToken_append_dropToken, scanSign_append absent,
      boundary.takeWhile_append isDigit_of_isSpace]
    exact if_pos empty

theorem scanSize_of_leadingDigits_ne_nil (some : leadingDigits (firstToken input) ≠ []) :
    scanSize input = .some
      (strtoul (scanSign (firstToken input)).1 (decimalValue (leadingDigits (firstToken input))),
        (scanSign (firstToken input)).2.dropWhile isDigit ++ dropToken input) := by
  have present : firstToken input ≠ [] := by
    intro absent
    exact some (by rw [absent]; rfl)
  have boundary := dropToken_atBoundary input
  simp only [scanSize, ← firstToken_append_dropToken, scanSign_append present,
    boundary.takeWhile_append isDigit_of_isSpace, boundary.dropWhile_append isDigit_of_isSpace]
  exact if_neg some

theorem strtoul_pos_iff (negative : Bool) (value : ℕ) :
    0 < strtoul negative value ↔ 0 < value := by
  simp only [strtoul]
  split
  · omega
  · split
    · omega
    · rfl

theorem strtoul_of_lt {value : ℕ} (small : value < 2 ^ 64) : strtoul false value = value := by
  simp only [strtoul, if_neg (Nat.not_le.mpr small), Bool.false_eq_true, if_false]

end Conversions

section Numerals

@[simp]
theorem Number.ge_intCast (left right : ℤ) :
    (Number.finite left).ge (.finite right) = decide (right ≤ left) := by
  simp only [Number.ge, Rat.intCast_le_intCast]

private theorem decimal_value_eq (digits : List Byte) (all : ∀ byte ∈ digits, isDigit byte) :
    Radix.decimal.value digits = decimalValue digits := by
  simp only [Radix.value, decimalValue]
  apply List.foldl_ext
  intro value byte mem
  simp [Radix.decimal, all byte mem]

private theorem decimal_isDigit : Radix.decimal.isDigit = isDigit := by
  funext byte
  simp only [Radix.isDigit, Radix.decimal]
  split <;> simp_all

private theorem decimal_scanFixed {digits rest : List Byte} (some : digits ≠ [])
    (all : ∀ byte ∈ digits, isDigit byte) (boundary : AtBoundary rest) :
    Radix.decimal.scanFixed (digits ++ rest) = .some (.finite (decimalValue digits), rest) := by
  have whole : digits.takeWhile isDigit = digits := List.takeWhile_eq_self_iff.mpr all
  have nothing : digits.dropWhile isDigit = [] := List.dropWhile_eq_nil_iff.mpr all
  have fraction : Radix.decimal.scanFraction rest = ([], rest) := by
    cases rest with
    | nil => rfl
    | cons byte rest =>
        have point := isByte_of_isSpace '.' (by decide) (boundary byte rfl)
        simp [Radix.scanFraction, point]
  have exponent : Radix.decimal.scanExponent rest = .some (0, rest) := by
    cases rest with
    | nil => rfl
    | cons byte rest =>
        have letter := isLetter_of_isSpace Radix.decimal.exponentLetter (by decide)
          (boundary byte rfl)
        simp [Radix.scanExponent, letter]
  simp only [Radix.scanFixed, decimal_isDigit, boundary.takeWhile_append isDigit_of_isSpace,
    boundary.dropWhile_append isDigit_of_isSpace, whole, nothing, List.nil_append, fraction,
    exponent, some, false_and, if_false]
  simp [decimal_value_eq digits all]

private theorem scanMagnitude_digits {digits rest : List Byte} (some : digits ≠ [])
    (all : ∀ byte ∈ digits, isDigit byte) (boundary : AtBoundary rest) :
    scanMagnitude (digits ++ rest) = .some (.finite (decimalValue digits), rest) := by
  rw [← decimal_scanFixed some all boundary]
  cases digits with
  | nil => exact absurd rfl some
  | cons first digits =>
      have digit := all first List.mem_cons_self
      have notI := isLetter_of_isDigit 'i' (by decide) digit
      have notN := isLetter_of_isDigit 'n' (by decide) digit
      simp only [List.cons_append, scanMagnitude, notI, notN, Bool.false_eq_true, if_false]
      split
      · next empty => rw [empty]
      · next second after stream =>
          -- The second byte is a digit or the white space after the number.
          have notX : isLetter 'x' second = false := by
            cases digits with
            | nil =>
                refine isLetter_of_isSpace 'x' (by decide) (boundary second ?_)
                rw [show rest = second :: after from stream]
                rfl
            | cons byte digits =>
                cases stream
                exact isLetter_of_isDigit 'x' (by decide)
                  (all second (List.mem_cons_of_mem first List.mem_cons_self))
          simp only [notX, Bool.and_false, Bool.false_eq_true, if_false]

theorem scanFloat_of_isNumeral {input : List Byte} (numeral : isNumeral (firstToken input)) :
    scanFloat input = .some (.finite (numeralValue (firstToken input)), dropToken input) := by
  simp only [isNumeral, Bool.and_eq_true, Bool.not_eq_true', List.isEmpty_eq_false_iff,
    List.all_eq_true] at numeral
  obtain ⟨some, all⟩ := numeral
  have present : firstToken input ≠ [] := by
    intro absent
    exact some (by rw [absent]; rfl)
  simp only [scanFloat, ← firstToken_append_dropToken, scanSign_append present,
    scanMagnitude_digits some all (dropToken_atBoundary input), Option.map_some, numeralValue]
  split
  · simp [Number.neg]
  · simp

end Numerals

end Ence360.Semantics.Scanf
