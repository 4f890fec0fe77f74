import Ence360.Xv6.Grep
import Mathlib.Computability.Language
import Mathlib.Data.List.Induction

/-!
# The language of a pattern

The matcher of `grep` decides a product of letters and stars of letters, open at
the ends that the pattern does not anchor.
-/

set_option autoImplicit false

namespace Ence360.Xv6.Grep

open Computability

section Specification

/-- The strings of one byte that `c` stands for. -/
def letter (c : UInt8) : Language UInt8 :=
  {word | ∃ t, word = [t] ∧ (c = dot ∨ c = t)}

inductive Item where
  | one (c : UInt8)
  | many (c : UInt8)
  deriving DecidableEq

def Item.language : Item → Language UInt8
  | .one c => letter c
  | .many c => (letter c)∗

structure Pattern where
  anchored : Bool
  items : List Item
  ended : Bool
  deriving DecidableEq

def border (anchored : Bool) : Language UInt8 :=
  if anchored then 1 else ⊤

/-- The lines that contain the pattern, at the ends it is anchored to. -/
def Pattern.language (pattern : Pattern) : Language UInt8 :=
  border pattern.anchored * ((pattern.items.map Item.language).prod * border pattern.ended)

/-- A byte before a star repeats, and a dollar sign is special in the last place. -/
def parseItems : List UInt8 → List Item × Bool
  | [] => ([], false)
  | [c] => if c = dollar then ([], true) else ([.one c], false)
  | c :: d :: re =>
      if d = star then (.many c :: (parseItems re).1, (parseItems re).2)
      else (.one c :: (parseItems (d :: re)).1, (parseItems (d :: re)).2)

def parse (re : List UInt8) : Pattern :=
  match re with
  | [] => ⟨false, [], false⟩
  | c :: rest =>
      if c = caret then ⟨true, (parseItems rest).1, (parseItems rest).2⟩
      else ⟨false, (parseItems re).1, (parseItems re).2⟩

end Specification

section Matching

variable {c t : UInt8} {re text : List UInt8} {rest : Language UInt8}

theorem cons_mem_letter_mul :
    t :: text ∈ letter c * rest ↔ (c = dot ∨ c = t) ∧ text ∈ rest := by
  rw [Language.mem_mul]
  constructor
  · rintro ⟨_, ⟨_, rfl, accepts⟩, word, member, same⟩
    cases same
    exact ⟨accepts, member⟩
  · rintro ⟨accepts, member⟩
    exact ⟨[t], ⟨t, rfl, accepts⟩, text, member, rfl⟩

theorem nil_not_mem_letter_mul : [] ∉ letter c * rest := by
  rw [Language.mem_mul]
  rintro ⟨_, ⟨_, rfl, _⟩, word, member, same⟩
  cases same

theorem star_mul_eq : (letter c)∗ * rest = rest + letter c * ((letter c)∗ * rest) := by
  conv_lhs => rw [← Language.one_add_self_mul_kstar_eq_kstar, add_mul, one_mul, mul_assoc]

theorem matchstarLoop_iff {here : List UInt8 → Bool}
    (decides : ∀ text, here text = true ↔ text ∈ rest) :
    matchstarLoop here c text = true ↔ text ∈ (letter c)∗ * rest := by
  induction text with
  | nil =>
      rw [star_mul_eq, Language.mem_add, matchstarLoop, decides]
      exact (or_iff_left nil_not_mem_letter_mul).symm
  | cons t text ih =>
      rw [star_mul_eq, Language.mem_add, cons_mem_letter_mul, matchstarLoop, Bool.or_eq_true,
        Bool.and_eq_true, decides, ih, Bool.or_eq_true, beq_iff_eq, beq_iff_eq, eq_comm (a := t),
        or_comm (a := c = t)]

/-- The language of a pattern, from its first item on. -/
def tailLanguage (re : List UInt8) : Language UInt8 :=
  ((parseItems re).1.map Item.language).prod * border (parseItems re).2

theorem tailLanguage_star (c : UInt8) (re : List UInt8) :
    tailLanguage (c :: star :: re) = (letter c)∗ * tailLanguage re := by
  simp [tailLanguage, parseItems, Item.language, mul_assoc]

theorem tailLanguage_one {c : UInt8} {re : List UInt8} (single : ∀ rest, re ≠ star :: rest)
    (inner : ¬ (c = dollar ∧ re = [])) :
    tailLanguage (c :: re) = letter c * tailLanguage re := by
  cases re with
  | nil =>
      have special : c ≠ dollar := fun same => inner ⟨same, rfl⟩
      simp [tailLanguage, parseItems, Item.language, special]
  | cons d rest =>
      have special : d ≠ star := fun same => single rest (by rw [same])
      simp [tailLanguage, parseItems, Item.language, special, mul_assoc]

theorem mem_top (text : List UInt8) : text ∈ (⊤ : Language UInt8) :=
  Set.mem_univ text

theorem matchhere_star (c : UInt8) (re text : List UInt8) :
    matchhere (c :: star :: re) text = matchstarLoop (matchhere re) c text := by
  cases text <;> simp [matchhere]

theorem matchhere_one {c : UInt8} {re : List UInt8} (single : ∀ rest, re ≠ star :: rest)
    (inner : ¬ (c = dollar ∧ re = [])) (text : List UInt8) :
    matchhere (c :: re) text =
      match text with
      | [] => false
      | t :: text => (c == dot || c == t) && matchhere re text := by
  cases re with
  | nil =>
      have special : c ≠ dollar := fun same => inner ⟨same, rfl⟩
      cases text <;> simp [matchhere, special]
  | cons d rest =>
      have special : d ≠ star := fun same => single rest (by rw [same])
      cases text <;> simp [matchhere, special]

/-- One byte of the pattern that is not special. -/
theorem matchOne_iff {here : List UInt8 → Bool}
    (decides : ∀ text, here text = true ↔ text ∈ rest) :
    (match text with
      | [] => false
      | t :: text => (c == dot || c == t) && here text) = true ↔ text ∈ letter c * rest := by
  cases text with
  | nil => simp [nil_not_mem_letter_mul]
  | cons t text =>
      rw [cons_mem_letter_mul, Bool.and_eq_true, Bool.or_eq_true, beq_iff_eq, beq_iff_eq, decides]

theorem matchhere_iff (re text : List UInt8) :
    matchhere re text = true ↔ text ∈ tailLanguage re := by
  induction re using List.twoStepInduction generalizing text with
  | nil => simp [matchhere, tailLanguage, parseItems, border, mem_top]
  | singleton c =>
      by_cases special : c = dollar
      · simp [matchhere, tailLanguage, parseItems, border, special]
      · have decides : ∀ text, matchhere [] text = true ↔ text ∈ tailLanguage [] := by
          simp [matchhere, tailLanguage, parseItems, border, mem_top]
        have single : ∀ rest, [] ≠ star :: rest := fun rest same => by cases same
        have inner : ¬ (c = dollar ∧ [] = ([] : List UInt8)) := fun both => special both.1
        rw [matchhere_one single inner, tailLanguage_one single inner, matchOne_iff decides]
  | cons_cons c d re ih ihAfter =>
      by_cases special : d = star
      · subst special
        rw [matchhere_star, tailLanguage_star, matchstarLoop_iff ih]
      · have single : ∀ rest, d :: re ≠ star :: rest := fun rest same =>
          special (List.cons.inj same).1
        have inner : ¬ (c = dollar ∧ d :: re = []) := fun both => by cases both.2
        rw [matchhere_one single inner, tailLanguage_one single inner, matchOne_iff (ihAfter d)]

theorem matchLoop_iff (re text : List UInt8) :
    matchLoop re text = true ↔ text ∈ ⊤ * tailLanguage re := by
  induction text with
  | nil =>
      rw [matchLoop, matchhere_iff, Language.mem_mul]
      constructor
      · intro member
        exact ⟨[], mem_top _, [], member, rfl⟩
      · rintro ⟨first, -, second, member, same⟩
        rw [List.append_eq_nil_iff] at same
        rwa [same.2] at member
  | cons t text ih =>
      rw [matchLoop, Bool.or_eq_true, matchhere_iff, ih, Language.mem_mul, Language.mem_mul]
      constructor
      · rintro (member | ⟨first, -, second, member, rfl⟩)
        · exact ⟨[], mem_top _, _, member, rfl⟩
        · exact ⟨t :: first, mem_top _, second, member, rfl⟩
      · rintro ⟨first, -, second, member, same⟩
        cases first with
        | nil =>
            rw [List.nil_append] at same
            exact .inl (same ▸ member)
        | cons head first =>
            rw [List.cons_append, List.cons.injEq] at same
            exact .inr ⟨first, mem_top _, second, member, same.2⟩

/-- `match` decides whether the text is in the language of the pattern. -/
theorem matchText_iff (re text : List UInt8) :
    matchText re text = true ↔ text ∈ (parse re).language := by
  cases re with
  | nil =>
      rw [matchText, matchLoop_iff]
      rfl
  | cons c rest =>
      rw [matchText, parse]
      split
      · rw [matchhere_iff, Pattern.language, border, if_pos rfl, one_mul]
        rfl
      · rw [matchLoop_iff]
        rfl

example : matchText [97, 46, 42, 98, 36] [120, 97, 99, 98] = true := by decide

end Matching

end Ence360.Xv6.Grep
