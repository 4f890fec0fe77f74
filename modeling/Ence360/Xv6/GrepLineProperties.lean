import Ence360.Xv6.Grep
import Mathlib.Data.List.TakeWhile

/-!
# The lines that `grep` writes

From a file, `grep` writes the lines that match. A line that does not fit into
the buffer is forgotten in pieces of the size of the buffer, and only its end is
matched and written.
-/

set_option autoImplicit false

namespace Ence360.Xv6.Grep

variable {pattern line block rest p buf input : List UInt8} {fuel : ℕ}

section Specification

/-- What is left of a line when it does not fit into the buffer. -/
def cut (line : List UInt8) : List UInt8 :=
  line.drop ((bufSize - 1) * (line.length / (bufSize - 1)))

def shown (pattern line : List UInt8) : List UInt8 :=
  if matchText pattern line then line ++ [newline] else []

/-- The lines that end in a newline, as far as they match. -/
def printed (pattern input : List UInt8) : List UInt8 :=
  (input.splitOn newline).dropLast.flatMap fun line => shown pattern (cut line)

theorem cut_of_short (short : line.length < bufSize - 1) : cut line = line := by
  rw [cut, Nat.div_eq_of_lt short]
  rfl

theorem cut_append (full : block.length = bufSize - 1) : cut (block ++ line) = cut line := by
  have positive : 0 < bufSize - 1 := by decide
  rw [cut, List.length_append, full, Nat.add_div_left _ positive, Nat.mul_succ, Nat.add_comm,
    ← full, List.drop_length_add_append, cut, full]

theorem printed_line (whole : newline ∉ line) (rest : List UInt8) :
    printed pattern (line ++ newline :: rest) =
      shown pattern (cut line) ++ printed pattern rest := by
  rw [printed, List.splitOn_append_cons_self_of_not_mem whole,
    List.dropLast_cons_of_ne_nil (List.splitOn_ne_nil _ _), List.flatMap_cons]
  rfl

theorem printed_of_not_mem (whole : newline ∉ rest) : printed pattern rest = [] := by
  rw [printed, List.splitOn_eq_singleton whole]
  rfl

/-- The buffer is full and there is no line in it. -/
theorem printed_block (full : block.length = bufSize - 1) (whole : newline ∉ block)
    (rest : List UInt8) : printed pattern (block ++ rest) = printed pattern rest := by
  by_cases member : newline ∈ rest
  · obtain ⟨line, more, rfl, ends⟩ := List.eq_append_cons_of_mem member
    rw [← List.append_assoc, printed_line, printed_line ends, cut_append full]
    simp [whole, ends]
  · rw [printed_of_not_mem member, printed_of_not_mem]
    simp [whole, member]

end Specification

section Loop

theorem strchr_eq (text : ∀ byte ∈ p, byte ≠ 0) (c : UInt8) :
    strchr p c = p.findIdx? (· = c) := by
  rw [strchr, List.takeWhile_eq_self_iff.mpr]
  simpa using text

theorem strchr_none (text : ∀ byte ∈ p, byte ≠ 0) (absent : strchr p newline = none) :
    newline ∉ p := by
  rw [strchr_eq text, List.findIdx?_eq_none_iff] at absent
  intro member
  simpa using absent newline member

theorem strchr_some {q : ℕ} (text : ∀ byte ∈ p, byte ≠ 0) (found : strchr p newline = some q) :
    p = p.take q ++ newline :: p.drop (q + 1) ∧ newline ∉ p.take q := by
  rw [strchr_eq text, List.findIdx?_eq_some_iff_getElem] at found
  obtain ⟨inside, here, before⟩ := found
  simp only [decide_eq_true_eq] at here before
  constructor
  · rw [← here, ← List.drop_eq_getElem_cons inside, List.take_append_drop]
  · intro member
    obtain ⟨k, bound, same⟩ := List.mem_take_iff_getElem.mp member
    exact before k (by omega) same

/-- The inner loop writes the lines of the buffer and leaves what follows the last one. -/
theorem grepLines_spec (pattern : List UInt8) (text : ∀ byte ∈ p, byte ≠ 0)
    (enough : p.length ≤ fuel)
    (fits : p.length ≤ bufSize - 1) :
    newline ∉ (grepLines pattern fuel p).2 ∧ (grepLines pattern fuel p).2 <:+ p ∧
    (newline ∈ p → (grepLines pattern fuel p).2.length < p.length) ∧
    ∀ rest, printed pattern (p ++ rest) =
      (grepLines pattern fuel p).1 ++ printed pattern ((grepLines pattern fuel p).2 ++ rest) := by
  induction fuel generalizing p with
  | zero =>
      have empty : p = [] := List.eq_nil_of_length_eq_zero (by omega)
      subst empty
      simp [grepLines]
  | succ fuel ih =>
      rw [grepLines]
      cases found : strchr p newline with
      | none =>
          have whole := strchr_none text found
          exact ⟨whole, List.suffix_refl p, fun member => absurd member whole, fun _ => rfl⟩
      | some q =>
          obtain ⟨split, whole⟩ := strchr_some text found
          have shorter : (p.take q).length + (p.drop (q + 1)).length + 1 = p.length := by
            conv_rhs => rw [split]
            simp only [List.length_append, List.length_cons]
            omega
          have textAfter : ∀ byte ∈ p.drop (q + 1), byte ≠ 0 := fun byte member =>
            text byte (List.mem_of_mem_drop member)
          obtain ⟨ends, suffix, -, follows⟩ := ih textAfter (by omega) (by omega)
          refine ⟨ends, suffix.trans (List.drop_suffix _ _), ?_, ?_⟩
          · intro _
            have short := suffix.length_le
            dsimp only
            omega
          · intro rest
            have short : (p.take q).length < bufSize - 1 := by omega
            conv_lhs => rw [split, List.append_assoc, List.cons_append, printed_line whole,
              cut_of_short short, follows rest]
            dsimp only
            rw [shown]
            split
            · simp
            · rfl

/-- One turn of the outer loop, on a buffer that holds the end of the text read so far. -/
theorem keep_spec (pattern : List UInt8) (text : ∀ byte ∈ buf, byte ≠ 0)
    (fits : buf.length ≤ bufSize - 1)
    (filled : buf.length = bufSize - 1 ∨ rest = []) :
    newline ∉ keep buf (grepLines pattern buf.length buf).2 ∧
    (keep buf (grepLines pattern buf.length buf).2).length < bufSize - 1 ∧
    keep buf (grepLines pattern buf.length buf).2 ⊆ buf ∧
    printed pattern (buf ++ rest) = (grepLines pattern buf.length buf).1 ++
      printed pattern (keep buf (grepLines pattern buf.length buf).2 ++ rest) := by
  obtain ⟨ends, suffix, shorter, follows⟩ := grepLines_spec pattern text le_rfl fits
  generalize grepLines pattern buf.length buf = lines at *
  rw [follows rest, keep]
  split
  · next same =>
      have whole : newline ∉ buf := fun member => by
        have less := shorter member
        omega
      have unchanged : lines.2 = buf := suffix.eq_of_length same
      refine ⟨List.not_mem_nil, by decide, List.nil_subset _, ?_⟩
      rw [unchanged, List.nil_append]
      rcases filled with full | rfl
      · rw [printed_block full whole]
      · rw [List.append_nil, printed_of_not_mem whole, printed_of_not_mem List.not_mem_nil]
  · next different =>
      have short := suffix.length_le
      exact ⟨ends, by omega, suffix.subset, rfl⟩

theorem grepLoop_spec {ready : ℕ → ℕ} (regular : ∀ i, bufSize ≤ ready i)
    (text : ∀ byte ∈ buf ++ input, byte ≠ 0) (whole : newline ∉ buf)
    (fits : buf.length < bufSize - 1) (enough : input.length < fuel) (i : ℕ) :
    grepLoop pattern ready fuel i buf input = printed pattern (buf ++ input) := by
  induction fuel generalizing buf input i with
  | zero => omega
  | succ fuel ih =>
      have size : min (ready i) (min (bufSize - buf.length - 1) input.length) =
          min (bufSize - buf.length - 1) input.length := by
        have large := regular i
        omega
      rw [grepLoop, size]
      by_cases stops : min (bufSize - buf.length - 1) input.length = 0
      · have empty : input = [] := List.eq_nil_of_length_eq_zero (by omega)
        rw [if_pos stops, empty, List.append_nil, printed_of_not_mem whole]
      · rw [if_neg stops]
        have positive : bufSize - buf.length - 1 ≠ 0 := by omega
        generalize taken : min (bufSize - buf.length - 1) input.length = n at stops ⊢
        have length : (buf ++ input.take n).length = buf.length + n := by
          rw [List.length_append, List.length_take]
          omega
        have filled : (buf ++ input.take n).length = bufSize - 1 ∨ input.drop n = [] := by
          rw [length, List.drop_eq_nil_iff]
          omega
        have textBuf : ∀ byte ∈ buf ++ input.take n, byte ≠ 0 := fun byte member =>
          text byte (by
            rcases List.mem_append.mp member with member | member
            · exact List.mem_append_left _ member
            · exact List.mem_append_right _ (List.mem_of_mem_take member))
        obtain ⟨ends, shorter, inside, follows⟩ :=
          keep_spec pattern textBuf (by omega) filled
        dsimp only
        rw [ih _ ends shorter (by rw [List.length_drop]; omega), ← follows, List.append_assoc,
          List.take_append_drop]
        intro byte member
        rcases List.mem_append.mp member with member | member
        · exact textBuf byte (inside member)
        · exact text byte (List.mem_append_right _ (List.mem_of_mem_drop member))

/-- From a regular file without zero bytes, which `read` gives as far as there is
room, `grep` writes the lines that match, cut to what fits into the buffer. -/
theorem grep_regular_file (pattern input : List UInt8) {ready : ℕ → ℕ}
    (regular : ∀ i, bufSize ≤ ready i) (text : ∀ byte ∈ input, byte ≠ 0) :
    grep pattern ready input = printed pattern input :=
  grepLoop_spec regular (by simpa using text) List.not_mem_nil (by decide) (Nat.lt_succ_self _) 0

theorem grep_regular_file_two_lines :
    grep [98] (fun _ => 1024) [97, 98, 10, 99, 10, 98] = [97, 98, 10] := by
  have text : ∀ byte ∈ ([97, 98, 10, 99, 10, 98] : List UInt8), byte ≠ 0 := by simp
  rw [grep_regular_file _ _ (fun _ => le_refl 1024) text]
  rfl

end Loop

end Ence360.Xv6.Grep
