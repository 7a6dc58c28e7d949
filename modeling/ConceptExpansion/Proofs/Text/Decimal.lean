/-
# Numerals and numbers

A run of characters is a numeral exactly if it is not empty and has only decimal digits,
and then it stands for what its digits add up to. Among the numerals that stand for a
number there is the decimal one, which has no leading zero.
-/

import Mathlib
import ConceptExpansion.Text.Decimal

namespace ConceptExpansion.Text

theorem digitsFrom?_of_isDigit {chars : List Char} (h : ∀ c ∈ chars, c.isDigit) (value : Nat) :
    digitsFrom? value chars = some (Nat.ofDigitChars 10 chars value) := by
  induction chars generalizing value with
  | nil => rfl
  | cons c rest ih =>
      obtain ⟨hc, hrest⟩ := List.forall_mem_cons.1 h
      simp only [digitsFrom?, digit?, hc, if_true, ih hrest]
      rfl

theorem isDigit_of_digitsFrom? {chars : List Char} {value n : Nat}
    (h : digitsFrom? value chars = some n) : ∀ c ∈ chars, c.isDigit := by
  induction chars generalizing value with
  | nil => exact nofun
  | cons c rest ih =>
      by_cases hc : c.isDigit
      · simp only [digitsFrom?, digit?, hc, if_true] at h
        exact List.forall_mem_cons.2 ⟨hc, ih h⟩
      · simp only [digitsFrom?, digit?, hc, Bool.false_eq_true, if_false, reduceCtorEq] at h

/-- Exactly the nonempty runs of digits are numerals. -/
theorem numeral?_eq_some_iff {chars : List Char} {n : Nat} :
    numeral? chars = some n ↔
      chars ≠ [] ∧ (∀ c ∈ chars, c.isDigit) ∧ Nat.ofDigitChars 10 chars 0 = n := by
  cases chars with
  | nil => simp [numeral?]
  | cons c rest =>
      show digitsFrom? 0 (c :: rest) = some n ↔ _
      constructor
      · intro h
        have hdigits := isDigit_of_digitsFrom? h
        rw [digitsFrom?_of_isDigit hdigits, Option.some.injEq] at h
        exact ⟨List.cons_ne_nil c rest, hdigits, h⟩
      · rintro ⟨-, hdigits, rfl⟩
        exact digitsFrom?_of_isDigit hdigits 0

theorem isDigit_of_mem_toDigits {n : Nat} {c : Char} (h : c ∈ Nat.toDigits 10 n) : c.isDigit :=
  Nat.isDigit_of_mem_toDigits (by decide) (by decide) h

theorem exists_toDigits (n : Nat) :
    ∃ c rest, Nat.toDigits 10 n = c :: rest ∧ c.isDigit := by
  obtain ⟨c, rest, hdigits⟩ := List.exists_cons_of_ne_nil
    (List.ne_nil_of_length_pos (Nat.length_toDigits_pos (b := 10) (n := n)))
  exact ⟨c, rest, hdigits, isDigit_of_mem_toDigits (hdigits ▸ List.mem_cons_self)⟩

/-- The decimal numeral of a number spells it. -/
theorem numeral?_toDigits (n : Nat) : numeral? (Nat.toDigits 10 n) = some n := by
  obtain ⟨c, rest, hdigits, -⟩ := exists_toDigits n
  refine numeral?_eq_some_iff.2 ⟨?_, fun _ => isDigit_of_mem_toDigits,
    Nat.ofDigitChars_toDigits (by decide) (by decide)⟩
  exact hdigits ▸ List.cons_ne_nil c rest

/-- A decimal numeral of more than one digit has no leading zero. -/
theorem head?_toDigits (n : Nat) (h : n ≠ 0) : (Nat.toDigits 10 n).head? ≠ some '0' := by
  induction n using Nat.strong_induction_on with
  | _ n ih =>
      rw [Nat.toDigits_eq_if (by decide)]
      split
      · next hlt =>
          have hpos : 0 < n := Nat.pos_of_ne_zero h
          interval_cases n <;> decide
      · have hshorter := ih (n / 10) (by omega) (by omega)
        obtain ⟨c, rest, hdigits, -⟩ := exists_toDigits (n / 10)
        rw [hdigits] at hshorter ⊢
        exact hshorter

end ConceptExpansion.Text
