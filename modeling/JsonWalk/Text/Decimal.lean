/-!
# Decimal numerals

Rows of ASCII digits and the numbers they denote. Positions, counts and limits are numerals whose
number fits sixty-four bits.
-/

namespace JsonWalk.Decimal

def wordBound : Nat := Nat.pow 2 64

/-- Numbers with a sign are smaller than this, and no smaller than its negative. -/
def signedBound : Nat := Nat.pow 2 63

def digits (n : Nat) : List Char := Nat.toDigits 10 n

/-- The number that a non-empty row of digits denotes, leading zeros allowed. -/
def ofDigits? (cs : List Char) : Option Nat :=
  if cs ≠ [] ∧ cs.all Char.isDigit then some (Nat.ofDigitChars 10 cs 0) else none

def word? (cs : List Char) : Option Nat :=
  (ofDigits? cs).filter (· < wordBound)

theorem isDigit_of_mem_digits {n : Nat} {c : Char} (hc : c ∈ digits n) : c.isDigit :=
  Nat.isDigit_of_mem_toDigits (by decide) (by decide) hc

/-- A number does not become smaller by digits behind it. -/
theorem le_ofDigitChars (cs : List Char) (n : Nat) : n ≤ Nat.ofDigitChars 10 cs n := by
  rw [Nat.ofDigitChars_eq_ofDigitChars_zero]
  exact Nat.le_trans (Nat.le_mul_of_pos_left n (Nat.pow_pos (by decide))) (Nat.le_add_right _ _)

/-- Just the rows of digits denote numbers, as far as these fit. -/
theorem word?_eq_some_iff {cs : List Char} {n : Nat} : word? cs = some n ↔
    cs ≠ [] ∧ (∀ c ∈ cs, c.isDigit) ∧ n < wordBound ∧ Nat.ofDigitChars 10 cs 0 = n := by
  rw [word?, ofDigits?]
  split
  · next h =>
    rw [List.all_eq_true] at h
    simp only [Option.filter_eq_some_iff, Option.some.injEq, decide_eq_true_eq]
    constructor
    · rintro ⟨rfl, hlt⟩
      exact ⟨h.1, h.2, hlt, rfl⟩
    · rintro ⟨-, -, hlt, rfl⟩
      exact ⟨rfl, hlt⟩
  · next h =>
    constructor
    · nofun
    · rintro ⟨hne, hdigits, -⟩
      exact absurd ⟨hne, List.all_eq_true.2 hdigits⟩ h

end JsonWalk.Decimal
