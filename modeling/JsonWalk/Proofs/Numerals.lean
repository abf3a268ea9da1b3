import JsonWalk.Proofs.Grammar
import Mathlib.Data.List.TakeDrop

/-!
# Numbers as they are read

A number is read if the whole row of characters is a literal of the grammar. The digits of each part
are taken as far as they go, which is where the grammar ends the part.
-/

namespace JsonWalk.Numeral

open Grammar

variable {cs ds rest f e : List Char}

theorem span_digits (hds : ∀ c ∈ ds, c.isDigit) (hrest : ∀ c ∈ rest.head?, ¬ c.isDigit) :
    (ds ++ rest).span Char.isDigit = (ds, rest) := by
  rw [List.span_eq_takeWhile_dropWhile, List.takeWhile_append_of_pos hds,
    List.dropWhile_append_of_pos hds]
  cases rest with
  | nil => simp
  | cons c rest =>
    have hc : ¬ c.isDigit := hrest c rfl
    rw [List.takeWhile_cons_of_neg hc, List.dropWhile_cons_of_neg hc, List.append_nil]

theorem of_span (h : cs.span Char.isDigit = (ds, rest)) :
    cs = ds ++ rest ∧ (∀ c ∈ ds, c.isDigit) := by
  rw [List.span_eq_takeWhile_dropWhile] at h
  obtain ⟨rfl, rfl⟩ := Prod.mk.inj h
  exact ⟨List.takeWhile_append_dropWhile.symm, List.all_eq_true.1 List.all_takeWhile⟩

theorem isWhole_iff : isWhole ds ↔ ds ≠ [] ∧ (ds = ['0'] ∨ ds.head? ≠ some '0') := by
  unfold isWhole
  split
  · simp
  · simp
  · next hne hzero =>
    cases ds with
    | nil => exact absurd rfl hne
    | cons c rest =>
      have hc : c ≠ '0' := fun h => hzero rest (by rw [h])
      simp [hc]

/-! ### Fraction and exponent -/

theorem of_readFraction {fraction : Option (List Char)}
    (h : readFraction cs = some (fraction, rest)) :
    ∃ f, Fraction fraction f ∧ cs = f ++ rest := by
  unfold readFraction at h
  split at h
  · next cs' =>
    cases hspan : cs'.span Char.isDigit with
    | mk ds rest' =>
      obtain ⟨rfl, hds⟩ := of_span hspan
      simp only [hspan] at h
      split at h
      · cases h
      · next hne =>
        cases h
        exact ⟨_, .some ⟨by simpa using hne, hds⟩, rfl⟩
  · cases h
    exact ⟨[], .none, rfl⟩

theorem readFraction_append {fraction : Option (List Char)} (hf : Fraction fraction f)
    (hrest : ∀ c ∈ rest.head?, c = 'e' ∨ c = 'E') :
    readFraction (f ++ rest) = some (fraction, rest) := by
  cases hf with
  | none =>
    unfold readFraction
    split
    · next h =>
      rw [List.nil_append] at h
      subst h
      rcases hrest _ rfl with h | h <;> cases h
    · rfl
  | @some ds hds =>
    have hspan : (ds ++ rest).span Char.isDigit = (ds, rest) := by
      apply span_digits hds.2
      intro c hc
      rcases hrest c hc with rfl | rfl <;> decide
    rw [List.cons_append, readFraction, hspan]
    simp [hds.1]

/-- What `readExponent` makes of the digits behind the sign. -/
def readDigits (negative : Bool) (cs : List Char) :
    Option (Option (Bool × List Char) × List Char) :=
  let (ds, rest) := cs.span Char.isDigit
  if ds.isEmpty then none else some (some (negative, ds), rest)

theorem readDigits_eq_some {negative : Bool} {exponent : Option (Bool × List Char)}
    (h : readDigits negative cs = some (exponent, rest)) :
    ∃ ds, IsDigits ds ∧ exponent = some (negative, ds) ∧ cs = ds ++ rest := by
  cases hspan : cs.span Char.isDigit with
  | mk ds rest' =>
    obtain ⟨rfl, hds⟩ := of_span hspan
    simp only [readDigits, hspan] at h
    split at h
    · cases h
    · next hne =>
      cases h
      exact ⟨ds, ⟨by simpa using hne, hds⟩, rfl, rfl⟩

theorem readDigits_of_isDigits {negative : Bool} (h : IsDigits ds) :
    readDigits negative ds = some (some (negative, ds), []) := by
  have hspan : ds.span Char.isDigit = (ds, []) := by
    have : (ds ++ []).span Char.isDigit = (ds, []) := span_digits h.2 nofun
    rwa [List.append_nil] at this
  rw [readDigits, hspan]
  simp [h.1]

theorem readExponent_minus {c : Char} (hc : c = 'e' ∨ c = 'E') :
    readExponent (c :: '-' :: cs) = readDigits true cs := if_pos hc

theorem readExponent_plus {c : Char} (hc : c = 'e' ∨ c = 'E') :
    readExponent (c :: '+' :: cs) = readDigits false cs := if_pos hc

theorem readExponent_unsigned {c : Char} (hc : c = 'e' ∨ c = 'E')
    (hcs : ∀ d ∈ cs.head?, d ≠ '-' ∧ d ≠ '+') : readExponent (c :: cs) = readDigits false cs := by
  simp only [readExponent, if_pos hc]
  split
  · exact absurd rfl (hcs _ rfl).1
  · exact absurd rfl (hcs _ rfl).2
  · rfl

theorem of_readExponent {exponent : Option (Bool × List Char)}
    (h : readExponent cs = some (exponent, rest)) : ∃ e, Exponent exponent e ∧ cs = e ++ rest := by
  cases cs with
  | nil =>
    cases h
    exact ⟨[], .none, rfl⟩
  | cons c cs =>
    by_cases hc : c = 'e' ∨ c = 'E'
    · by_cases hcs : ∀ d ∈ cs.head?, d ≠ '-' ∧ d ≠ '+'
      · rw [readExponent_unsigned hc hcs] at h
        obtain ⟨ds, hds, rfl, rfl⟩ := readDigits_eq_some h
        exact ⟨_, .unsigned hc hds, rfl⟩
      · obtain ⟨sign, ds, rfl, hsign⟩ : ∃ sign ds, cs = sign :: ds ∧ (sign = '-' ∨ sign = '+') := by
          cases cs with
          | nil => exact absurd nofun hcs
          | cons d ds => exact ⟨d, ds, rfl, by simpa [or_iff_not_imp_left] using hcs⟩
        rcases hsign with rfl | rfl
        · rw [readExponent_minus hc] at h
          obtain ⟨ds, hds, rfl, rfl⟩ := readDigits_eq_some h
          exact ⟨_, .minus hc hds, rfl⟩
        · rw [readExponent_plus hc] at h
          obtain ⟨ds, hds, rfl, rfl⟩ := readDigits_eq_some h
          exact ⟨_, .plus hc hds, rfl⟩
    · have hnone : readExponent (c :: cs) = some (none, c :: cs) := if_neg hc
      cases hnone.symm.trans h
      exact ⟨[], .none, rfl⟩

theorem readExponent_of_exponent {exponent : Option (Bool × List Char)} (h : Exponent exponent e) :
    readExponent e = some (exponent, []) := by
  cases h with
  | none => rfl
  | minus he hds => rw [readExponent_minus he, readDigits_of_isDigits hds]
  | plus he hds => rw [readExponent_plus he, readDigits_of_isDigits hds]
  | @unsigned e ds he hds =>
    rw [readExponent_unsigned he, readDigits_of_isDigits hds]
    intro d hd
    have hdigit := hds.2 d (List.mem_of_mem_head? hd)
    constructor <;> rintro rfl <;> exact absurd hdigit (by decide)

/-! ### Whole literals -/

/-- What `read` makes of the characters behind the sign. -/
def readUnsigned (negative : Bool) (cs : List Char) : Option (Numeral × List Char) := do
  let (whole, cs) := cs.span Char.isDigit
  guard (isWhole whole)
  let (fraction, cs) ← readFraction cs
  let (exponent, cs) ← readExponent cs
  return (⟨negative, whole, fraction, exponent⟩, cs)

theorem read_minus : read ('-' :: cs) = readUnsigned true cs := rfl

def readSign : List Char → Bool × List Char
  | '-' :: rest => (true, rest)
  | cs => (false, cs)

theorem readSign_unsigned (h : cs.head? ≠ some '-') : readSign cs = (false, cs) := by
  unfold readSign
  split
  · exact absurd rfl h
  · rfl

theorem read_unsigned (h : cs.head? ≠ some '-') : read cs = readUnsigned false cs := by
  have hread : read cs = readUnsigned (readSign cs).1 (readSign cs).2 := rfl
  rw [hread, readSign_unsigned h]

theorem guard_bind_of_pos {α : Type} {b : Bool} {k : Unit → Option α} (h : b) :
    (guard b >>= k) = k () := by
  rw [guard, if_pos h]
  rfl

theorem guard_bind_of_neg {α : Type} {b : Bool} {k : Unit → Option α} (h : ¬ b) :
    (guard b >>= k) = none := by
  rw [guard, if_neg h]
  rfl

theorem of_readUnsigned {negative : Bool} {l : Numeral}
    (h : readUnsigned negative cs = some (l, rest)) :
    ∃ text, Literal l ((if negative then ['-'] else []) ++ text) ∧ cs = text ++ rest := by
  cases hspan : cs.span Char.isDigit with
  | mk whole cs₁ =>
    obtain ⟨rfl, hdigits⟩ := of_span hspan
    rw [readUnsigned, hspan] at h
    dsimp only at h
    by_cases hw : isWhole whole
    · rw [guard_bind_of_pos hw] at h
      obtain ⟨⟨fraction, cs₂⟩, hf, h⟩ := Option.bind_eq_some_iff.1 h
      obtain ⟨⟨exponent, cs₃⟩, he, heq⟩ := Option.bind_eq_some_iff.1 h
      cases heq
      obtain ⟨hne, hwhole⟩ := isWhole_iff.1 hw
      obtain ⟨f, hf', rfl⟩ := of_readFraction hf
      obtain ⟨e, he', rfl⟩ := of_readExponent he
      exact ⟨whole ++ (f ++ e), .mk negative ⟨hne, hdigits⟩ hwhole hf' he', by simp⟩
    · rw [guard_bind_of_neg hw] at h
      cases h

theorem head?_fraction {fraction : Option (List Char)} (h : Fraction fraction f)
    (hrest : ∀ c ∈ rest.head?, ¬ c.isDigit) : ∀ c ∈ (f ++ rest).head?, ¬ c.isDigit := by
  cases h with
  | none => exact hrest
  | some =>
    rintro c hc
    cases hc
    decide

theorem head?_exponent {exponent : Option (Bool × List Char)} (h : Exponent exponent e) :
    ∀ c ∈ e.head?, c = 'e' ∨ c = 'E' := by
  intro c hc
  cases h with
  | none => cases hc
  | unsigned he | plus he | minus he =>
    cases hc
    exact he

theorem readUnsigned_of_parts {negative : Bool} {whole : List Char} {fraction : Option (List Char)}
    {exponent : Option (Bool × List Char)} (hdigits : IsDigits whole)
    (hwhole : whole = ['0'] ∨ whole.head? ≠ some '0') (hf : Fraction fraction f)
    (he : Exponent exponent e) :
    readUnsigned negative (whole ++ (f ++ e)) =
      some (⟨negative, whole, fraction, exponent⟩, []) := by
  have hexponent := head?_exponent he
  have hspan : (whole ++ (f ++ e)).span Char.isDigit = (whole, f ++ e) := by
    refine span_digits hdigits.2 (head?_fraction hf fun c hc => ?_)
    rcases hexponent c hc with rfl | rfl <;> decide
  have hguard : isWhole whole := isWhole_iff.2 ⟨hdigits.1, hwhole⟩
  rw [readUnsigned, hspan]
  dsimp only
  rw [guard_bind_of_pos hguard]
  simp only [readFraction_append hf hexponent, bind, Option.bind_some, pure,
    readExponent_of_exponent he]

theorem read_eq_some_iff {l : Numeral} : read cs = some (l, []) ↔ Literal l cs := by
  constructor
  · intro h
    by_cases hcs : cs.head? = some '-'
    · obtain ⟨cs, rfl⟩ := List.head?_eq_some_iff.1 hcs
      rw [read_minus] at h
      obtain ⟨text, hl, rfl⟩ := of_readUnsigned h
      rwa [List.append_nil]
    · rw [read_unsigned hcs] at h
      obtain ⟨text, hl, rfl⟩ := of_readUnsigned h
      rwa [List.append_nil]
  · rintro ⟨negative, hdigits, hwhole, hf, he⟩
    cases negative with
    | true => exact readUnsigned_of_parts hdigits hwhole hf he
    | false =>
      refine (read_unsigned fun hhead => ?_).trans (readUnsigned_of_parts hdigits hwhole hf he)
      obtain ⟨c, whole, rfl⟩ := List.exists_cons_of_ne_nil hdigits.1
      cases hhead
      exact absurd (hdigits.2 '-' List.mem_cons_self) (by decide)

end JsonWalk.Numeral

namespace JsonWalk

theorem Number.ofLiteral?_eq_some_iff {cs : List Char} {n : Number} :
    Number.ofLiteral? cs = some n ↔ ∃ l, Grammar.Literal l cs ∧ l.number = some n := by
  simp only [← Numeral.read_eq_some_iff]
  rw [ofLiteral?]
  constructor
  · intro h
    split at h
    · next l hl => exact ⟨l, hl, h⟩
    · cases h
  · rintro ⟨l, hl, h⟩
    rw [hl]
    exact h

end JsonWalk
