import JsonWalk.Text.Decimal
import JsonWalk.Value.Text

/-!
# Texts without controls

The compact text of a value has no control character in it, and so no line break and no tab:
strings escape theirs, and there are no blanks between the tokens.
-/

namespace JsonWalk

/-- No character is a control. -/
def IsPlain (cs : List Char) : Prop := ∀ c ∈ cs, 0x20 ≤ c.toNat

namespace IsPlain

variable {c : Char} {cs ds : List Char}

@[simp] theorem nil : IsPlain [] := List.forall_mem_nil _

@[simp] theorem cons_iff : IsPlain (c :: cs) ↔ 0x20 ≤ c.toNat ∧ IsPlain cs := List.forall_mem_cons

@[simp] theorem append_iff : IsPlain (cs ++ ds) ↔ IsPlain cs ∧ IsPlain ds := List.forall_mem_append

theorem mono (hcs : IsPlain cs) (h : ds ⊆ cs) : IsPlain ds := fun c hc => hcs c (h hc)

theorem replicate (n : Nat) (hc : 0x20 ≤ c.toNat) : IsPlain (List.replicate n c) := fun _ hd =>
  List.eq_of_mem_replicate hd ▸ hc

theorem ite {p : Prop} [Decidable p] (hcs : IsPlain cs) (hds : IsPlain ds) :
    IsPlain (if p then cs else ds) := by
  split <;> assumption

theorem notMem (h : IsPlain cs) (hc : c.toNat < 0x20) : c ∉ cs := fun hmem =>
  Nat.not_lt.2 (h c hmem) hc

end IsPlain

theorem Decimal.isPlain_digits (n : Nat) : IsPlain (digits n) := by
  intro c hc
  have hdigit := isDigit_of_mem_digits hc
  simp only [Char.isDigit, Bool.and_eq_true, decide_eq_true_eq] at hdigit
  exact Nat.le_trans (by decide) hdigit.1

namespace Number

theorem isPlain_intChars : ∀ n : Int, IsPlain (intChars n)
  | .ofNat n => Decimal.isPlain_digits n
  | .negSucc n => IsPlain.cons_iff.2 ⟨by decide, Decimal.isPlain_digits _⟩

theorem isPlain_layout {ds : List Char} (h : IsPlain ds) (e : Int) : IsPlain (layout ds e) := by
  have hzeros (n : Nat) : IsPlain (List.replicate n '0') := .replicate n (by decide)
  have htake (n : Nat) : IsPlain (ds.take n) := h.mono (List.take_subset n ds)
  have hdrop (n : Nat) : IsPlain (ds.drop n) := h.mono (List.drop_subset n ds)
  have hfraction (n : Nat) : IsPlain (if (ds.drop n).isEmpty then ['0'] else ds.drop n) :=
    .ite (by simp) (hdrop n)
  have hpoint : IsPlain (if (ds.drop 1).isEmpty then [] else '.' :: ds.drop 1) :=
    .ite .nil (IsPlain.cons_iff.2 ⟨by decide, hdrop 1⟩)
  have hsign : 0x20 ≤ (if e < 0 then '-' else '+').toNat := by split <;> decide
  rw [layout]
  refine .ite (.ite ?_ ?_) ?_
  · simp [hzeros, h]
  · simp only [IsPlain.append_iff, IsPlain.cons_iff]
    exact ⟨⟨htake _, hzeros _⟩, by decide, hfraction _⟩
  · simp only [IsPlain.append_iff, IsPlain.cons_iff]
    exact ⟨⟨htake 1, hpoint⟩, by decide, hsign, Decimal.isPlain_digits _⟩

theorem isPlain_floatChars (x : Binary64) : IsPlain (floatChars x) := by
  have hmagnitude (e : Int) (ds : List Char) (h : IsPlain ds) :
      IsPlain (if x.mantissa = 0 then ['0', '.', '0'] else layout ds e) :=
    .ite (by simp) (isPlain_layout h e)
  have hdigits (n : Nat) :
      IsPlain ((Decimal.digits n).reverse.dropWhile (· == '0')).reverse :=
    (Decimal.isPlain_digits n).mono fun _ hc =>
      List.mem_reverse.1 ((List.dropWhile_suffix _).subset (List.mem_reverse.1 hc))
  rw [floatChars]
  exact .ite (IsPlain.cons_iff.2 ⟨by decide, hmagnitude _ _ (hdigits _)⟩)
    (hmagnitude _ _ (hdigits _))

theorem isPlain_chars : ∀ n : Number, IsPlain n.chars
  | .int n => isPlain_intChars n
  | .float x => isPlain_floatChars x

end Number

namespace Value

theorem isPlain_stringCharText (c : Char) : IsPlain (stringCharText c) := by
  have hdigit : ∀ n < 16, 0x20 ≤ (Nat.digitChar n).toNat := by decide
  have hplain (h : ¬ c.toNat < 0x20) : IsPlain [c] := by simpa using h
  unfold stringCharText
  split
  case h_8 =>
    split
    · have hhigh := hdigit (c.toNat / 16) (by omega)
      have hlow := hdigit (c.toNat % 16) (by omega)
      simp [hhigh, hlow]
    · exact hplain ‹_›
  all_goals simp

theorem isPlain_stringText (s : String) : IsPlain (stringText s) := by
  have hchars : IsPlain (s.toList.flatMap stringCharText) := by
    intro c hc
    obtain ⟨d, -, hc⟩ := List.mem_flatMap.1 hc
    exact isPlain_stringCharText d c hc
  simp [stringText, hchars]

mutual

theorem isPlain_chars : ∀ v : Value, IsPlain v.chars
  | .null | .bool true | .bool false => by simp [chars]
  | .number n => n.isPlain_chars
  | .string s => isPlain_stringText s
  | .array [] | .object [] => by simp [chars]
  | .array (v :: rest) => by simp [chars, isPlain_chars v, isPlain_laterItems rest]
  | .object ((name, v) :: rest) => by
    simp [chars, isPlain_stringText name, isPlain_chars v, isPlain_laterMembers rest]

theorem isPlain_laterItems : ∀ items : List Value, IsPlain (laterItems items)
  | [] => by simp [laterItems]
  | v :: rest => by simp [laterItems, isPlain_chars v, isPlain_laterItems rest]

theorem isPlain_laterMembers : ∀ members : List (String × Value), IsPlain (laterMembers members)
  | [] => by simp [laterMembers]
  | (name, v) :: rest => by
    simp [laterMembers, isPlain_stringText name, isPlain_chars v, isPlain_laterMembers rest]

end

end Value
end JsonWalk
