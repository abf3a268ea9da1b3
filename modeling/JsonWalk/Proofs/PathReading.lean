import JsonWalk.Proofs.PathTexts
import JsonWalk.Proofs.PatternFaults
import Mathlib.Data.Nat.Find

/-!
# Paths are patterns without stars

Reading a path is compiling a pattern that has no unescaped star: both give the same segments, or
the same error. A text with an unescaped star is refused for the first of them, unless the text
cannot be cut into lexemes at all.
-/

namespace JsonWalk

namespace Pattern

/-- An unescaped `c`: behind an even number of backslashes. -/
def UnescapedAt (text : List Char) (c : Char) (k : Nat) : Prop :=
  text[k]? = some c ∧ closingBackslashes (text.take k) % 2 = 0

instance (text : List Char) (c : Char) (k : Nat) : Decidable (UnescapedAt text c k) :=
  inferInstanceAs (Decidable (_ ∧ _))

abbrev StarAt (text : List Char) (k : Nat) : Prop := UnescapedAt text '*' k

/-- Where the first unescaped star of the text is, if there is any. -/
def FirstStar (text : List Char) : Option Nat → Prop
  | none => ∀ k, ¬ StarAt text k
  | some k => StarAt text k ∧ ∀ j < k, ¬ StarAt text j

/-! ### Unescaped characters and lexemes -/

section

variable {o k : Nat} {c : Char} {sign : Sign} {text front rest word cs : List Char}
  {ls : List Lexeme} {first : Option Nat}

theorem unescapedAt_append_left (hk : k < front.length) :
    UnescapedAt (front ++ rest) c k ↔ UnescapedAt front c k := by
  rw [UnescapedAt, UnescapedAt, List.getElem?_append_left hk, List.take_append_of_le_length hk.le]

theorem getElem?_length_add : (front ++ rest)[front.length + k]? = rest[k]? := by
  rw [List.getElem?_append_right (Nat.le_add_right _ _), Nat.add_sub_cancel_left]

/-- Whole lexemes in front of a character do not escape it. -/
theorem unescapedAt_append_right (hfront : closingBackslashes front % 2 = 0) :
    UnescapedAt (front ++ rest) c (front.length + k) ↔ UnescapedAt rest c k := by
  have htake : (front ++ rest).take (front.length + k) = front ++ rest.take k :=
    List.take_length_add_append k
  rw [UnescapedAt, UnescapedAt, htake, getElem?_length_add, closingBackslashes_append_mod hfront]

theorem not_unescapedAt_append (hfront : closingBackslashes front % 2 = 0)
    (hnone : ∀ k, ¬ UnescapedAt front c k) (hrest : ∀ k, ¬ UnescapedAt rest c k) (k : Nat) :
    ¬ UnescapedAt (front ++ rest) c k := by
  by_cases hk : k < front.length
  · rw [unescapedAt_append_left hk]
    exact hnone k
  · obtain ⟨j, rfl⟩ := Nat.exists_eq_add_of_le (Nat.not_lt.1 hk)
    rw [unescapedAt_append_right hfront]
    exact hrest j

theorem FirstStar.append (hfront : closingBackslashes front % 2 = 0)
    (hnone : ∀ k, ¬ StarAt front k) (h : FirstStar rest first) :
    FirstStar (front ++ rest) (first.map (front.length + ·)) := by
  cases first with
  | none => exact not_unescapedAt_append hfront hnone h
  | some k =>
    obtain ⟨hstar, hbefore⟩ := h
    refine ⟨(unescapedAt_append_right hfront).2 hstar, fun j hj => ?_⟩
    change ¬ UnescapedAt (front ++ rest) '*' j
    by_cases hlt : j < front.length
    · rw [unescapedAt_append_left hlt]
      exact hnone j
    · obtain ⟨i, rfl⟩ := Nat.exists_eq_add_of_le (Nat.not_lt.1 hlt)
      rw [unescapedAt_append_right hfront]
      exact hbefore i (Nat.lt_of_add_lt_add_left hj)

theorem firstStar_cons (rest : List Char) : FirstStar ('*' :: rest) (some 0) :=
  ⟨⟨rfl, rfl⟩, fun j hj => absurd hj (Nat.not_lt_zero j)⟩

theorem unescapedAt_singleton_iff {d : Char} : UnescapedAt [d] c k ↔ k = 0 ∧ c = d := by
  constructor
  · rintro ⟨hget, -⟩
    cases k with
    | zero => exact ⟨rfl, (Option.some.inj hget).symm⟩
    | succ k => cases hget
  · rintro ⟨rfl, rfl⟩
    exact ⟨rfl, rfl⟩

theorem closingBackslashes_singleton (hc : c ≠ '\\') : closingBackslashes [c] % 2 = 0 :=
  congrArg (· % 2) (closingBackslashes_of_ne hc [])

theorem Escaped.closingBackslashes_mod (h : Escaped word cs) :
    closingBackslashes word % 2 = 0 := by
  rw [← exists_lexes_iff (o := 0)]
  cases cs with
  | nil =>
    rw [h.eq_nil]
    exact ⟨[], .nil 0⟩
  | cons c cs =>
    have hlexes : Lexes 0 (word ++ []) [⟨.name (c :: cs), 0⟩] :=
      .name h (List.cons_ne_nil _ _) (by simp [EndsName]) (.nil _)
    rw [List.append_nil] at hlexes
    exact ⟨_, hlexes⟩

theorem Escaped.not_unescapedAt (h : Escaped word cs) (hc : Segment.isSpecial c) (hback : c ≠ '\\')
    (k : Nat) : ¬ UnescapedAt word c k := by
  induction h generalizing k with
  | nil =>
    rintro ⟨hget, -⟩
    cases hget
  | @plain d word cs hd _ ih =>
    have hne : d ≠ '\\' := by
      rintro rfl
      exact hd (by decide)
    have hnone (k : Nat) : ¬ UnescapedAt [d] c k := by
      rw [unescapedAt_singleton_iff]
      rintro ⟨-, rfl⟩
      exact hd hc
    exact not_unescapedAt_append (closingBackslashes_singleton hne) hnone ih k
  | @escape d word cs _ ih =>
    have heven : closingBackslashes ['\\', d] % 2 = 0 :=
      (Escaped.escape d .nil).closingBackslashes_mod
    have hnone (k : Nat) : ¬ UnescapedAt ['\\', d] c k := by
      rintro ⟨hget, hbefore⟩
      rcases k with _ | _ | k
      · exact hback (Option.some.inj hget).symm
      · cases hbefore
      · cases hget
    exact not_unescapedAt_append heven hnone ih k

theorem Sign.IsSpelled.closingBackslashes_mod (h : sign.IsSpelled word) :
    closingBackslashes word % 2 = 0 := by
  cases sign with
  | dot | mark | star =>
    cases h
    rfl
  | name cs => exact h.1.closingBackslashes_mod

theorem Sign.IsSpelled.unescapedAt_iff {sign' : Sign} (hword : sign'.IsSpelled word)
    (hc : sign.delimiter? = some c) : UnescapedAt word c k ↔ k = 0 ∧ sign = sign' := by
  cases sign' with
  | dot | mark | star =>
    cases hword
    rw [unescapedAt_singleton_iff]
    cases sign <;> cases hc <;> simp
  | name cs =>
    refine iff_of_false ?_ ?_
    · cases sign <;> cases hc <;> exact hword.1.not_unescapedAt (by decide) (by decide) k
    · rintro ⟨-, rfl⟩
      cases hc

/-- The first lexeme that is a star stands where the first unescaped star is. -/
theorem Lexes.exists_firstStar (h : Lexes o text ls) : ∃ first, FirstStar text first ∧
    (ls.find? (·.sign = .star)).map (·.offset) = first.map (o + ·) := by
  induction h using Lexes.induction_on_words with
  | nil o =>
    refine ⟨none, ?_, rfl⟩
    rintro k ⟨hget, -⟩
    cases hget
  | @cons o sign word text ls hword _ _ ih =>
    by_cases hstar : sign = .star
    · subst hstar
      cases hword
      exact ⟨some 0, firstStar_cons _, rfl⟩
    · -- what is in front has no star, so the first one of the rest moves behind it
      have hnone (k : Nat) : ¬ StarAt word k := fun hk =>
        hstar ((hword.unescapedAt_iff rfl).1 hk).2.symm
      obtain ⟨first, hfirst, hfind⟩ := ih
      refine ⟨_, hfirst.append hword.closingBackslashes_mod hnone, ?_⟩
      rw [List.find?_cons_of_neg (by simpa using hstar), hfind, Option.map_map]
      congr 1
      funext k
      exact Nat.add_assoc o word.length k

theorem exists_firstStar (h : ∃ k, StarAt text k) : ∃ k, FirstStar text (some k) := by
  classical
  exact ⟨Nat.find h, Nat.find_spec h, fun _ => Nat.find_min h⟩

theorem FirstStar.unique {first' : Option Nat} (h : FirstStar text first)
    (h' : FirstStar text first') : first = first' := by
  cases first with
  | none =>
    cases first' with
    | none => rfl
    | some j => exact absurd h'.1 (h j)
  | some k =>
    cases first' with
    | none => exact absurd h.1 (h' k)
    | some j =>
      have hle : j ≤ k := Nat.not_lt.1 fun hlt => h'.2 k hlt h.1
      have hge : k ≤ j := Nat.not_lt.1 fun hlt => h.2 j hlt h'.1
      rw [Nat.le_antisymm hge hle]

end

theorem bind_literals (p : Path) : bind (p.map Atom.literal) = p.map Element.literal := by
  have hbind := (bound_literals p).bind_atoms
  rwa [List.map_map] at hbind

theorem compile_of_scan {text : String} {ls : List Lexeme} (h : scan text = .ok ls) :
    compile text = atoms text.toList.length ls >>= fun as => pure ⟨bind as⟩ := by
  rw [compile, h]
  rfl

end Pattern

namespace Path

open Pattern

variable {text : String} {p : Path}

theorem isWritable_of_parse (h : parse text = .ok p) : ∀ s ∈ p, s.IsWritable := fun _ hs =>
  (parse_eq_ok_iff.1 h).isWritable (List.mem_map_of_mem hs)

theorem parse_text (hp : ∀ s ∈ p, s.IsWritable) : parse p.text = .ok p := by
  have hwritable (s : Segment) (hs : .literal s ∈ p.map Element.literal) : s.IsWritable := by
    obtain ⟨s', hs', heq⟩ := List.mem_map.1 hs
    cases heq
    exact hp s hs'
  have htext := patternText_elementChars hwritable
  rw [elementChars_literals, List.map_map] at htext
  rw [parse_eq_ok_iff, Path.text, String.toList_ofList]
  exact htext

theorem parse_of_not_star (hstars : ∀ k, ¬ StarAt text.toList k) :
    (∃ p, parse text = .ok p ∧ compile text = .ok ⟨p.map Element.literal⟩) ∨
      ∃ e, parse text = .error e ∧ compile text = .error e := by
  cases hscan : scan text with
  | error e =>
    refine .inr ⟨e, ?_, ?_⟩
    · rw [parse, hscan]
      rfl
    · rw [compile, hscan]
      rfl
  | ok ls =>
    obtain ⟨first, hfirst, hfind⟩ := (lexes_of_scanFrom hscan).exists_firstStar
    have hnone : FirstStar text.toList none := hstars
    rw [hfirst.unique hnone, Option.map_none, Option.map_eq_none_iff] at hfind
    rw [parse_of_scan hscan, compile_of_scan hscan, hfind]
    cases has : atoms text.toList.length ls with
    | error e => exact .inr ⟨e, rfl, rfl⟩
    | ok as =>
      have hsigns : ∀ l ∈ ls, l.sign ≠ .star := by simpa using hfind
      have hliterals := eq_map_of_literals ((atoms_literals_iff has).2 hsigns)
      refine .inl ⟨as.filterMap Atom.literal?, rfl, ?_⟩
      rw [← bind_literals, ← hliterals]
      rfl

theorem parse_of_firstStar {k : Nat} (h : FirstStar text.toList (some k)) :
    parse text = .error (if closingBackslashes text.toList % 2 = 1
      then .danglingEscape (text.toList.length - 1) else .starInPath k) := by
  cases hscan : scan text with
  | error e =>
    obtain ⟨hodd, rfl⟩ := scanFrom_eq_error_iff.1 hscan
    rw [if_pos hodd, parse, hscan, Nat.zero_add]
    rfl
  | ok ls =>
    have hlexes := lexes_of_scanFrom hscan
    have heven := exists_lexes_iff.1 ⟨ls, hlexes⟩
    obtain ⟨first, hfirst, hfind⟩ := hlexes.exists_firstStar
    rw [hfirst.unique h] at hfind
    obtain ⟨star, hstar, hoffset⟩ := Option.map_eq_some_iff.1 hfind
    have hplace : star.offset = k := hoffset.trans (Nat.zero_add k)
    rw [if_neg (by omega), parse_of_scan hscan, hstar, ← hplace]

/-- A text without unescaped stars is read as a path just if it compiles, and then to its literals;
path and pattern are printed alike, and the printed path is read as the path again. Both fail with
the same error. A text with stars is refused for the first of them, unless it ends in the middle of
an escape. -/
theorem parse_agrees_with_compile (text : String) :
    ((∀ k, ¬ StarAt text.toList k) →
      (∀ p, parse text = .ok p ↔
        ∃ pattern, compile text = .ok pattern ∧ pattern.elements = p.map Element.literal) ∧
      (∀ p pattern, parse text = .ok p → compile text = .ok pattern →
        p.text = pattern.text ∧ parse p.text = .ok p) ∧
      ∀ e, parse text = .error e ↔ compile text = .error e) ∧
    ((∃ k, StarAt text.toList k) → ∃ k, FirstStar text.toList (some k) ∧
      parse text = .error (if closingBackslashes text.toList % 2 = 1
        then .danglingEscape (text.toList.length - 1) else .starInPath k)) := by
  refine ⟨fun hstars => ?_, fun hstar => ?_⟩
  · obtain ⟨p, hparse, hcompile⟩ | ⟨e, hparse, hcompile⟩ := parse_of_not_star hstars
    · rw [hparse, hcompile]
      refine ⟨fun q => ⟨?_, ?_⟩, ?_, fun e => ⟨by simp, by simp⟩⟩
      · rintro ⟨⟩
        exact ⟨_, rfl, rfl⟩
      · rintro ⟨pattern, ⟨⟩, hliterals⟩
        have hinj := List.map_injective_iff.2 fun _ _ => Element.literal.inj
        rw [hinj hliterals]
      · rintro _ _ ⟨⟩ ⟨⟩
        exact ⟨(text_literals p).symm, parse_text (isWritable_of_parse hparse)⟩
    · rw [hparse, hcompile]
      simp
  · obtain ⟨k, hfirst⟩ := exists_firstStar hstar
    exact ⟨k, hfirst, parse_of_firstStar hfirst⟩

/-- A star that is part of a name, and one that comes behind two other faults. -/
theorem parse_agrees_with_compile_around_stars :
    (∀ k, ¬ StarAt "\\*a\\\\.@007".toList k) ∧
      (∃ pattern, compile "\\*a\\\\.@007" = .ok pattern ∧
        pattern.elements = [.literal (.member "*a\\"), .literal (.index 7)]) ∧
      (∃ k, StarAt "@x..\\\\*.*".toList k) ∧
      parse "@x..\\\\*.*" = .error (.starInPath 6) := by
  have hshort : ∀ k < 10, ¬ StarAt "\\*a\\\\.@007".toList k := by decide
  have hplain : ∀ k, ¬ StarAt "\\*a\\\\.@007".toList k := fun k hk =>
    hshort k (List.getElem?_eq_some_iff.1 hk.1).1 hk
  have hstar : FirstStar "@x..\\\\*.*".toList (some 6) := ⟨by decide, by decide⟩
  obtain ⟨hpath, -⟩ := parse_agrees_with_compile "\\*a\\\\.@007"
  obtain ⟨-, hrefused⟩ := parse_agrees_with_compile "@x..\\\\*.*"
  obtain ⟨k, hfirst, hparse⟩ := hrefused ⟨6, hstar.1⟩
  cases hfirst.unique hstar
  exact ⟨hplain, ((hpath hplain).1 [.member "*a\\", .index 7]).1 (by decide +kernel), ⟨6, hstar.1⟩,
    hparse⟩

end Path
end JsonWalk
