import JsonWalk.Proofs.PatternPrinting

/-!
# Paths as they are written

A path is written as the pattern of its segments. Reading accepts just the patterns without stars,
so it gives the path back, and the pattern accepts the places at and below the path.
-/

namespace JsonWalk

namespace Pattern

/-! ### Patterns without stars -/

section

variable {stop : Nat} {ls : List Lexeme} {as : List Atom} {p q : Path}

theorem readAtoms_literals_iff {stage : Stage} (h : readAtoms stop stage ls = .ok as) :
    (∀ a ∈ as, ¬ a.isWildcard) ↔ stage ≠ .star ∧ ∀ l ∈ ls, l.sign ≠ .star := by
  fun_induction readAtoms stop stage ls generalizing as with
  | case1 | case2 => cases h
  | case3 =>
    cases h
    simp
  | case4 =>
    cases h
    simp [Atom.isWildcard]
  | case5 cs o rest ih =>
    obtain ⟨as, hrest, rfl⟩ := bind_pure_eq_ok_iff.1 h
    simpa [Atom.isWildcard] using ih hrest
  | case6 o rest ih => simpa using ih h
  | case7 o rest ih => simpa using ih h
  | case8 cs o rest position _ ih =>
    obtain ⟨as, hrest, rfl⟩ := bind_pure_eq_ok_iff.1 h
    simpa [Atom.isWildcard] using ih hrest
  | case9 => cases h
  | case10 o rest ih => simpa using ih h
  | case11 o rest ih | case12 o rest ih =>
    obtain ⟨as, -, rfl⟩ := bind_pure_eq_ok_iff.1 h
    simp [Atom.isWildcard]
  | case13 => cases h

theorem atoms_literals_iff (h : atoms stop ls = .ok as) :
    (∀ a ∈ as, ¬ a.isWildcard) ↔ ∀ l ∈ ls, l.sign ≠ .star := by
  cases ls with
  | nil =>
    cases h
    simp
  | cons l ls =>
    have hread : readAtoms stop .atom (l :: ls) = .ok as := h
    simpa using readAtoms_literals_iff hread

theorem filterMap_literal?_map (p : Path) : (p.map Atom.literal).filterMap Atom.literal? = p := by
  rw [List.filterMap_map]
  exact List.filterMap_some

theorem eq_map_of_literals (h : ∀ a ∈ as, ¬ a.isWildcard) :
    as = (as.filterMap Atom.literal?).map Atom.literal := by
  induction as with
  | nil => rfl
  | cons a as ih =>
    rw [List.forall_mem_cons] at h
    cases a with
    | literal s => exact congrArg (Atom.literal s :: ·) (ih h.2)
    | star | doubleStar => exact absurd rfl h.1

/-! ### Literals only -/

theorem elementChars_literals (p : Path) :
    elementChars (p.map Element.literal) = p.chars := by
  induction p with
  | nil => rfl
  | cons s p ih =>
    cases p with
    | nil => rfl
    | cons t p =>
      simp only [List.map_cons, elementChars, Path.chars, Element.chars] at ih ⊢
      rw [ih]

theorem bound_literals (p : Path) : Bound (p.map Element.literal) := by
  induction p with
  | nil => exact .nil
  | cons s p ih => exact .literal s ih

theorem covers_literals_iff : Covers (p.map Element.literal) q ↔ p <+: q := by
  constructor
  · intro h
    induction p generalizing q with
    | nil => exact List.nil_prefix
    | cons s p ih =>
      cases h with
      | literal _ h => exact (List.prefix_cons_inj s).2 (ih h)
  · rintro ⟨rest, rfl⟩
    induction p with
    | nil => exact .nil rest
    | cons s p ih => exact .literal s ih

theorem accepts_literals_iff : (⟨p.map Element.literal⟩ : Pattern).accepts q ↔ p <+: q := by
  have hb := bound_literals p
  have hn : NeverGoesBack (p.map Element.literal) := .of_no_anyDepth fun t ht => by
    obtain ⟨s, -, hs⟩ := List.mem_map.1 ht
    cases hs
  rw [accepts_iff, ← covers_literals_iff]
  exact ⟨covers_of_foldlM_pass hb, hn.foldlM_pass hb⟩

end

end Pattern

namespace Path

open Pattern

theorem parse_of_scan {text : String} {ls : List Lexeme} (h : scan text = .ok ls) :
    parse text = match ls.find? (·.sign = .star) with
      | some star => .error (.starInPath star.offset)
      | none => atoms text.toList.length ls >>= fun as => pure (as.filterMap Atom.literal?) := by
  rw [parse, h]
  rfl

/-- Just the texts of atoms without stars are read as paths. -/
theorem parse_eq_ok_iff {text : String} {p : Path} :
    parse text = .ok p ↔ PatternText text.toList (p.map Atom.literal) := by
  have htext : (scanFrom 0 text.toList >>= atoms text.toList.length) = .ok (p.map Atom.literal) ↔
      PatternText text.toList (p.map Atom.literal) := atoms_eq_ok_iff
  rw [← htext]
  cases hscan : scanFrom 0 text.toList with
  | error e =>
    have hparse : parse text = .error e := by
      rw [parse, scan, hscan]
      rfl
    rw [hparse]
    exact ⟨nofun, nofun⟩
  | ok ls =>
    have hatoms : (Except.ok ls >>= atoms text.toList.length) = atoms text.toList.length ls := rfl
    rw [parse_of_scan hscan, hatoms]
    constructor
    · intro h
      split at h
      · cases h
      · next hfind =>
        obtain ⟨as, has, rfl⟩ := bind_pure_eq_ok_iff.1 h
        have hstars : ∀ l ∈ ls, l.sign ≠ .star := by simpa using hfind
        rw [← eq_map_of_literals ((atoms_literals_iff has).2 hstars)]
        exact has
    · intro h
      have hliterals : ∀ a ∈ p.map Atom.literal, ¬ a.isWildcard := by simp [Atom.isWildcard]
      have hfind : ls.find? (·.sign = .star) = none := by
        simpa using (atoms_literals_iff h).1 hliterals
      rw [hfind]
      exact bind_pure_eq_ok_iff.2 ⟨_, h, filterMap_literal?_map p⟩

theorem text_literals (p : Path) : (⟨p.map Element.literal⟩ : Pattern).text = p.text :=
  congrArg String.ofList (elementChars_literals p)

/-- A path that can be written is read back from its text, and as a pattern the text accepts the
paths that begin with it. -/
theorem text_names_location (p : Path) (hp : ∀ s ∈ p, s.IsWritable) :
    parse p.text = .ok p ∧
      ∃ pattern, compile p.text = .ok pattern ∧ ∀ q, pattern.accepts q ↔ p <+: q := by
  have hwritable : ∀ s, .literal s ∈ p.map Element.literal → s.IsWritable := by
    intro s hs
    obtain ⟨s', hs', heq⟩ := List.mem_map.1 hs
    cases heq
    exact hp s hs'
  have hchars : PatternText p.text.toList (p.map Atom.literal) := by
    have htext := patternText_elementChars hwritable
    rwa [elementChars_literals, List.map_map, ← String.toList_ofList (l := p.chars)] at htext
  have hcompile : compile p.text = .ok ⟨p.map Element.literal⟩ := by
    have htext := compile_text (p := ⟨p.map Element.literal⟩) (bound_literals p) hwritable
    rwa [text_literals] at htext
  exact ⟨parse_eq_ok_iff.2 hchars, _, hcompile, fun q => accepts_literals_iff⟩

/-- Names of nothing but special characters, one that ends in a backslash, digits, and one that
looks like a position, around the greatest position. -/
theorem text_names_location_of_special_names :
    let p : Path := [.member "*.@\\", .member "a\\", .index 18446744073709551615, .member "12",
      .member "@3"]
    (∀ s ∈ p, s.IsWritable) ∧
      p.text = "\\*\\.\\@\\\\.a\\\\.@18446744073709551615.12.\\@3" ∧
      parse p.text = .ok p ∧
      ∃ pattern, compile p.text = .ok pattern ∧ ∀ q, pattern.accepts q ↔ p <+: q := by
  intro p
  have hp : ∀ s ∈ p, s.IsWritable := by
    simp [p, Segment.IsWritable, Decimal.wordBound]
  exact ⟨hp, by decide +kernel, text_names_location p hp⟩

end Path
end JsonWalk
