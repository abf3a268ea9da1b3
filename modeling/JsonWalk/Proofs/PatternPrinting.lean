import JsonWalk.Proofs.Covering

/-!
# Printed patterns

The printed form of a compiled pattern compiles to the pattern again. Printing puts in escapes,
which reading removes, and leaves out the terminals of wildcards, which follow from the literals
that are printed.
-/

namespace JsonWalk

/-- An atom of a pattern can stand for the segment: a name is not empty, and a position fits
sixty-four bits. -/
def Segment.IsWritable : Segment → Prop
  | .member name => name ≠ ""
  | .index position => position < Decimal.wordBound

namespace Pattern

def Element.atom : Element → Atom
  | .literal s => .literal s
  | .anyOne _ => .star
  | .anyDepth _ => .doubleStar

/-! ### Printed texts are of the grammar -/

section

variable {cs text : List Char} {s : Segment} {e : Element} {es : List Element} {as : List Atom}

theorem Escaped.of_plain (h : ∀ c ∈ cs, ¬ Segment.isSpecial c) : Escaped cs cs := by
  induction cs with
  | nil => exact .nil
  | cons c cs ih =>
    rw [List.forall_mem_cons] at h
    exact .plain h.1 (ih h.2)

theorem escaped_escape (cs : List Char) : Escaped (Segment.escape cs) cs := by
  induction cs with
  | nil => exact .nil
  | cons c cs ih =>
    rw [Segment.escape, List.flatMap_cons]
    by_cases hc : Segment.isSpecial c
    · rw [if_pos hc]
      exact .escape c ih
    · rw [if_neg hc]
      exact .plain hc ih

theorem not_isSpecial_of_isDigit {c : Char} (h : c.isDigit) : ¬ Segment.isSpecial c := by
  intro hc
  simp only [Segment.isSpecial, Bool.or_eq_true, beq_iff_eq] at hc
  obtain ((rfl | rfl) | rfl) | rfl := hc <;> exact absurd h (by decide)

theorem atomText_segment (h : s.IsWritable) : AtomText s.chars (.literal s) := by
  cases s with
  | member name =>
    have hname : name.toList ≠ [] := fun hnil => h (String.toList_eq_nil_iff.1 hnil)
    have hatom := AtomText.name (escaped_escape name.toList) hname
    rwa [String.ofList_toList] at hatom
  | index position =>
    have hdigits : ∀ d ∈ Decimal.digits position, d.isDigit :=
      fun _ => Decimal.isDigit_of_mem_digits
    have hvalue : Nat.ofDigitChars 10 (Decimal.digits position) 0 = position :=
      Nat.ofDigitChars_ten_toDigits
    have hescaped : Escaped (Decimal.digits position) (Decimal.digits position) :=
      .of_plain fun c hc => not_isSpecial_of_isDigit (hdigits c hc)
    have hbound : Nat.ofDigitChars 10 (Decimal.digits position) 0 ≤ Nat.pow 2 64 - 1 := by
      rw [hvalue]
      exact Nat.le_sub_one_of_lt h
    have hatom := AtomText.index hescaped Nat.toDigits_ne_nil hdigits hbound
    rwa [hvalue] at hatom

theorem atomText_element (h : ∀ s, e = .literal s → s.IsWritable) :
    AtomText e.chars e.atom := by
  cases e with
  | literal s => exact atomText_segment (h s rfl)
  | anyOne t => exact .star
  | anyDepth t => exact .doubleStar

theorem patternText_elementChars (h : ∀ s, .literal s ∈ es → s.IsWritable) :
    PatternText (elementChars es) (es.map Element.atom) := by
  cases es with
  | nil => exact .empty
  | cons e es =>
    refine .atoms ?_
    induction es generalizing e with
    | nil =>
      have hatom : AtomText e.chars e.atom :=
        atomText_element fun s hs => h s (hs ▸ List.mem_singleton_self e)
      exact .one hatom
    | cons f es ih =>
      have hatom : AtomText e.chars e.atom :=
        atomText_element fun s hs => h s (hs ▸ List.mem_cons_self)
      exact .more hatom (ih f fun s hs => h s (List.mem_cons_of_mem e hs))

/-! ### Nothing is lost -/

/-- The terminals of wildcards follow from what stands behind them. -/
theorem Bound.bind_atoms (h : Bound es) : bind (es.map Element.atom) = es := by
  induction h with
  | nil => rfl
  | literal s _ ih => exact congrArg (Element.literal s :: ·) ih
  | @anyOne e es _ ih =>
    rw [List.map_cons, Element.atom, bind, ih]
  | @anyDepth e es _ ih =>
    rw [List.map_cons, Element.atom, bind, ih]

/-- Of the atoms only wildcards at the end are gone. -/
theorem map_atom_bind (as : List Atom) : (bind as).map Element.atom <+: as := by
  induction as with
  | nil => exact List.prefix_rfl
  | cons a as ih =>
    cases a with
    | literal s => exact (List.prefix_cons_inj _).2 ih
    | star | doubleStar =>
      rw [bind]
      cases h : bind as with
      | nil => exact List.nil_prefix
      | cons e es =>
        rw [h] at ih
        exact (List.prefix_cons_inj _).2 ih

theorem AtomText.isWritable (h : AtomText text (.literal s)) : s.IsWritable := by
  cases h with
  | index _ _ _ hbound => exact Nat.lt_of_le_sub_one (by decide) hbound
  | name _ hcs => exact fun hname => hcs (String.ofList_eq_empty_iff.1 hname)

theorem AtomsText.isWritable (h : AtomsText text as) (hs : .literal s ∈ as) : s.IsWritable := by
  induction h with
  | one ha =>
    cases List.mem_singleton.1 hs
    exact ha.isWritable
  | more ha _ ih =>
    obtain heq | hrest := List.mem_cons.1 hs
    · cases heq
      exact ha.isWritable
    · exact ih hrest

theorem PatternText.isWritable (h : PatternText text as) (hs : .literal s ∈ as) :
    s.IsWritable := by
  cases h with
  | empty => cases hs
  | atoms h => exact h.isWritable hs

theorem isWritable_of_compile {text : String} {p : Pattern} (h : compile text = .ok p)
    (hs : .literal s ∈ p.elements) : s.IsWritable := by
  obtain ⟨as, htext, rfl⟩ := compile_eq_ok_iff.1 h
  have hatom : Element.atom (.literal s) ∈ (bind as).map Element.atom := List.mem_map_of_mem hs
  exact htext.isWritable ((map_atom_bind as).subset hatom)

end

theorem compile_text {p : Pattern} (hb : Bound p.elements)
    (hw : ∀ s, .literal s ∈ p.elements → s.IsWritable) : compile p.text = .ok p := by
  refine compile_eq_ok_iff.2 ⟨p.elements.map Element.atom, ?_, ?_⟩
  · rw [Pattern.text, String.toList_ofList]
    exact patternText_elementChars hw
  · rw [hb.bind_atoms]

/-- The text of a compiled pattern compiles to the pattern again, so compiled patterns are told
apart by their texts, and compiling and printing once more changes nothing. -/
theorem compile_inverts_text {text : String} {p : Pattern} (h : compile text = .ok p) :
    compile p.text = .ok p ∧
      (∀ text' q, compile text' = .ok q → (p = q ↔ p.text = q.text)) ∧
      (compile p.text).map Pattern.text = .ok p.text := by
  have hcompile {text : String} {p : Pattern} (h : compile text = .ok p) :
      compile p.text = .ok p :=
    compile_text (bound_of_compile h) fun _ => isWritable_of_compile h
  refine ⟨hcompile h, fun text' q hq => ⟨congrArg Pattern.text, fun heq => ?_⟩, ?_⟩
  · have hp := hcompile h
    rw [heq, hcompile hq] at hp
    exact (Except.ok.inj hp).symm
  · rw [hcompile h]
    rfl

/-- Two wildcards in front of names that need escapes, a position with leading zeros, and wildcards
that go nowhere. -/
theorem compile_inverts_text_with_escapes :
    let p : Pattern := ⟨[.anyDepth (some (.member "*a\\")), .anyOne (some (.member "*a\\")),
      .literal (.member "*a\\"), .literal (.index 7)]⟩
    compile "**.*.\\*\\a\\\\.@\\007.*.**" = .ok p ∧ p.text = "**.*.\\*a\\\\.@7" ∧
      compile p.text = .ok p := by
  intro p
  have hp : compile "**.*.\\*\\a\\\\.@\\007.*.**" = .ok p := by decide +kernel
  obtain ⟨hcompile, -, -⟩ := compile_inverts_text hp
  exact ⟨hp, by decide +kernel, hcompile⟩

end Pattern
end JsonWalk
