import JsonWalk.Pattern
import Mathlib.Data.List.DropRight

/-!
# The texts of patterns

The grammar of pattern texts and the elements they denote. A text compiles exactly if the grammar
has it, and then to what it denotes: the lexemes of a text lie end to end, and each stage of the
reader goes on just where an atom can.
-/

namespace JsonWalk.Pattern

/-! ### The grammar -/

/-- A text that stands for these characters: special ones are escaped, and any other may be. -/
inductive Escaped : List Char → List Char → Prop
  | nil : Escaped [] []
  | plain {c : Char} {text cs : List Char} : ¬ Segment.isSpecial c → Escaped text cs →
    Escaped (c :: text) (c :: cs)
  | escape (c : Char) {text cs : List Char} : Escaped text cs →
    Escaped ('\\' :: c :: text) (c :: cs)

inductive AtomText : List Char → Atom → Prop
  | star : AtomText ['*'] .star
  | doubleStar : AtomText ['*', '*'] .doubleStar
  | index {text ds : List Char} : Escaped text ds → ds ≠ [] → (∀ d ∈ ds, d.isDigit) →
    Nat.ofDigitChars 10 ds 0 ≤ Nat.pow 2 64 - 1 →
    AtomText ('@' :: text) (.literal (.index (Nat.ofDigitChars 10 ds 0)))
  | name {text cs : List Char} : Escaped text cs → cs ≠ [] →
    AtomText text (.literal (.member (String.ofList cs)))

inductive AtomsText : List Char → List Atom → Prop
  | one {text : List Char} {a : Atom} : AtomText text a → AtomsText text [a]
  | more {text rest : List Char} {a : Atom} {as : List Atom} : AtomText text a →
    AtomsText rest as → AtomsText (text ++ '.' :: rest) (a :: as)

inductive PatternText : List Char → List Atom → Prop
  | empty : PatternText [] []
  | atoms {text : List Char} {as : List Atom} : AtomsText text as → PatternText text as

namespace Atom

def isWildcard : Atom → Bool
  | .literal _ => false
  | .star | .doubleStar => true

def literal? : Atom → Option Segment
  | .literal s => some s
  | .star | .doubleStar => none

end Atom

/-- The elements for atoms in order, with every wildcard bound to the first literal after it. -/
def elementsOf : List Atom → List Element
  | [] => []
  | .literal s :: rest => .literal s :: elementsOf rest
  | .star :: rest => .anyOne (rest.findSome? Atom.literal?) :: elementsOf rest
  | .doubleStar :: rest => .anyDepth (rest.findSome? Atom.literal?) :: elementsOf rest

/-- What atoms denote; wildcards at the end are left out. -/
def denoted (as : List Atom) : List Element := elementsOf (as.rdropWhile Atom.isWildcard)

/-! ### Lexemes -/

theorem bind_pure_eq_ok_iff {ε α β : Type} {m : Except ε α} {f : α → β} {b : β} :
    (m >>= fun a => pure (f a)) = .ok b ↔ ∃ a, m = .ok a ∧ f a = b := by
  cases m <;> simp [Bind.bind, Except.bind, pure, Except.pure]

def Sign.delimiter? : Sign → Option Char
  | .dot => some '.'
  | .mark => some '@'
  | .star => some '*'
  | .name _ => none

/-- What can be written for a sign. -/
def Sign.IsSpelled : Sign → List Char → Prop
  | .dot, word => word = ['.']
  | .mark, word => word = ['@']
  | .star, word => word = ['*']
  | .name cs, word => Escaped word cs ∧ cs ≠ []

/-- A name does not go on behind it. -/
def EndsName (ls : List Lexeme) : Prop := ∀ l ∈ ls.head?, l.sign.kind ≠ .name

/-- The lexemes of a text whose first character stands at an offset. -/
inductive Lexes : Nat → List Char → List Lexeme → Prop
  | nil (o : Nat) : Lexes o [] []
  | dot {o : Nat} {text : List Char} {ls : List Lexeme} : Lexes (o + 1) text ls →
    Lexes o ('.' :: text) (⟨.dot, o⟩ :: ls)
  | mark {o : Nat} {text : List Char} {ls : List Lexeme} : Lexes (o + 1) text ls →
    Lexes o ('@' :: text) (⟨.mark, o⟩ :: ls)
  | star {o : Nat} {text : List Char} {ls : List Lexeme} : Lexes (o + 1) text ls →
    Lexes o ('*' :: text) (⟨.star, o⟩ :: ls)
  | name {o : Nat} {word text cs : List Char} {ls : List Lexeme} : Escaped word cs → cs ≠ [] →
    EndsName ls → Lexes (o + word.length) text ls → Lexes o (word ++ text) (⟨.name cs, o⟩ :: ls)

section

variable {o stop : Nat} {c : Char} {sign : Sign} {word text cs ds : List Char} {ls : List Lexeme}
  {a : Atom} {as : List Atom}

theorem Escaped.append (h : Escaped word cs) (h' : Escaped text ds) :
    Escaped (word ++ text) (cs ++ ds) := by
  induction h with
  | nil => exact h'
  | plain hc _ ih => exact .plain hc ih
  | escape c _ ih => exact .escape c ih

theorem Escaped.eq_nil (h : Escaped word []) : word = [] := by
  cases h
  rfl

theorem endsName_cons {l : Lexeme} (h : l.sign.kind ≠ .name) : EndsName (l :: ls) := by
  rintro _ ⟨⟩
  exact h

theorem Sign.IsSpelled.ne_nil (h : sign.IsSpelled word) : word ≠ [] := by
  cases sign with
  | dot | mark | star =>
    cases h
    exact List.cons_ne_nil _ _
  | name cs =>
    rintro rfl
    obtain ⟨hword, hcs⟩ := h
    cases hword
    exact hcs rfl

theorem Lexes.cons (hword : sign.IsSpelled word) (hends : sign.kind = .name → EndsName ls)
    (h : Lexes (o + word.length) text ls) : Lexes o (word ++ text) (⟨sign, o⟩ :: ls) := by
  cases sign with
  | dot =>
    cases hword
    exact .dot h
  | mark =>
    cases hword
    exact .mark h
  | star =>
    cases hword
    exact .star h
  | name cs => exact .name hword.1 hword.2 (hends rfl) h

/-- Lexemes lie end to end: what holds of none of them, and of any one in front of others if of the
others, holds of all. -/
@[elab_as_elim]
theorem Lexes.induction_on_words {motive : ∀ o text ls, Lexes o text ls → Prop}
    (nil : ∀ o, motive o [] [] (.nil o))
    (cons : ∀ {o sign word text ls} (hword : Sign.IsSpelled sign word)
      (hends : sign.kind = .name → EndsName ls) (h : Lexes (o + word.length) text ls),
      motive _ _ _ h → motive o (word ++ text) (⟨sign, o⟩ :: ls) (h.cons hword hends))
    {o : Nat} {text : List Char} {ls : List Lexeme} (h : Lexes o text ls) : motive o text ls h := by
  induction h with
  | nil o => exact nil o
  | dot h ih =>
    have hword : Sign.dot.IsSpelled ['.'] := rfl
    exact cons hword nofun h ih
  | mark h ih =>
    have hword : Sign.mark.IsSpelled ['@'] := rfl
    exact cons hword nofun h ih
  | star h ih =>
    have hword : Sign.star.IsSpelled ['*'] := rfl
    exact cons hword nofun h ih
  | @name _ word _ cs _ hescaped hcs hends h ih =>
    have hword : (Sign.name cs).IsSpelled word := ⟨hescaped, hcs⟩
    exact cons hword (fun _ => hends) h ih

theorem Lexes.exists_word {l : Lexeme} (h : Lexes o text (l :: ls)) :
    l.offset = o ∧ ∃ word rest, text = word ++ rest ∧ l.sign.IsSpelled word ∧
      (l.sign.kind = .name → EndsName ls) ∧ Lexes (o + word.length) rest ls := by
  cases h with
  | dot h => exact ⟨rfl, ['.'], _, rfl, rfl, nofun, h⟩
  | mark h => exact ⟨rfl, ['@'], _, rfl, rfl, nofun, h⟩
  | star h => exact ⟨rfl, ['*'], _, rfl, rfl, nofun, h⟩
  | name hword hcs hends h => exact ⟨rfl, _, _, rfl, ⟨hword, hcs⟩, fun _ => hends, h⟩

theorem Lexes.glue (hw : Escaped word [c]) (h : Lexes (o + word.length) text ls) :
    Lexes o (word ++ text) (glue c o ls) := by
  have halone (hends : EndsName ls) : Lexes o (word ++ text) (⟨.name [c], o⟩ :: ls) :=
    .name hw (List.cons_ne_nil _ _) hends h
  cases h with
  | nil => exact halone nofun
  | dot => exact halone (endsName_cons nofun)
  | mark => exact halone (endsName_cons nofun)
  | star => exact halone (endsName_cons nofun)
  | @name _ word' text cs ls hw' _ hends h =>
    rw [← List.append_assoc]
    refine .name (hw.append hw') (List.cons_ne_nil _ _) hends ?_
    rwa [List.length_append, ← Nat.add_assoc]

theorem ne_backslash (hlone : c = '\\' → text ≠ [])
    (hescape : ∀ b rest, c = '\\' → text ≠ b :: rest) : c ≠ '\\' := by
  rintro rfl
  cases text with
  | nil => exact hlone rfl rfl
  | cons b rest => exact hescape b rest rfl rfl

theorem lexes_of_scanFrom (h : scanFrom o text = .ok ls) : Lexes o text ls := by
  fun_induction scanFrom o text generalizing ls with
  | case1 o =>
    cases h
    exact .nil o
  | case2 => cases h
  | case3 o c rest ih =>
    obtain ⟨ls', hrest, rfl⟩ := bind_pure_eq_ok_iff.1 h
    exact Lexes.glue (.escape c .nil) (ih hrest)
  | case4 o rest ih =>
    obtain ⟨ls', hrest, rfl⟩ := bind_pure_eq_ok_iff.1 h
    exact .dot (ih hrest)
  | case5 o rest ih =>
    obtain ⟨ls', hrest, rfl⟩ := bind_pure_eq_ok_iff.1 h
    exact .mark (ih hrest)
  | case6 o rest ih =>
    obtain ⟨ls', hrest, rfl⟩ := bind_pure_eq_ok_iff.1 h
    exact .star (ih hrest)
  | case7 o c rest hlone hescape hdot hmark hstar ih =>
    obtain ⟨ls', hrest, rfl⟩ := bind_pure_eq_ok_iff.1 h
    have hplain : ¬ Segment.isSpecial c := by
      simpa [Segment.isSpecial] using ⟨⟨⟨ne_backslash hlone hescape, hdot⟩, hmark⟩, hstar⟩
    exact Lexes.glue (.plain hplain .nil) (ih hrest)

theorem scanFrom_escape (h : scanFrom (o + 2) text = .ok ls) :
    scanFrom o ('\\' :: c :: text) = .ok (glue c o ls) :=
  bind_pure_eq_ok_iff.2 ⟨ls, h, rfl⟩

theorem scanFrom_plain (hc : ¬ Segment.isSpecial c) (h : scanFrom (o + 1) text = .ok ls) :
    scanFrom o (c :: text) = .ok (glue c o ls) := by
  have hspecial : ((c ≠ '\\' ∧ c ≠ '.') ∧ c ≠ '@') ∧ c ≠ '*' := by
    simpa [Segment.isSpecial] using hc
  obtain ⟨⟨⟨hback, hdot⟩, hmark⟩, hstar⟩ := hspecial
  rw [scanFrom.eq_7 _ _ _ (fun h => absurd h hback) (fun _ _ h => absurd h hback) hdot hmark hstar]
  exact bind_pure_eq_ok_iff.2 ⟨ls, h, rfl⟩

theorem glue_of_endsName (h : EndsName ls) : glue c o ls = ⟨.name [c], o⟩ :: ls := by
  match ls with
  | [] | ⟨.dot, _⟩ :: _ | ⟨.mark, _⟩ :: _ | ⟨.star, _⟩ :: _ => rfl
  | ⟨.name _, _⟩ :: _ => exact absurd rfl (h _ rfl)

theorem scanFrom_name (hw : Escaped word cs) (hcs : cs ≠ []) (hends : EndsName ls)
    (h : scanFrom (o + word.length) text = .ok ls) :
    scanFrom o (word ++ text) = .ok (⟨.name cs, o⟩ :: ls) := by
  -- what follows the first character is the rest of the name, or there is none
  have hglue (c : Char) (o o' : Nat) {cs word : List Char} (hw : Escaped word cs)
      (hrest : scanFrom (o' + word.length) text = .ok ls)
      (ih : cs ≠ [] → scanFrom (o' + word.length) text = .ok ls →
        scanFrom o' (word ++ text) = .ok (⟨.name cs, o'⟩ :: ls)) :
      ∃ rest, scanFrom o' (word ++ text) = .ok rest ∧
        glue c o rest = ⟨.name (c :: cs), o⟩ :: ls := by
    cases cs with
    | nil =>
      obtain rfl := hw.eq_nil
      exact ⟨ls, hrest, glue_of_endsName hends⟩
    | cons d cs => exact ⟨_, ih (List.cons_ne_nil _ _) hrest, rfl⟩
  induction hw generalizing o with
  | nil => exact absurd rfl hcs
  | @plain c word cs hc hw ih =>
    obtain ⟨rest, hrest, hname⟩ := hglue c o (o + 1) hw
      (by rwa [Nat.add_assoc, Nat.add_comm 1]) ih
    rw [List.cons_append, scanFrom_plain hc hrest, hname]
  | @escape c word cs hw ih =>
    obtain ⟨rest, hrest, hname⟩ := hglue c o (o + 2) hw
      (by rwa [Nat.add_assoc, Nat.add_comm 2]) ih
    rw [List.cons_append, List.cons_append, scanFrom_escape hrest, hname]

theorem scanFrom_of_lexes (h : Lexes o text ls) : scanFrom o text = .ok ls := by
  induction h with
  | nil => rfl
  | dot _ ih | mark _ ih | star _ ih => exact bind_pure_eq_ok_iff.2 ⟨_, ih, rfl⟩
  | name hw hcs hends _ ih => exact scanFrom_name hw hcs hends ih

theorem scanFrom_eq_ok_iff : scanFrom o text = .ok ls ↔ Lexes o text ls :=
  ⟨lexes_of_scanFrom, scanFrom_of_lexes⟩

/-! ### Atoms -/

/-- What a reader that stands in a stage accepts: what has been read of the atom is put back. -/
def Stage.Reads : Stage → List Char → List Atom → Prop
  | .atom, text, as => AtomsText text as
  | .index, text, as => AtomsText ('@' :: text) as
  | .separator, text, as => text = [] ∧ as = [] ∨ ∃ rest, text = '.' :: rest ∧ AtomsText rest as
  | .star, text, as => AtomsText ('*' :: text) as

theorem AtomText.atoms (ha : AtomText word a) (h : Stage.Reads .separator text as) :
    AtomsText (word ++ text) (a :: as) := by
  rcases h with ⟨rfl, rfl⟩ | ⟨rest, rfl, h⟩
  · rw [List.append_nil]
    exact .one ha
  · exact .more ha h

theorem reads_of_readAtoms {stage : Stage} (hl : Lexes o text ls)
    (h : readAtoms stop stage ls = .ok as) : stage.Reads text as := by
  fun_induction readAtoms stop stage ls generalizing o text as with
  | case1 => cases h
  | case2 => cases h
  | case3 =>
    cases hl
    cases h
    exact .inl ⟨rfl, rfl⟩
  | case4 =>
    cases hl
    cases h
    exact .one .star
  | case5 cs offset rest ih =>
    obtain ⟨as, hrest, rfl⟩ := bind_pure_eq_ok_iff.1 h
    cases hl with
    | name hw hcs _ hl => exact (AtomText.name hw hcs).atoms (ih hl hrest)
  | case6 offset rest ih =>
    cases hl with
    | mark hl => exact ih hl h
  | case7 offset rest ih =>
    cases hl with
    | star hl => exact ih hl h
  | case8 cs o rest position hposition ih =>
    obtain ⟨as, hrest, rfl⟩ := bind_pure_eq_ok_iff.1 h
    cases hl with
    | name hw hcs _ hl =>
      obtain ⟨-, hdigits, hbound, rfl⟩ := Decimal.word?_eq_some_iff.1 hposition
      exact (AtomText.index hw hcs hdigits (Nat.le_sub_one_of_lt hbound)).atoms (ih hl hrest)
  | case9 => cases h
  | case10 offset rest ih =>
    cases hl with
    | dot hl => exact .inr ⟨_, rfl, ih hl h⟩
  | case11 offset rest ih =>
    obtain ⟨as, hrest, rfl⟩ := bind_pure_eq_ok_iff.1 h
    cases hl with
    | dot hl => exact .more .star (ih hl hrest)
  | case12 offset rest ih =>
    obtain ⟨as, hrest, rfl⟩ := bind_pure_eq_ok_iff.1 h
    cases hl with
    | star hl => exact AtomText.doubleStar.atoms (ih hl hrest)
  | case13 => cases h

def EndsAtom (ls : List Lexeme) : Prop := ∀ l ∈ ls.head?, l.sign = .dot

theorem EndsAtom.endsName (h : EndsAtom ls) : EndsName ls := by
  intro l hl hkind
  rw [h l hl] at hkind
  cases hkind

theorem exists_lexes_of_atomText (ha : AtomText word a) (hl : Lexes (o + word.length) text ls)
    (hends : EndsAtom ls) (h : readAtoms stop .separator ls = .ok as) :
    ∃ ls', Lexes o (word ++ text) ls' ∧ readAtoms stop .atom ls' = .ok (a :: as) := by
  cases ha with
  | star =>
    refine ⟨_, .star hl, ?_⟩
    match ls with
    | [] =>
      cases h
      rfl
    | ⟨.dot, _⟩ :: ls => exact bind_pure_eq_ok_iff.2 ⟨as, h, rfl⟩
    | ⟨.mark, _⟩ :: _ | ⟨.star, _⟩ :: _ | ⟨.name _, _⟩ :: _ => cases hends _ rfl
  | doubleStar => exact ⟨_, .star (.star hl), bind_pure_eq_ok_iff.2 ⟨as, h, rfl⟩⟩
  | @index text ds hw hds hdigits hbound =>
    have hword : Decimal.word? ds = some (Nat.ofDigitChars 10 ds 0) :=
      Decimal.word?_eq_some_iff.2 ⟨hds, hdigits, Nat.lt_of_le_sub_one (by decide) hbound, rfl⟩
    refine ⟨_, .mark (.name hw hds hends.endsName ?_), ?_⟩
    · rwa [Nat.add_assoc, Nat.add_comm 1]
    · rw [readAtoms, readAtoms, hword]
      exact bind_pure_eq_ok_iff.2 ⟨as, h, rfl⟩
  | name hw hcs =>
    exact ⟨_, .name hw hcs hends.endsName hl, bind_pure_eq_ok_iff.2 ⟨as, h, rfl⟩⟩

theorem exists_lexes_of_atomsText (o : Nat) (h : AtomsText text as) :
    ∃ ls, Lexes o text ls ∧ readAtoms stop .atom ls = .ok as := by
  induction h generalizing o with
  | @one text a ha =>
    rw [← text.append_nil]
    exact exists_lexes_of_atomText ha (.nil _) nofun rfl
  | @more text rest a as ha _ ih =>
    obtain ⟨ls, hl, hread⟩ := ih (o + text.length + 1)
    exact exists_lexes_of_atomText ha (.dot hl) (by rintro _ ⟨⟩; rfl) hread

theorem AtomsText.ne_nil (h : AtomsText text as) : text ≠ [] := by
  have hatom {word : List Char} {a : Atom} (ha : AtomText word a) : word ≠ [] := by
    cases ha with
    | star | doubleStar | index => exact List.cons_ne_nil _ _
    | name hw hcs =>
      rintro rfl
      cases hw
      exact hcs rfl
  cases h with
  | one ha => exact hatom ha
  | more ha => exact fun h => hatom ha (List.append_eq_nil_iff.1 h).1

/-- A text is read to the end if it is of the grammar, and else not. -/
theorem atoms_eq_ok_iff : (scanFrom 0 text >>= atoms stop) = .ok as ↔ PatternText text as := by
  constructor
  · intro h
    cases hscan : scanFrom 0 text with
    | error e =>
      rw [hscan] at h
      cases h
    | ok ls =>
      have hl := scanFrom_eq_ok_iff.1 hscan
      have hread : atoms stop ls = .ok as := by rwa [hscan] at h
      cases ls with
      | nil =>
        cases hl
        cases hread
        exact .empty
      | cons l ls => exact .atoms (reads_of_readAtoms hl hread)
  · rintro (_ | h)
    · rfl
    · obtain ⟨ls, hl, hread⟩ : ∃ ls, Lexes 0 text ls ∧ readAtoms stop .atom ls = .ok as :=
        exists_lexes_of_atomsText 0 h
      rw [scanFrom_eq_ok_iff.2 hl]
      cases hl with
      | nil => exact absurd rfl h.ne_nil
      | dot | mark | star | name => exact hread

end

/-! ### Elements -/

section

variable {as : List Atom}

theorem rdropWhile_cons {α : Type} (p : α → Bool) (a : α) (l : List α) :
    (a :: l).rdropWhile p = if l.rdropWhile p = [] ∧ p a then [] else a :: l.rdropWhile p := by
  simp only [List.rdropWhile, List.reverse_cons, List.dropWhile_append, List.reverse_eq_nil_iff,
    List.isEmpty_iff]
  by_cases hl : l.reverse.dropWhile p = []
  · by_cases ha : p a <;> simp [hl, ha]
  · simp [hl]

theorem target_elementsOf {e : Element} {es : List Element} (h : elementsOf as = e :: es) :
    e.target = as.findSome? Atom.literal? := by
  match as with
  | .literal s :: rest | .star :: rest | .doubleStar :: rest =>
    cases h
    rfl

/-- A wildcard with nothing behind it goes, and any other is bound to the first literal. -/
theorem bind_eq_denoted (as : List Atom) : bind as = denoted as := by
  induction as with
  | nil => rfl
  | cons a as ih =>
    rw [denoted] at ih
    rw [denoted, rdropWhile_cons]
    generalize as.rdropWhile Atom.isWildcard = kept at ih
    cases a with
    | literal s => rw [bind, ih, if_neg (fun h => Bool.false_ne_true h.2), elementsOf]
    | star | doubleStar =>
      rw [bind, ih]
      cases hkept : elementsOf kept with
      | nil =>
        have hnil : kept = [] := by
          match kept with
          | [] => rfl
        rw [if_pos ⟨hnil, rfl⟩]
        rfl
      | cons e es =>
        have hcons : kept ≠ [] := by
          rintro rfl
          cases hkept
        rw [if_neg (fun h => hcons h.1), elementsOf, ← target_elementsOf hkept, hkept]

end

theorem compile_eq_ok_iff {text : String} {p : Pattern} :
    compile text = .ok p ↔ ∃ as, PatternText text.toList as ∧ ⟨bind as⟩ = p := by
  have hcompile : compile text =
      scanFrom 0 text.toList >>= atoms text.toList.length >>= fun as => pure ⟨bind as⟩ :=
    (bind_assoc ..).symm
  rw [hcompile, bind_pure_eq_ok_iff]
  simp only [atoms_eq_ok_iff]

/-- Just the texts of the grammar compile, each to the elements that its atoms denote. -/
theorem compile_reads_grammar (text : String) (p : Pattern) :
    compile text = .ok p ↔
      ∃ as, PatternText text.toList as ∧ p.elements = denoted as := by
  rw [compile_eq_ok_iff]
  constructor
  · rintro ⟨as, htext, rfl⟩
    exact ⟨as, htext, bind_eq_denoted as⟩
  · rintro ⟨as, htext, hp⟩
    refine ⟨as, htext, ?_⟩
    rw [bind_eq_denoted, ← hp]

end JsonWalk.Pattern
