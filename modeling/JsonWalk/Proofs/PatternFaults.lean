import JsonWalk.Proofs.PatternTexts

/-!
# Where a pattern goes wrong

The reader of a pattern stops at the first lexeme that cannot stand where it does. What is in front
of it can still become a pattern, and with it nothing can: a lexeme is known by its first character,
and a name that is no position does not become one by growing.
-/

namespace JsonWalk

/-- A row that denotes no position does not become one by growing. -/
theorem Decimal.word?_append_eq_none {cs : List Char} (h : word? cs = none) (hne : cs ≠ [])
    (ds : List Char) : word? (cs ++ ds) = none := by
  by_contra hsome
  obtain ⟨n, hn⟩ := Option.ne_none_iff_exists'.1 hsome
  obtain ⟨-, hdigits, hbound, rfl⟩ := word?_eq_some_iff.1 hn
  rw [Nat.ofDigitChars_append] at hbound
  have hword := word?_eq_some_iff.2 ⟨hne, fun c hc => hdigits c (List.mem_append_left ds hc),
    Nat.lt_of_le_of_lt (le_ofDigitChars ds _) hbound, rfl⟩
  cases h.symm.trans hword

namespace Pattern

/-- Some text that compiles begins like this. -/
def Begins (front : List Char) : Prop := ∃ text p, compile text = .ok p ∧ front <+: text.toList

/-- A name in front of this text is at its end. -/
def EndsWord (text : List Char) : Prop := ∀ c ∈ text.head?, c = '.' ∨ c = '@' ∨ c = '*'

def closingBackslashes (text : List Char) : Nat := (text.rtakeWhile (· = '\\')).length

/-- The error is about the first place from which on no way leads to a pattern. A position is
refused as a whole. -/
def PatternError.IsFirstFault (text : List Char) : PatternError → Prop
  | .danglingEscape o => o + 1 = text.length
  | .unexpected _ _ o => Begins (text.take o) ∧ o < text.length ∧ ¬ Begins (text.take (o + 1))
  | .invalidIndex found o =>
    Begins (text.take o) ∧ ∃ word rest, text.drop o = word ++ rest ∧ Escaped word found ∧
      EndsWord rest ∧ ¬ Begins (text.take o ++ word)
  | .unexpectedEnd o => Begins (text.take o) ∧ o = text.length
  | .starInPath _ => False

/-! ### Escapes at the end -/

section

variable {o : Nat} {text front rest word cs : List Char} {ls : List Lexeme} {e : PatternError}

theorem closingBackslashes_append_mod (h : closingBackslashes front % 2 = 0) :
    closingBackslashes (front ++ rest) % 2 = closingBackslashes rest % 2 := by
  simp only [closingBackslashes, List.rtakeWhile, List.length_reverse] at h ⊢
  rw [List.reverse_append, List.takeWhile_append]
  split
  · next hall =>
    rw [List.length_append, hall]
    omega
  · rfl

theorem closingBackslashes_of_ne {c : Char} (hc : c ≠ '\\') (front : List Char) :
    closingBackslashes (front ++ [c]) = 0 := by
  simp [closingBackslashes, List.rtakeWhile, hc]

theorem bind_pure_eq_error_iff {ε α β : Type} {m : Except ε α} {f : α → β} {e : ε} :
    (m >>= fun a => pure (f a)) = .error e ↔ m = .error e := by
  cases m <;> simp [Bind.bind, Except.bind, pure, Except.pure]

/-- Scanning fails only at an escape with nothing behind it. -/
theorem scanFrom_eq_error_iff : scanFrom o text = .error e ↔
    closingBackslashes text % 2 = 1 ∧ e = .danglingEscape (o + text.length - 1) := by
  have hrest (front : List Char) {o : Nat} {rest : List Char}
      (hfront : closingBackslashes front % 2 = 0)
      (ih : scanFrom (o + front.length) rest = .error e ↔ closingBackslashes rest % 2 = 1 ∧
        e = .danglingEscape (o + front.length + rest.length - 1)) (ls : List Lexeme → List Lexeme) :
      (scanFrom (o + front.length) rest >>= fun later => pure (ls later)) = .error e ↔
        closingBackslashes (front ++ rest) % 2 = 1 ∧
          e = .danglingEscape (o + (front ++ rest).length - 1) := by
    rw [bind_pure_eq_error_iff, ih, closingBackslashes_append_mod hfront, List.length_append,
      ← Nat.add_assoc]
  fun_induction scanFrom o text with
  | case1 => simp [closingBackslashes]
  | case2 o => simp [closingBackslashes, List.rtakeWhile, eq_comm]
  | case3 o c rest ih =>
    have hfront : closingBackslashes ['\\', c] % 2 = 0 := by
      by_cases hc : c = '\\'
      · subst hc
        decide
      · exact congrArg (· % 2) (closingBackslashes_of_ne hc ['\\'])
    exact hrest ['\\', c] hfront ih _
  | case4 o rest ih => exact hrest ['.'] (by decide) ih _
  | case5 o rest ih => exact hrest ['@'] (by decide) ih _
  | case6 o rest ih => exact hrest ['*'] (by decide) ih _
  | case7 o c rest hlone hescape hdot hmark hstar ih =>
    have hback : c ≠ '\\' := ne_backslash hlone hescape
    exact hrest [c] (congrArg (· % 2) (closingBackslashes_of_ne hback [])) ih _

theorem exists_lexes_iff : (∃ ls, Lexes o text ls) ↔ closingBackslashes text % 2 = 0 := by
  simp only [← scanFrom_eq_ok_iff]
  constructor
  · rintro ⟨ls, hls⟩
    by_contra hodd
    cases hls.symm.trans (scanFrom_eq_error_iff.2 ⟨by omega, rfl⟩)
  · intro heven
    cases hscan : scanFrom o text with
    | ok ls => exact ⟨ls, rfl⟩
    | error e =>
      obtain ⟨hodd, -⟩ := scanFrom_eq_error_iff.1 hscan
      omega

/-! ### Lexemes of a text in two parts -/

def Joins (before after : List Lexeme) : Prop :=
  ∀ l ∈ before.getLast?, l.sign.kind = .name → EndsName after

theorem Joins.tail {l : Lexeme} {before after : List Lexeme} (h : Joins (l :: before) after) :
    Joins before after := by
  intro l' hl'
  refine h l' ?_
  rw [Option.mem_def] at hl'
  rw [List.getLast?_cons, hl']
  rfl

theorem Lexes.append {before after : List Lexeme} (h : Lexes o front before)
    (hafter : Lexes (o + front.length) rest after) (hjoins : Joins before after) :
    Lexes o (front ++ rest) (before ++ after) := by
  induction h using Lexes.induction_on_words with
  | nil o => exact hafter
  | @cons o sign word front before hword hends _ ih =>
    rw [List.append_assoc]
    refine .cons hword (fun hname => ?_) (ih ?_ hjoins.tail)
    · cases before with
      | nil => exact hjoins _ rfl hname
      | cons l before => exact hends hname
    · rwa [Nat.add_assoc, ← List.length_append]

theorem Lexes.exists_of_append {before after : List Lexeme} (h : Lexes o text (before ++ after)) :
    ∃ front rest, text = front ++ rest ∧ Lexes o front before ∧
      Lexes (o + front.length) rest after ∧ Joins before after := by
  induction before generalizing o text with
  | nil => exact ⟨[], text, rfl, .nil o, h, nofun⟩
  | cons l before ih =>
    obtain ⟨hoffset, word, text, rfl, hword, hends, h⟩ := h.exists_word
    obtain ⟨front, rest, rfl, hfront, hrest, hjoins⟩ := ih h
    obtain ⟨sign, offset⟩ := l
    subst hoffset
    refine ⟨word ++ front, rest, (List.append_assoc ..).symm, .cons hword (fun hname => ?_) hfront,
      ?_, ?_⟩
    · cases before with
      | nil => exact nofun
      | cons l before => exact hends hname
    · rwa [List.length_append, ← Nat.add_assoc]
    · cases before with
      | nil =>
        rintro _ ⟨⟩
        exact hends
      | cons l before => exact fun l' hl' => hjoins l' (by simpa using hl')

theorem Lexes.exists_lexes_behind {before : List Lexeme} (h : Lexes o (front ++ rest) ls)
    (hfront : Lexes o front before) (k : Nat) : ∃ after, Lexes k rest after := by
  have heven := exists_lexes_iff.1 ⟨ls, h⟩
  rw [closingBackslashes_append_mod (exists_lexes_iff.1 ⟨before, hfront⟩)] at heven
  exact exists_lexes_iff.2 heven

def kindOf (c : Char) : LexemeKind :=
  if c = '.' then .dot else if c = '@' then .mark else if c = '*' then .star else .name

theorem endsWord_of_endsName (h : Lexes o rest ls) (hends : EndsName ls) : EndsWord rest := by
  cases h with
  | nil => exact nofun
  | dot =>
    rintro _ ⟨⟩
    exact .inl rfl
  | mark =>
    rintro _ ⟨⟩
    exact .inr (.inl rfl)
  | star =>
    rintro _ ⟨⟩
    exact .inr (.inr rfl)
  | name => exact absurd rfl (hends _ rfl)

theorem Lexes.exists_of_cons {c : Char} (h : Lexes o (c :: rest) ls) :
    ∃ sign later, ls = ⟨sign, o⟩ :: later ∧ sign.kind = kindOf c := by
  generalize htext : c :: rest = text at h
  cases h with
  | nil => cases htext
  | dot | mark | star =>
    cases htext
    exact ⟨_, _, rfl, rfl⟩
  | @name _ word _ cs _ hw hcs _ _ =>
    refine ⟨.name cs, _, rfl, ?_⟩
    cases hw with
    | nil => exact absurd rfl hcs
    | @plain d _ _ hd _ =>
      obtain rfl : c = d := congrArg (·.headD c) htext
      have hspecial : ((c ≠ '\\' ∧ c ≠ '.') ∧ c ≠ '@') ∧ c ≠ '*' := by
        simpa [Segment.isSpecial] using hd
      obtain ⟨⟨⟨-, hdot⟩, hmark⟩, hstar⟩ := hspecial
      rw [kindOf, if_neg hdot, if_neg hmark, if_neg hstar]
      rfl
    | escape d =>
      obtain rfl : c = '\\' := congrArg (·.headD c) htext
      rfl

theorem Lexes.unique {ls' : List Lexeme} (h : Lexes o text ls) (h' : Lexes o text ls') :
    ls = ls' :=
  Except.ok.inj ((scanFrom_of_lexes h).symm.trans (scanFrom_of_lexes h'))

/-- A name that is written in front of a text begins the name that is there. -/
theorem Lexes.exists_of_word {more : List Char} (h : Lexes o (word ++ more) ls)
    (hw : Escaped word cs) (hcs : cs ≠ []) : ∃ ds later, ls = ⟨.name (cs ++ ds), o⟩ :: later := by
  have hword : Lexes o word [⟨.name cs, o⟩] := by
    rw [← word.append_nil]
    exact .name hw hcs nofun (.nil _)
  obtain ⟨after, hafter⟩ := h.exists_lexes_behind hword (o + word.length)
  have halone (hends : EndsName after) :
      ∃ ds later, ls = ⟨.name (cs ++ ds), o⟩ :: later := by
    refine ⟨[], after, ?_⟩
    rw [List.append_nil]
    exact h.unique (.name hw hcs hends hafter)
  cases hafter with
  | nil => exact halone nofun
  | dot => exact halone (endsName_cons nofun)
  | mark => exact halone (endsName_cons nofun)
  | star => exact halone (endsName_cons nofun)
  | @name _ word' rest ds later hw' _ hends hafter =>
    refine ⟨ds, later, ?_⟩
    rw [← List.append_assoc] at h
    refine h.unique (.name (hw.append hw') (List.append_ne_nil_of_left_ne_nil hcs _) hends ?_)
    rwa [List.length_append, ← Nat.add_assoc]

end

/-! ### Stages -/

/-- Where the reader stands behind a lexeme, none if the lexeme cannot stand there. -/
def Stage.next? : Stage → Sign → Option Stage
  | .atom, .name _ | .star, .star => some .separator
  | .atom, .mark => some .index
  | .atom, .star => some .star
  | .index, .name cs => (Decimal.word? cs).map fun _ => .separator
  | .separator, .dot | .star, .dot => some .atom
  | _, _ => none

def Stage.after? (stage : Stage) (ls : List Lexeme) : Option Stage :=
  ls.foldlM (fun stage l => stage.next? l.sign) stage

/-- What is said about a lexeme that cannot stand there. -/
def Stage.refusal : Stage → Lexeme → PatternError
  | .index, ⟨.name cs, o⟩ => .invalidIndex cs o
  | stage, ⟨sign, o⟩ => .unexpected sign.kind stage.expected o

section

variable {o stop : Nat} {stage last : Stage} {l : Lexeme} {before ls : List Lexeme}
  {front : List Char}

theorem readAtoms_of_refused (h : stage.next? l.sign = none) :
    readAtoms stop stage (l :: ls) = .error (stage.refusal l) := by
  obtain ⟨sign, o⟩ := l
  cases stage with
  | atom =>
    cases sign with
    | dot => rfl
    | mark | star | name => cases h
  | index =>
    cases sign with
    | name cs =>
      rw [readAtoms, Option.map_eq_none_iff.1 h]
      rfl
    | dot | mark | star => rfl
  | separator =>
    cases sign with
    | dot => cases h
    | mark | star | name => rfl
  | star =>
    cases sign with
    | dot | star => cases h
    | mark | name => rfl

/-- What the reader makes of a lexeme does not depend on what comes behind it. -/
theorem readAtoms_cons (stop : Nat) (h : stage.next? l.sign = some last) : ∃ as, ∀ ls,
    readAtoms stop stage (l :: ls) = (as ++ ·) <$> readAtoms stop last ls := by
  have hatom (a : Atom) (ls : List Lexeme) :
      (do return a :: (← readAtoms stop last ls)) =
        ([a] ++ ·) <$> readAtoms stop last ls := rfl
  have hnone (ls : List Lexeme) :
      readAtoms stop last ls = ([] ++ ·) <$> readAtoms stop last ls := (id_map _).symm
  obtain ⟨sign, o⟩ := l
  cases stage with
  | atom =>
    cases sign with
    | dot => cases h
    | mark | star =>
      cases h
      exact ⟨[], hnone⟩
    | name cs =>
      cases h
      exact ⟨_, hatom _⟩
  | index =>
    cases sign with
    | dot | mark | star => cases h
    | name cs =>
      obtain ⟨position, hposition, rfl⟩ := Option.map_eq_some_iff.1 h
      refine ⟨[.literal (.index position)], fun ls => ?_⟩
      rw [readAtoms, hposition]
      exact hatom _ ls
  | separator =>
    cases sign with
    | dot =>
      cases h
      exact ⟨[], hnone⟩
    | mark | star | name => cases h
  | star =>
    cases sign with
    | dot | star =>
      cases h
      exact ⟨_, hatom _⟩
    | mark | name => cases h

theorem readAtoms_append (stop : Nat) (h : stage.after? before = some last) : ∃ as, ∀ ls,
    readAtoms stop stage (before ++ ls) = (as ++ ·) <$> readAtoms stop last ls := by
  induction before generalizing stage with
  | nil =>
    cases h
    exact ⟨[], fun ls => (id_map _).symm⟩
  | cons l before ih =>
    rw [Stage.after?, List.foldlM_cons] at h
    obtain ⟨next, hnext, h⟩ := Option.bind_eq_some_iff.1 h
    obtain ⟨as, has⟩ := readAtoms_cons stop hnext
    obtain ⟨bs, hbs⟩ := ih h
    refine ⟨as ++ bs, fun ls => ?_⟩
    rw [List.cons_append, has, hbs, Functor.map_map]
    simp only [List.append_assoc]

theorem exists_of_after?_eq_none (h : stage.after? ls = none) :
    ∃ before l after last, ls = before ++ l :: after ∧ stage.after? before = some last ∧
      last.next? l.sign = none := by
  induction ls generalizing stage with
  | nil => cases h
  | cons l ls ih =>
    cases hnext : stage.next? l.sign with
    | none => exact ⟨[], l, ls, stage, rfl, rfl, hnext⟩
    | some next =>
      have hcons (ls : List Lexeme) : stage.after? (l :: ls) = next.after? ls := by
        rw [Stage.after?, List.foldlM_cons, hnext]
        rfl
      rw [hcons] at h
      obtain ⟨before, l', after, last, rfl, hbefore, hrefused⟩ := ih h
      exact ⟨l :: before, l', after, last, rfl, (hcons before).trans hbefore, hrefused⟩

theorem joins_of_after? {after : List Lexeme} (h : stage.after? before = some last)
    (hlast : last = .atom ∨ last = .index) : Joins before after := by
  intro l hl hkind
  obtain ⟨front, rfl⟩ := List.getLast?_eq_some_iff.1 hl
  rw [Stage.after?, List.foldlM_append] at h
  obtain ⟨prev, -, h⟩ := Option.bind_eq_some_iff.1 h
  obtain ⟨next, hnext, hend⟩ := Option.bind_eq_some_iff.1 h
  cases hend
  obtain ⟨sign, o⟩ := l
  cases sign with
  | dot | mark | star => cases hkind
  | name cs =>
    obtain rfl : last = .separator := by
      cases prev with
      | atom =>
        cases hnext
        rfl
      | index =>
        obtain ⟨-, -, rfl⟩ := Option.map_eq_some_iff.1 hnext
        rfl
      | separator | star => cases hnext
    obtain h | h := hlast <;> cases h

theorem compile_of_lexes {text : String} (h : Lexes 0 text.toList ls) (hne : ls ≠ []) :
    compile text = (fun as => ⟨bind as⟩) <$> readAtoms text.toList.length .atom ls := by
  rw [compile, scan, scanFrom_eq_ok_iff.2 h]
  cases ls with
  | nil => exact absurd rfl hne
  | cons l ls => rfl

theorem compile_of_after? {text : String} (h : Lexes 0 text.toList before)
    (hlast : Stage.atom.after? before = some last) (hend : last = .separator ∨ last = .star) :
    ∃ p, compile text = .ok p := by
  have hne : before ≠ [] := by
    rintro rfl
    cases hlast
    obtain h | h := hend <;> cases h
  obtain ⟨as, has⟩ := readAtoms_append text.toList.length hlast
  have hread := has []
  rw [List.append_nil] at hread
  rw [compile_of_lexes h hne, hread]
  obtain rfl | rfl := hend <;> exact ⟨_, rfl⟩

theorem begins_of_after? (h : Lexes 0 front before)
    (hlast : Stage.atom.after? before = some last) : Begins front := by
  have hcompletes (rest : List Char) (ls : List Lexeme) {next : Stage}
      (hrest : Lexes front.length rest ls) (hjoins : Joins before ls)
      (hnext : last.after? ls = some next) (hend : next = .separator ∨ next = .star) :
      Begins front := by
    have hls : Lexes 0 (String.ofList (front ++ rest)).toList (before ++ ls) := by
      rw [String.toList_ofList]
      exact h.append (by rwa [Nat.zero_add]) hjoins
    have hafter : Stage.atom.after? (before ++ ls) = some next := by
      rw [Stage.after?, List.foldlM_append, ← Stage.after?, hlast]
      exact hnext
    obtain ⟨p, hp⟩ := compile_of_after? hls hafter hend
    exact ⟨_, p, hp, by rw [String.toList_ofList]; exact List.prefix_append front rest⟩
  have hname (c : Char) (hc : ¬ Segment.isSpecial c) :
      Lexes front.length [c] [⟨.name [c], front.length⟩] :=
    .name (.plain hc .nil) (List.cons_ne_nil _ _) nofun (.nil _)
  cases last with
  | atom =>
    exact hcompletes _ _ (hname 'a' (by decide)) (joins_of_after? hlast (.inl rfl)) rfl (.inl rfl)
  | index =>
    exact hcompletes _ _ (hname '0' (by decide)) (joins_of_after? hlast (.inr rfl)) rfl (.inl rfl)
  | separator => exact hcompletes [] [] (.nil _) nofun rfl (.inl rfl)
  | star => exact hcompletes [] [] (.nil _) nofun rfl (.inr rfl)

/-- Where every text that goes on like this has a lexeme next that the reader refuses, none
compiles. -/
theorem not_begins {piece : List Char} (h : Lexes 0 front before)
    (hlast : Stage.atom.after? before = some last)
    (hpiece : ∀ more ls, Lexes front.length (piece ++ more) ls →
      ∃ l later, ls = l :: later ∧ Joins before ls ∧ last.next? l.sign = none) :
    ¬ Begins (front ++ piece) := by
  rintro ⟨text, p, hp, more, htext⟩
  rw [List.append_assoc] at htext
  have hscans : ∃ ls, Lexes 0 (front ++ (piece ++ more)) ls := by
    rw [htext]
    cases hscan : scanFrom 0 text.toList with
    | ok ls => exact ⟨ls, scanFrom_eq_ok_iff.1 hscan⟩
    | error e =>
      rw [compile, scan, hscan] at hp
      cases hp
  obtain ⟨all, hall⟩ := hscans
  obtain ⟨ls, hls⟩ := hall.exists_lexes_behind h front.length
  obtain ⟨l, later, rfl, hjoins, hrefused⟩ := hpiece more ls hls
  have hlexes := h.append (by rwa [Nat.zero_add]) hjoins
  rw [htext] at hlexes
  obtain ⟨as, has⟩ := readAtoms_append text.toList.length hlast
  rw [compile_of_lexes hlexes (by simp), has, readAtoms_of_refused hrefused] at hp
  cases hp

theorem Stage.next?_eq_none_of_kind {sign sign' : Sign} (h : stage.next? sign = none)
    (hkind : sign'.kind = sign.kind) (hword : stage = .index → sign.kind ≠ .name) :
    stage.next? sign' = none := by
  cases stage <;> cases sign <;> cases sign' <;> simp_all [Stage.next?, Sign.kind]

theorem Joins.of_kind {l l' : Lexeme} {later later' : List Lexeme} (h : Joins before (l :: later))
    (hkind : l'.sign.kind = l.sign.kind) : Joins before (l' :: later') := by
  rintro l₀ hl₀ hname _ ⟨⟩
  rw [hkind]
  exact h l₀ hl₀ hname l rfl

section

variable {rest : List Char} {sign : Sign} {later : List Lexeme}

theorem isFirstFault_unexpected (hfront : Lexes 0 front before)
    (hlast : Stage.atom.after? before = some last)
    (hrest : Lexes front.length rest (⟨sign, o⟩ :: later))
    (hjoins : Joins before (⟨sign, o⟩ :: later)) (hrefused : last.next? sign = none)
    (hword : last = .index → sign.kind ≠ .name) (found : LexemeKind)
    (expected : List LexemeKind) :
    (PatternError.unexpected found expected o).IsFirstFault (front ++ rest) := by
  cases rest with
  | nil => cases hrest.unique (.nil _)
  | cons c rest =>
    obtain ⟨_, _, heq, hkind⟩ := hrest.exists_of_cons
    cases heq
    have htake : (front ++ c :: rest).take (front.length + 1) = front ++ [c] := by
      rw [List.take_length_add_append]
      rfl
    refine ⟨?_, by simp, ?_⟩
    · rw [List.take_left]
      exact begins_of_after? hfront hlast
    · rw [htake]
      refine not_begins hfront hlast fun more ls hls => ?_
      obtain ⟨sign', later', rfl, hkind'⟩ := hls.exists_of_cons
      have hsame : sign'.kind = sign.kind := hkind'.trans hkind.symm
      exact ⟨_, _, rfl, hjoins.of_kind hsame, Stage.next?_eq_none_of_kind hrefused hsame hword⟩

theorem isFirstFault_invalidIndex {cs : List Char} (hfront : Lexes 0 front before)
    (hlast : Stage.atom.after? before = some .index)
    (hrest : Lexes front.length rest (⟨.name cs, o⟩ :: later))
    (hjoins : Joins before (⟨.name cs, o⟩ :: later)) (hcs : Decimal.word? cs = none) :
    (PatternError.invalidIndex cs o).IsFirstFault (front ++ rest) := by
  cases hrest with
  | @name _ word rest _ _ hw hne hends hlater =>
    refine ⟨?_, word, rest, List.drop_left, hw, endsWord_of_endsName hlater hends, ?_⟩
    · rw [List.take_left]
      exact begins_of_after? hfront hlast
    · rw [List.take_left]
      refine not_begins hfront hlast fun more ls hls => ?_
      obtain ⟨ds, later', rfl⟩ := hls.exists_of_word hw hne
      refine ⟨_, _, rfl, hjoins.of_kind rfl, ?_⟩
      rw [Stage.next?, Decimal.word?_append_eq_none hcs hne, Option.map_none]

theorem isFirstFault_refusal (hfront : Lexes 0 front before)
    (hlast : Stage.atom.after? before = some last) (hrest : Lexes front.length rest (l :: later))
    (hjoins : Joins before (l :: later)) (hrefused : last.next? l.sign = none) :
    (last.refusal l).IsFirstFault (front ++ rest) ∧ ∀ o, last.refusal l ≠ .danglingEscape o := by
  obtain ⟨sign, o⟩ := l
  by_cases hword : last = .index ∧ sign.kind = .name
  · obtain ⟨rfl, hkind⟩ := hword
    cases sign with
    | name cs =>
      have hcs : Decimal.word? cs = none := Option.map_eq_none_iff.1 hrefused
      exact ⟨isFirstFault_invalidIndex hfront hlast hrest hjoins hcs, nofun⟩
    | dot | mark | star => cases hkind
  · have hrefusal : last.refusal ⟨sign, o⟩ = .unexpected sign.kind last.expected o := by
      cases last with
      | index =>
        cases sign with
        | name => exact absurd ⟨rfl, rfl⟩ hword
        | dot | mark | star => rfl
      | atom | separator | star => rfl
    rw [hrefusal]
    exact ⟨isFirstFault_unexpected hfront hlast hrest hjoins hrefused
      (fun hindex hkind => hword ⟨hindex, hkind⟩) _ _, nofun⟩

end

end

/-- An escape that is left dangling is reported just if the text ends in an odd number of
backslashes, and any other error is about the first fault. -/
theorem compile_error_isFirstFault {text : String} {e : PatternError}
    (h : compile text = .error e) :
    ((∃ o, e = .danglingEscape o) ↔ closingBackslashes text.toList % 2 = 1) ∧
      e.IsFirstFault text.toList := by
  cases hscan : scanFrom 0 text.toList with
  | error e' =>
    obtain rfl : e = e' := by
      rw [compile, scan, hscan] at h
      exact (Except.error.inj h).symm
    obtain ⟨hodd, rfl⟩ := scanFrom_eq_error_iff.1 hscan
    have hne : text.toList.length ≠ 0 := by
      intro hlength
      rw [List.eq_nil_of_length_eq_zero hlength] at hodd
      cases hodd
    refine ⟨iff_of_true ⟨_, rfl⟩ hodd, ?_⟩
    rw [PatternError.IsFirstFault]
    omega
  | ok ls =>
    have hlexes := scanFrom_eq_ok_iff.1 hscan
    have heven := exists_lexes_iff.1 ⟨ls, hlexes⟩
    have hne : ls ≠ [] := by
      rintro rfl
      rw [compile, scan, hscan] at h
      cases h
    rw [compile_of_lexes hlexes hne] at h
    suffices hfault : e.IsFirstFault text.toList ∧ ∀ o, e ≠ .danglingEscape o by
      refine ⟨iff_of_false ?_ (by omega), hfault.1⟩
      rintro ⟨o, rfl⟩
      exact hfault.2 o rfl
    cases hlast : Stage.atom.after? ls with
    | some last =>
      obtain ⟨as, has⟩ := readAtoms_append text.toList.length hlast
      have hread := has []
      rw [List.append_nil] at hread
      rw [hread] at h
      have hbegins := begins_of_after? hlexes hlast
      cases last with
      | atom | index =>
        cases h
        refine ⟨⟨?_, rfl⟩, nofun⟩
        rwa [List.take_length]
      | separator | star => cases h
    | none =>
      obtain ⟨before, l, later, last, rfl, hbefore, hrefused⟩ := exists_of_after?_eq_none hlast
      obtain ⟨front, rest, htext, hfront, hrest, hjoins⟩ := hlexes.exists_of_append
      obtain ⟨as, has⟩ := readAtoms_append text.toList.length hbefore
      rw [has, readAtoms_of_refused hrefused] at h
      cases h
      rw [htext]
      exact isFirstFault_refusal hfront hbefore (by rwa [Nat.zero_add] at hrest) hjoins hrefused

/-- The place of an error is counted in characters, escapes included. -/
theorem compile_error_isFirstFault_behind_escape :
    compile "é\\..*x" = .error (.unexpected .name [.star, .dot] 5) ∧
      Begins "é\\..*".toList ∧ ¬ Begins "é\\..*x".toList ∧
      closingBackslashes "é\\..*x".toList = 0 := by
  have h : compile "é\\..*x" = .error (.unexpected .name [.star, .dot] 5) := by decide +kernel
  have hfront : "é\\..*x".toList.take 5 = "é\\..*".toList := by decide
  have hall : "é\\..*x".toList.take 6 = "é\\..*x".toList := by decide
  obtain ⟨-, hbegins, -, hnone⟩ := compile_error_isFirstFault h
  rw [hfront] at hbegins
  rw [hall] at hnone
  exact ⟨h, hbegins, hnone, by decide⟩

end Pattern
end JsonWalk
