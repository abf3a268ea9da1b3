import JsonWalk.Proofs.Scanning

/-!
# Tokens of a text at hand

`Reads` says in terms of the grammar which token comes next in which scope, and what is left then.
The lexer reads that token and no other.
-/

namespace JsonWalk.Lexer

open Grammar
open StringLiteral (quoteByte)

variable {capacity offset : Nat} {t r : List UInt8} {scopes : List Scope} {begun : Bool} {b : UInt8}

/-! ### Values -/

/-- The first token of a value, and the scopes it opens. A number ends where its bytes do. -/
inductive Yields : List UInt8 → Token → List UInt8 → List Scope → Prop
  | beginObject (r : List UInt8) : Yields ('\x7b'.toUInt8 :: r) .beginObject r [.emptyObject]
  | beginArray (r : List UInt8) : Yields ('['.toUInt8 :: r) .beginArray r [.emptyArray]
  | string {t r : List UInt8} {s : String} : Quoted t s r → Yields t (.string s) r []
  | null (r : List UInt8) : Yields (ascii "null" ++ r) .null r []
  | true (r : List UInt8) : Yields (ascii "true" ++ r) (.bool true) r []
  | false (r : List UInt8) : Yields (ascii "false" ++ r) (.bool false) r []
  | number {l : Numeral} {cs : List Char} {n : Number} {r : List UInt8} :
    Literal l cs → l.number = some n → StopsNumber r →
      Yields (Utf8.encode cs ++ r) (.number n) r []

theorem of_readValue_atHand {u : Token} {y : Lexer}
    (h : readValue b (atHand capacity offset (b :: t) scopes begun) = .ok u y) :
    ∃ offset' r push, Yields (b :: t) u r push ∧
      y = atHand capacity offset' r (push ++ scopes) begun := by
  unfold readValue at h
  split at h
  · next hb =>
    subst hb
    cases h
    exact ⟨_, t, _, .beginObject t, rfl⟩
  split at h
  · next hb =>
    subst hb
    cases h
    exact ⟨_, t, _, .beginArray t, rfl⟩
  split at h
  · next hb =>
    subst hb
    obtain ⟨s, _, h₁, h₂⟩ := bind_eq_ok_iff.1 h
    obtain ⟨offset', r, hq, rfl⟩ := of_readString_atHand h₁
    cases h₂
    exact ⟨offset', r, [], .string hq, rfl⟩
  split at h
  · obtain ⟨offset', r, ht, rfl, rfl⟩ := of_readLiteral_atHand h
    rw [ht]
    exact ⟨offset', r, [], .true r, rfl⟩
  split at h
  · obtain ⟨offset', r, ht, rfl, rfl⟩ := of_readLiteral_atHand h
    rw [ht]
    exact ⟨offset', r, [], .false r, rfl⟩
  split at h
  · obtain ⟨offset', r, ht, rfl, rfl⟩ := of_readLiteral_atHand h
    rw [ht]
    exact ⟨offset', r, [], .null r, rfl⟩
  split at h
  · obtain ⟨offset', r, l, cs, n, hl, hn, ht, hr, rfl, rfl⟩ := of_readNumber_atHand h
    rw [ht]
    exact ⟨offset', r, [], .number hl hn hr, rfl⟩
  · cases h

theorem readValue_of_number {c : Char} (h : c = '-' ∨ c.isDigit) :
    readValue c.toUInt8 = readNumber := by
  have hspec : ∀ n < 0x80, Char.ofNat n = '-' ∨ (Char.ofNat n).isDigit →
      let b := (Char.ofNat n).toUInt8
      b ≠ 0x7B ∧ b ≠ 0x5B ∧ b ≠ quoteByte ∧ b ≠ 0x74 ∧ b ≠ 0x66 ∧ b ≠ 0x6E ∧
        (b = 0x2D ∨ 0x30 ≤ b ∧ b ≤ 0x39) := by
    decide +kernel
  have hlt : c.toNat < 0x80 := by
    rcases h with rfl | h
    · decide
    · exact (isNumberChar_of_isDigit h).1
  have hb := hspec c.toNat hlt
  rw [Char.ofNat_toNat] at hb
  obtain ⟨h₁, h₂, h₃, h₄, h₅, h₆, h₇⟩ := hb h
  rw [readValue, if_neg h₁, if_neg h₂, if_neg h₃, if_neg h₄, if_neg h₅, if_neg h₆, if_pos h₇]

theorem exists_head_of_literal {l : Numeral} {cs : List Char} (h : Literal l cs) :
    ∃ c cs', cs = c :: cs' ∧ (c = '-' ∨ c.isDigit) := by
  obtain ⟨negative, hwhole, -, -, -⟩ := h
  cases negative with
  | true => exact ⟨'-', _, rfl, .inl rfl⟩
  | false =>
    obtain ⟨c, whole, rfl⟩ := List.exists_cons_of_ne_nil hwhole.1
    exact ⟨c, _, rfl, .inr (hwhole.2 c List.mem_cons_self)⟩

theorem readValue_atHand {u : Token} {push : List Scope} (h : Yields t u r push) :
    ∃ b t', t = b :: t' ∧ ∀ capacity offset scopes begun, ∃ offset',
      readValue b (atHand capacity offset t scopes begun) =
        .ok u (atHand capacity offset' r (push ++ scopes) begun) := by
  cases h with
  | beginObject => exact ⟨_, _, rfl, fun _ _ _ _ => ⟨_, rfl⟩⟩
  | beginArray => exact ⟨_, _, rfl, fun _ _ _ _ => ⟨_, rfl⟩⟩
  | string hq =>
    have hvalue : readValue quoteByte = readString >>= fun s => pure (.string s) := rfl
    refine ⟨quoteByte, t.tail, ?_, fun capacity offset scopes begun => ?_⟩
    · cases hq
      rfl
    · obtain ⟨offset', hread⟩ : ∃ offset', readString (atHand capacity offset t scopes begun) = _ :=
        readString_atHand hq
      rw [hvalue, bind_of_ok hread]
      exact ⟨offset', rfl⟩
  | null => exact ⟨_, _, rfl, fun _ _ _ _ => ⟨_, readLiteral_atHand (ascii "null") _⟩⟩
  | true => exact ⟨_, _, rfl, fun _ _ _ _ => ⟨_, readLiteral_atHand (ascii "true") _⟩⟩
  | false => exact ⟨_, _, rfl, fun _ _ _ _ => ⟨_, readLiteral_atHand (ascii "false") _⟩⟩
  | @number l cs n _ hl hn hr =>
    obtain ⟨c, cs, rfl, hc⟩ := exists_head_of_literal hl
    have hascii := isNumberChar_of_literal hl c List.mem_cons_self
    refine ⟨c.toUInt8, Utf8.encode cs ++ r, ?_, fun capacity offset scopes begun => ?_⟩
    · rw [Utf8.encode_cons, Utf8.encodeChar_of_ascii hascii.1]
      rfl
    · rw [readValue_of_number hc]
      exact readNumber_atHand hl hn hr

/-! ### Tokens -/

/-- What must stand in front of a value, by the scopes, and the scopes then. -/
inductive Leads : List UInt8 → List Scope → Bool → List UInt8 → List Scope → Prop
  | document {t r : List UInt8} : Blanks t r → Leads t [] false r []
  | firstItem {t r : List UInt8} {scopes : List Scope} : Blanks t r →
    Leads t (.emptyArray :: scopes) true r (.array :: scopes)
  | nextItem {t t' r : List UInt8} {scopes : List Scope} :
    Blanks t (','.toUInt8 :: t') → Blanks t' r →
      Leads t (.array :: scopes) true r (.array :: scopes)
  | memberValue {t t' r : List UInt8} {scopes : List Scope} :
    Blanks t (':'.toUInt8 :: t') → Blanks t' r →
      Leads t (.member :: scopes) true r (.object :: scopes)

inductive Reads : List UInt8 → List Scope → Bool → Token → List UInt8 → List Scope → Bool → Prop
  | endOfInput {t : List UInt8} (begun : Bool) : Blanks t [] →
    Reads t [] begun .endOfInput [] [] begun
  | value {t t' r : List UInt8} {scopes scopes' push : List Scope} {begun : Bool} {u : Token} :
    Leads t scopes begun t' scopes' → Yields t' u r push →
      Reads t scopes begun u r (push ++ scopes') true
  | firstName {t t' r : List UInt8} {scopes : List Scope} {name : String} :
    Blanks t t' → Quoted t' name r →
      Reads t (.emptyObject :: scopes) true (.name name) r (.member :: scopes) true
  | nextName {t t₁ t₂ r : List UInt8} {scopes : List Scope} {name : String} :
    Blanks t (','.toUInt8 :: t₁) → Blanks t₁ t₂ → Quoted t₂ name r →
      Reads t (.object :: scopes) true (.name name) r (.member :: scopes) true
  | endArray {t r : List UInt8} {scope : Scope} {scopes : List Scope} :
    scope = .emptyArray ∨ scope = .array → Blanks t (']'.toUInt8 :: r) →
      Reads t (scope :: scopes) true .endArray r scopes true
  | endObject {t r : List UInt8} {scope : Scope} {scopes : List Scope} :
    scope = .emptyObject ∨ scope = .object → Blanks t ('\x7d'.toUInt8 :: r) →
      Reads t (scope :: scopes) true .endObject r scopes true

theorem next_of_blanks (h : Blanks t (b :: r)) (hb : b ∉ blanks) :
    ∃ offset', next (atHand capacity offset t scopes begun) =
      readToken b (atHand capacity offset' (b :: r) scopes begun) := by
  rw [next, bind_of_ok skipBlanks_atHand, dropWhile_of_blanks_cons h hb, bind_of_ok peek_atHand]
  exact ⟨_, rfl⟩

theorem next_of_blank (h : Blanks t []) : ∃ offset', next (atHand capacity offset t [] begun) =
    .ok .endOfInput (atHand capacity offset' [] [] begun) := by
  rw [next, bind_of_ok skipBlanks_atHand, dropWhile_of_blanks h nofun, bind_of_ok peek_atHand]
  exact ⟨_, rfl⟩

theorem of_expectMore_atHand {y : Lexer}
    (h : expectMore (atHand capacity offset t scopes begun) = .ok b y) :
    ∃ offset' r, Blanks t (b :: r) ∧ y = atHand capacity offset' (b :: r) scopes begun := by
  have hblanks := blanks_dropWhile t
  rw [expectMore, bind_of_ok skipBlanks_atHand, bind_of_ok peek_atHand] at h
  cases ht : t.dropWhile isBlank with
  | nil =>
    rw [ht] at h
    cases h
  | cons a r =>
    rw [ht] at h hblanks
    cases h
    exact ⟨_, r, hblanks, rfl⟩

theorem of_expectValue_atHand {u : Token} {y : Lexer}
    (h : (expectMore >>= readValue) (atHand capacity offset t scopes begun) = .ok u y) :
    ∃ offset' t' r push, Blanks t t' ∧ Yields t' u r push ∧
      y = atHand capacity offset' r (push ++ scopes) begun := by
  obtain ⟨b, _, h₁, h₂⟩ := bind_eq_ok_iff.1 h
  obtain ⟨_, t', hblanks, rfl⟩ := of_expectMore_atHand h₁
  obtain ⟨offset', r, push, hr, rfl⟩ := of_readValue_atHand h₂
  exact ⟨offset', b :: t', r, push, hblanks, hr, rfl⟩

theorem expectMore_atHand (h : Blanks t (b :: r)) (hb : b ∉ blanks) :
    ∃ offset', expectMore (atHand capacity offset t scopes begun) =
      .ok b (atHand capacity offset' (b :: r) scopes begun) := by
  rw [expectMore, bind_of_ok skipBlanks_atHand, dropWhile_of_blanks_cons h hb,
    bind_of_ok peek_atHand]
  exact ⟨_, rfl⟩

theorem of_readName_atHand {u : Token} {y : Lexer} {scope : Scope}
    (h : readName b (atHand capacity offset (b :: t) (scope :: scopes) begun) = .ok u y) :
    ∃ offset' r name, Quoted (b :: t) name r ∧ u = .name name ∧
      y = atHand capacity offset' r (.member :: scopes) begun := by
  unfold readName at h
  split at h
  · next hb =>
    subst hb
    obtain ⟨name, _, h₁, h₂⟩ := bind_eq_ok_iff.1 h
    obtain ⟨offset', r, hq, rfl⟩ := of_readString_atHand h₁
    cases h₂
    exact ⟨offset', r, name, hq, rfl, rfl⟩
  · cases h

theorem readName_atHand {name : String} {scope : Scope} (h : Quoted t name r) :
    ∃ offset', readName quoteByte (atHand capacity offset t (scope :: scopes) begun) =
      .ok (.name name) (atHand capacity offset' r (.member :: scopes) begun) := by
  obtain ⟨offset', hread⟩ : ∃ offset', readString (atHand capacity offset t (scope :: scopes)
    begun) = _ := readString_atHand h
  have hname : readName quoteByte = readString >>= fun name => setScope .member >>= fun _ =>
    pure (.name name) := rfl
  rw [hname, bind_of_ok hread]
  exact ⟨offset', rfl⟩

/-- What the byte in front of the others comes to in each scope. It is refused, or it closes a
container, or the rest of the token is read. -/
inductive TokenBegins (capacity offset : Nat) (t : List UInt8) :
    UInt8 → List Scope → Bool → EStateM.Result WalkError Lexer Token → Prop
  | refused {b : UInt8} {scopes : List Scope} {begun : Bool} {fault : TextFault} :
    fault ≠ .endOfInput → TokenBegins capacity offset t b scopes begun
      (.error (.malformed offset fault) (atHand capacity offset (b :: t) scopes begun))
  | document (b : UInt8) : TokenBegins capacity offset t b [] false
      (readValue b (atHand capacity offset (b :: t) [] true))
  | firstItem (b : UInt8) (scopes : List Scope) :
    TokenBegins capacity offset t b (.emptyArray :: scopes) true
      (readValue b (atHand capacity offset (b :: t) (.array :: scopes) true))
  | nextItem (scopes : List Scope) :
    TokenBegins capacity offset t ','.toUInt8 (.array :: scopes) true
      ((expectMore >>= readValue) (atHand capacity (offset + 1) t (.array :: scopes) true))
  | firstName (b : UInt8) (scopes : List Scope) :
    TokenBegins capacity offset t b (.emptyObject :: scopes) true
      (readName b (atHand capacity offset (b :: t) (.emptyObject :: scopes) true))
  | nextName (scopes : List Scope) :
    TokenBegins capacity offset t ','.toUInt8 (.object :: scopes) true
      ((expectMore >>= readName) (atHand capacity (offset + 1) t (.object :: scopes) true))
  | memberValue (scopes : List Scope) :
    TokenBegins capacity offset t ':'.toUInt8 (.member :: scopes) true
      ((expectMore >>= readValue) (atHand capacity (offset + 1) t (.object :: scopes) true))
  | endArray {scope : Scope} (scopes : List Scope) : scope = .emptyArray ∨ scope = .array →
    TokenBegins capacity offset t ']'.toUInt8 (scope :: scopes) true
      (.ok .endArray (atHand capacity (offset + 1) t scopes true))
  | endObject {scope : Scope} (scopes : List Scope) : scope = .emptyObject ∨ scope = .object →
    TokenBegins capacity offset t '\x7d'.toUInt8 (scope :: scopes) true
      (.ok .endObject (atHand capacity (offset + 1) t scopes true))

theorem tokenBegins_readToken (hbegun : scopes ≠ [] → begun = true) :
    TokenBegins capacity offset t b scopes begun
      (readToken b (atHand capacity offset (b :: t) scopes begun)) := by
  rw [readToken, bind_of_ok (by rfl)]
  match scopes with
  | [] =>
    cases begun with
    | true => exact .refused (by simp)
    | false => exact .document b
  | .emptyArray :: scopes =>
    obtain rfl := hbegun (List.cons_ne_nil _ _)
    simp only [scopes_atHand]
    split
    · next hb =>
      subst hb
      exact .endArray scopes (.inl rfl)
    · exact .firstItem b scopes
  | .array :: scopes =>
    obtain rfl := hbegun (List.cons_ne_nil _ _)
    simp only [scopes_atHand]
    split
    · next hb =>
      subst hb
      exact .endArray scopes (.inr rfl)
    split
    · next hb =>
      subst hb
      rw [bind_of_ok nextByte_atHand_cons]
      exact .nextItem scopes
    · exact .refused (by simp)
  | .emptyObject :: scopes =>
    obtain rfl := hbegun (List.cons_ne_nil _ _)
    simp only [scopes_atHand]
    split
    · next hb =>
      subst hb
      exact .endObject scopes (.inl rfl)
    · exact .firstName b scopes
  | .object :: scopes =>
    obtain rfl := hbegun (List.cons_ne_nil _ _)
    simp only [scopes_atHand]
    split
    · next hb =>
      subst hb
      exact .endObject scopes (.inr rfl)
    split
    · next hb =>
      subst hb
      rw [bind_of_ok nextByte_atHand_cons]
      exact .nextName scopes
    · exact .refused (by simp)
  | .member :: scopes =>
    obtain rfl := hbegun (List.cons_ne_nil _ _)
    simp only [scopes_atHand]
    split
    · next hb =>
      subst hb
      rw [bind_of_ok nextByte_atHand_cons]
      exact .memberValue scopes
    · exact .refused (by simp)

theorem of_readToken_atHand {t' : List UInt8} {u : Token} {y : Lexer} (ht : Blanks t (b :: t'))
    (hbegun : scopes ≠ [] → begun = true)
    (h : readToken b (atHand capacity offset (b :: t') scopes begun) = .ok u y) :
    ∃ offset' r scopes' begun', Reads t scopes begun u r scopes' begun' ∧
      y = atHand capacity offset' r scopes' begun' := by
  have hbegins : TokenBegins capacity offset t' b scopes begun _ := tokenBegins_readToken hbegun
  generalize readToken b (atHand capacity offset (b :: t') scopes begun) = result at h hbegins
  cases hbegins with
  | refused _ => cases h
  | document b =>
    obtain ⟨offset', r, push, hr, rfl⟩ := of_readValue_atHand h
    exact ⟨offset', r, _, _, .value (.document ht) hr, rfl⟩
  | firstItem b scopes =>
    obtain ⟨offset', r, push, hr, rfl⟩ := of_readValue_atHand h
    exact ⟨offset', r, _, _, .value (.firstItem ht) hr, rfl⟩
  | nextItem scopes =>
    obtain ⟨offset', _, r, push, hblanks, hr, rfl⟩ := of_expectValue_atHand h
    exact ⟨offset', r, _, _, .value (.nextItem ht hblanks) hr, rfl⟩
  | firstName b scopes =>
    obtain ⟨offset', r, name, hq, rfl, rfl⟩ := of_readName_atHand h
    exact ⟨offset', r, _, _, .firstName ht hq, rfl⟩
  | nextName scopes =>
    obtain ⟨b, _, h₁, h₂⟩ := bind_eq_ok_iff.1 h
    obtain ⟨_, t₂, hblanks, rfl⟩ := of_expectMore_atHand h₁
    obtain ⟨offset', r, name, hq, rfl, rfl⟩ := of_readName_atHand h₂
    exact ⟨offset', r, _, _, .nextName ht hblanks hq, rfl⟩
  | memberValue scopes =>
    obtain ⟨offset', _, r, push, hblanks, hr, rfl⟩ := of_expectValue_atHand h
    exact ⟨offset', r, _, _, .value (.memberValue ht hblanks) hr, rfl⟩
  | endArray scopes hscope =>
    cases h
    exact ⟨_, t', scopes, true, .endArray hscope ht, rfl⟩
  | endObject scopes hscope =>
    cases h
    exact ⟨_, t', scopes, true, .endObject hscope ht, rfl⟩

theorem of_next_atHand {u : Token} {y : Lexer} (hbegun : scopes ≠ [] → begun = true)
    (h : next (atHand capacity offset t scopes begun) = .ok u y) :
    ∃ offset' r scopes' begun', Reads t scopes begun u r scopes' begun' ∧
      y = atHand capacity offset' r scopes' begun' := by
  have hblanks := blanks_dropWhile t
  rw [next, bind_of_ok skipBlanks_atHand, bind_of_ok peek_atHand] at h
  cases ht : t.dropWhile isBlank with
  | nil =>
    rw [ht] at h hblanks
    match scopes with
    | [] =>
      cases h
      exact ⟨_, [], [], begun, .endOfInput begun hblanks, rfl⟩
    | _ :: _ => cases h
  | cons b t' =>
    rw [ht] at h hblanks
    exact of_readToken_atHand hblanks hbegun h

theorem readValue_ne_ok (hb : b ∈ 0x5D :: blanks) (x : Lexer) (u : Token) (y : Lexer) :
    readValue b x ≠ .ok u y := by
  rw [blanks_eq] at hb
  simp only [List.mem_cons, List.not_mem_nil, or_false] at hb
  rcases hb with rfl | rfl | rfl | rfl | rfl <;> exact nofun

/-- A value begins with a byte that neither is blank nor closes an array. -/
theorem exists_head_of_yields {u : Token} {push : List Scope} (h : Yields t u r push) :
    ∃ b t', t = b :: t' ∧ b ∉ blanks ∧ b ≠ 0x5D ∧
      ∀ capacity offset scopes begun, ∃ offset',
        readValue b (atHand capacity offset t scopes begun) =
          .ok u (atHand capacity offset' r (push ++ scopes) begun) := by
  obtain ⟨b, t', rfl, hread⟩ := readValue_atHand h
  have hb : b ∉ 0x5D :: blanks := by
    intro hb
    obtain ⟨_, hok⟩ := hread 0 0 [] false
    exact readValue_ne_ok hb _ _ _ hok
  rw [List.mem_cons, not_or] at hb
  exact ⟨b, t', rfl, hb.2, hb.1, hread⟩

theorem exists_cons_of_quoted {s : String} (h : Quoted t s r) : ∃ t', t = quoteByte :: t' := by
  cases h
  exact ⟨_, rfl⟩

theorem next_atHand {u : Token} {scopes' : List Scope} {begun' : Bool}
    (h : Reads t scopes begun u r scopes' begun') :
    ∃ offset', next (atHand capacity offset t scopes begun) =
      .ok u (atHand capacity offset' r scopes' begun') := by
  cases h with
  | endOfInput _ ht => exact next_of_blank ht
  | value hlead hyields =>
    obtain ⟨b, t', rfl, hblank, hclose, hread⟩ := exists_head_of_yields hyields
    cases hlead with
    | document ht =>
      obtain ⟨offset₁, hnext⟩ := next_of_blanks ht hblank
      obtain ⟨offset', hread⟩ := hread capacity offset₁ [] true
      exact ⟨offset', hnext.trans hread⟩
    | @firstItem _ scopes ht =>
      obtain ⟨offset₁, hnext⟩ := next_of_blanks ht hblank
      obtain ⟨offset', hread⟩ := hread capacity offset₁ (.array :: scopes) true
      refine ⟨offset', (hnext.trans ?_).trans hread⟩
      rw [readToken, bind_of_ok (by rfl)]
      simp only [scopes_atHand]
      rw [if_neg hclose]
      rfl
    | @nextItem _ _ scopes ht hmore =>
      obtain ⟨offset₁, hnext⟩ := next_of_blanks ht (by decide)
      obtain ⟨offset₂, hexpect⟩ := expectMore_atHand hmore hblank
      obtain ⟨offset', hread⟩ := hread capacity offset₂ (.array :: scopes) true
      refine ⟨offset', (hnext.trans ?_).trans hread⟩
      exact bind_of_ok hexpect
    | @memberValue _ _ scopes ht hmore =>
      obtain ⟨offset₁, hnext⟩ := next_of_blanks ht (by decide)
      obtain ⟨offset₂, hexpect⟩ := expectMore_atHand hmore hblank
      obtain ⟨offset', hread⟩ := hread capacity offset₂ (.object :: scopes) true
      refine ⟨offset', (hnext.trans ?_).trans hread⟩
      exact bind_of_ok hexpect
  | firstName ht hq =>
    obtain ⟨t', rfl⟩ := exists_cons_of_quoted hq
    obtain ⟨offset₁, hnext⟩ := next_of_blanks ht (by decide)
    obtain ⟨offset', hread⟩ := readName_atHand hq
    exact ⟨offset', hnext.trans hread⟩
  | nextName ht hmore hq =>
    obtain ⟨t', rfl⟩ := exists_cons_of_quoted hq
    obtain ⟨offset₁, hnext⟩ := next_of_blanks ht (by decide)
    obtain ⟨offset₂, hexpect⟩ := expectMore_atHand hmore (by decide)
    obtain ⟨offset', hread⟩ := readName_atHand hq
    refine ⟨offset', (hnext.trans ?_).trans hread⟩
    exact bind_of_ok hexpect
  | endArray hscope ht =>
    rcases hscope with rfl | rfl
    all_goals
      obtain ⟨offset', hnext⟩ := next_of_blanks ht (by decide)
      exact ⟨offset' + 1, hnext⟩
  | endObject hscope ht =>
    rcases hscope with rfl | rfl
    all_goals
      obtain ⟨offset', hnext⟩ := next_of_blanks ht (by decide)
      exact ⟨offset' + 1, hnext⟩

end JsonWalk.Lexer
