import JsonWalk.Proofs.Feeding
import JsonWalk.Proofs.Numerals
import JsonWalk.Proofs.StringTexts

/-!
# Scanning a text at hand

Over a text at hand the actions of the lexer that take bytes come down to the bytes that are left.
Strings, numbers and words are read exactly where the grammar has them.
-/

namespace JsonWalk.Lexer

open Grammar

def atHand (capacity offset : Nat) (t : List UInt8) (scopes : List Scope) (begun : Bool) : Lexer :=
  ⟨⟨t, [], capacity⟩, offset, scopes, begun⟩

section

variable {capacity offset : Nat} {t r : List UInt8} {scopes : List Scope} {begun : Bool} {b : UInt8}

@[simp] theorem scopes_atHand : (atHand capacity offset t scopes begun).scopes = scopes := rfl

theorem peek_atHand : peek (atHand capacity offset t scopes begun) =
    .ok t.head? (atHand capacity offset t scopes begun) := by
  cases t <;> rfl

theorem advance_atHand : (atHand capacity offset (b :: t) scopes begun).advance =
    atHand capacity (offset + 1) t scopes begun := rfl

theorem nextByte_atHand_cons : nextByte (atHand capacity offset (b :: t) scopes begun) =
    .ok b (atHand capacity (offset + 1) t scopes begun) := rfl

theorem nextByte_atHand_nil : nextByte (atHand capacity offset [] scopes begun) =
    .error (.malformed offset .endOfInput) (atHand capacity offset [] scopes begun) := rfl

end

/-! ### Runs of bytes -/

section

variable {κ : Type} {step : κ → UInt8 → Option κ} {k k' : κ} {t r raw : List UInt8} {b : UInt8}

def run (step : κ → UInt8 → Option κ) : κ → List UInt8 → List UInt8
  | _, [] => []
  | k, b :: t =>
    match step k b with
    | none => []
    | some k => b :: run step k t

def behind (step : κ → UInt8 → Option κ) : κ → List UInt8 → List UInt8
  | _, [] => []
  | k, b :: t =>
    match step k b with
    | none => b :: t
    | some k => behind step k t

theorem run_append_behind (step : κ → UInt8 → Option κ) (k : κ) (t : List UInt8) :
    run step k t ++ behind step k t = t := by
  induction t generalizing k with
  | nil => rfl
  | cons b t ih =>
    rw [run, behind]
    split
    · rfl
    · rw [List.cons_append, ih]

theorem stops_behind (step : κ → UInt8 → Option κ) (k : κ) (t : List UInt8) :
    ∃ k', (run step k t).foldlM step k = some k' ∧
      ∀ b ∈ (behind step k t).head?, step k' b = none := by
  induction t generalizing k with
  | nil => exact ⟨k, rfl, nofun⟩
  | cons b t ih =>
    rw [run, behind]
    cases hk : step k b with
    | none =>
      refine ⟨k, rfl, fun a ha => ?_⟩
      cases ha
      exact hk
    | some l =>
      obtain ⟨k', hrun, hstop⟩ := ih l
      refine ⟨k', ?_, hstop⟩
      rw [List.foldlM_cons, hk]
      exact hrun

theorem run_of_stops (hraw : raw.foldlM step k = some k') (hr : ∀ b ∈ r.head?, step k' b = none) :
    run step k (raw ++ r) = raw ∧ behind step k (raw ++ r) = r := by
  induction raw generalizing k with
  | nil =>
    obtain rfl : k = k' := Option.some.inj hraw
    cases r with
    | nil => exact ⟨rfl, rfl⟩
    | cons b r =>
      have hb : step k b = none := hr b rfl
      rw [List.nil_append, run, behind, hb]
      exact ⟨rfl, rfl⟩
  | cons b raw ih =>
    rw [List.foldlM_cons] at hraw
    obtain ⟨l, hl, hraw⟩ := Option.bind_eq_some_iff.1 hraw
    obtain ⟨hrun, hbehind⟩ := ih hraw
    rw [List.cons_append, run, behind, hl]
    exact ⟨congrArg _ hrun, hbehind⟩

variable {capacity offset : Nat} {scopes : List Scope} {begun : Bool}

theorem takeOnto_of_error {taken : List UInt8} {x y : Lexer} {e : WalkError}
    (h : peek x = .error e y) : takeOnto step k taken x = .error e y := by
  rw [takeOnto]
  split <;> next h' =>
    cases h.symm.trans h' <;> rfl

theorem takeOnto_of_none {taken : List UInt8} {x y : Lexer} (h : peek x = .ok none y) :
    takeOnto step k taken x = .ok taken.reverse y := by
  rw [takeOnto]
  split <;> next h' =>
    cases h.symm.trans h' <;> rfl

theorem takeOnto_of_some {taken : List UInt8} {x y : Lexer} (h : peek x = .ok (some b) y) :
    takeOnto step k taken x = match step k b with
      | none => .ok taken.reverse y
      | some k => takeOnto step k (b :: taken) y.advance := by
  rw [takeOnto]
  split <;> next h' =>
    cases h.symm.trans h' <;> rfl

theorem takeOnto_atHand (taken : List UInt8) :
    takeOnto step k taken (atHand capacity offset t scopes begun) =
      .ok (taken.reverse ++ run step k t)
        (atHand capacity (offset + (run step k t).length) (behind step k t) scopes begun) := by
  induction t generalizing k taken offset with
  | nil =>
    rw [takeOnto_of_none peek_atHand, run, behind, List.append_nil]
    rfl
  | cons b t ih =>
    rw [takeOnto_of_some peek_atHand, run, behind]
    cases step k b with
    | none =>
      rw [List.append_nil]
      rfl
    | some l =>
      simp only [advance_atHand, ih, List.reverse_cons, List.append_assoc, List.length_cons]
      rw [Nat.add_right_comm]
      rfl

theorem takeRun_atHand : takeRun step k (atHand capacity offset t scopes begun) =
    .ok (run step k t)
      (atHand capacity (offset + (run step k t).length) (behind step k t) scopes begun) :=
  takeOnto_atHand []

theorem run_while (p : UInt8 → Bool) (t : List UInt8) :
    run (fun (_ : Unit) b => if p b then some () else none) () t = t.takeWhile p ∧
      behind (fun (_ : Unit) b => if p b then some () else none) () t = t.dropWhile p := by
  induction t with
  | nil => exact ⟨rfl, rfl⟩
  | cons b t ih =>
    rw [run, behind]
    by_cases hb : p b
    · simp only [hb, if_true, ih, List.takeWhile_cons_of_pos, List.dropWhile_cons_of_pos, and_self]
    · simp [hb]

theorem takeWhile_atHand {p : UInt8 → Bool} : takeWhile p (atHand capacity offset t scopes begun) =
    .ok (t.takeWhile p)
      (atHand capacity (offset + (t.takeWhile p).length) (t.dropWhile p) scopes begun) := by
  rw [takeWhile, takeRun_atHand, (run_while p t).1, (run_while p t).2]

/-! ### Blanks -/

theorem skipBlanks_atHand : skipBlanks (atHand capacity offset t scopes begun) =
    .ok () (atHand capacity (offset + (t.takeWhile isBlank).length) (t.dropWhile isBlank) scopes
      begun) := by
  simp only [skipBlanks, bind, EStateM.bind, takeWhile_atHand]
  rfl

theorem blanks_eq : blanks = [0x20, 0x09, 0x0A, 0x0D] := rfl

theorem isBlank_iff : isBlank b ↔ b ∈ blanks := by
  simp [isBlank, blanks_eq, or_assoc]

theorem blanks_dropWhile (t : List UInt8) : Blanks t (t.dropWhile isBlank) := by
  induction t with
  | nil => exact .none []
  | cons b t ih =>
    by_cases hb : isBlank b
    · rw [List.dropWhile_cons_of_pos hb]
      exact .more (isBlank_iff.1 hb) ih
    · rw [List.dropWhile_cons_of_neg hb]
      exact .none _

theorem dropWhile_of_blanks (h : Blanks t r) (hr : ∀ b ∈ r.head?, b ∉ blanks) :
    t.dropWhile isBlank = r := by
  induction h with
  | none t =>
    cases t with
    | nil => rfl
    | cons b t => exact List.dropWhile_cons_of_neg (mt isBlank_iff.1 (hr b rfl))
  | more hb _ ih =>
    rw [List.dropWhile_cons_of_pos (isBlank_iff.2 hb)]
    exact ih hr

theorem dropWhile_of_blanks_cons {b : UInt8} (h : Blanks t (b :: r)) (hb : b ∉ blanks) :
    t.dropWhile isBlank = b :: r := by
  apply dropWhile_of_blanks h
  intro a ha
  cases ha
  exact hb

/-! ### Strings and numbers -/

open StringLiteral (quoteByte)

theorem stringStep_eq_none {escaped : Bool} (h : stringStep escaped b = none) :
    escaped = false ∧ b = quoteByte := by
  cases escaped with
  | true => cases h
  | false =>
    rw [stringStep, if_neg Bool.false_ne_true] at h
    split at h
    · next hb => exact ⟨rfl, hb⟩
    · cases h

/-- Reading a string in full, faults included. -/
theorem readString_atHand_eq :
    readString (atHand capacity offset (quoteByte :: t) scopes begun) =
      let stop := offset + 1 + (run stringStep false t).length
      match behind stringStep false t with
      | [] => .error (.malformed stop .endOfInput) (atHand capacity stop [] scopes begun)
      | _ :: r =>
        match StringLiteral.decode (run stringStep false t) with
        | .ok s => .ok s (atHand capacity (stop + 1) r scopes begun)
        | .error fault =>
          .error (.malformed offset (.invalidString fault))
            (atHand capacity (stop + 1) r scopes begun) := by
  rw [readString, bind_of_ok (by rfl), bind_of_ok nextByte_atHand_cons, bind_of_ok takeRun_atHand]
  cases behind stringStep false t with
  | nil => rfl
  | cons q r =>
    rw [bind_of_ok nextByte_atHand_cons]
    dsimp only
    cases StringLiteral.decode (run stringStep false t) <;> rfl

theorem of_readString_atHand {s : String} {y : Lexer}
    (h : readString (atHand capacity offset (quoteByte :: t) scopes begun) = .ok s y) :
    ∃ offset' r, Quoted (quoteByte :: t) s r ∧ y = atHand capacity offset' r scopes begun := by
  rw [readString_atHand_eq] at h
  obtain ⟨k, hscan, hstop⟩ := stops_behind stringStep false t
  have happend := run_append_behind stringStep false t
  cases hb : behind stringStep false t with
  | nil =>
    rw [hb] at h
    cases h
  | cons q r =>
    rw [hb] at h hstop happend
    obtain ⟨rfl, rfl⟩ := stringStep_eq_none (hstop q rfl)
    dsimp only at h
    split at h
    · next hdecode =>
      cases h
      obtain ⟨text, hraw, htext⟩ := StringLiteral.decode_eq_ok_iff_chars.1 ⟨hscan, hdecode⟩
      refine ⟨_, r, ?_, rfl⟩
      rw [← happend, hraw]
      have := Quoted.mk r htext
      rwa [String.ofList_toList] at this
    · cases h

theorem readString_atHand {s : String} (h : Quoted t s r) :
    ∃ offset', readString (atHand capacity offset t scopes begun) =
      .ok s (atHand capacity offset' r scopes begun) := by
  obtain ⟨r, htext⟩ := h
  rename_i text cs
  have hchars : Chars text (String.ofList cs).toList := by
    rwa [String.toList_ofList]
  obtain ⟨hscan, hdecode⟩ := StringLiteral.decode_eq_ok_iff_chars.2 ⟨text, rfl, hchars⟩
  obtain ⟨hrun, hbehind⟩ := run_of_stops (r := quoteByte :: r) hscan (by rintro _ ⟨⟩; rfl)
  have heq : readString (atHand capacity offset (quoteByte :: (Utf8.encode text ++ quoteByte :: r))
      scopes begun) = _ := readString_atHand_eq
  rw [hbehind, hrun, hdecode] at heq
  exact ⟨_, heq⟩

/-- No number goes on into these bytes. -/
def StopsNumber (r : List UInt8) : Prop := ∀ b ∈ r.head?, ¬ isNumberByte b

def IsNumberChar (c : Char) : Prop := c.toNat < 0x80 ∧ isNumberByte c.toUInt8

theorem isNumberChar_of_isDigit {c : Char} (h : c.isDigit) : IsNumberChar c := by
  have hspec : ∀ n < 0x80, (Char.ofNat n).isDigit → isNumberByte (Char.ofNat n).toUInt8 := by
    decide +kernel
  have hlt : c.toNat < 0x80 := by
    simp only [Char.isDigit, Bool.and_eq_true, decide_eq_true_eq, UInt32.le_iff_toNat_le] at h
    have : c.toNat ≤ 57 := h.2
    omega
  have := hspec c.toNat hlt
  rw [Char.ofNat_toNat] at this
  exact ⟨hlt, this h⟩

theorem isNumberChar_of_literal {l : Numeral} {cs : List Char} (h : Literal l cs) :
    ∀ c ∈ cs, IsNumberChar c := by
  have hdigits {ds : List Char} (h : IsDigits ds) : ∀ c ∈ ds, IsNumberChar c :=
    fun c hc => isNumberChar_of_isDigit (h.2 c hc)
  obtain ⟨negative, hwhole, -, hf, he⟩ := h
  have hsign : ∀ c ∈ (if negative then ['-'] else []), IsNumberChar c := by
    cases negative with
    | true => exact List.forall_mem_singleton.2 ⟨by decide, by decide⟩
    | false => exact nofun
  have hmark {e : Char} (h : e = 'e' ∨ e = 'E') : IsNumberChar e := by
    rcases h with rfl | rfl <;> exact ⟨by decide, by decide⟩
  intro c hc
  rw [List.mem_append, List.mem_append, List.mem_append] at hc
  rcases hc with hc | hc | hc | hc
  · exact hsign c hc
  · exact hdigits hwhole c hc
  · cases hf with
    | none => cases hc
    | some hds => exact List.forall_mem_cons.2 ⟨⟨by decide, by decide⟩, hdigits hds⟩ c hc
  · cases he with
    | none => cases hc
    | unsigned he hds => exact List.forall_mem_cons.2 ⟨hmark he, hdigits hds⟩ c hc
    | plus he hds =>
      exact List.forall_mem_cons.2
        ⟨hmark he, List.forall_mem_cons.2 ⟨⟨by decide, by decide⟩, hdigits hds⟩⟩ c hc
    | minus he hds =>
      exact List.forall_mem_cons.2
        ⟨hmark he, List.forall_mem_cons.2 ⟨⟨by decide, by decide⟩, hdigits hds⟩⟩ c hc

/-- The characters that bytes of a number are. -/
def numberChars (raw : List UInt8) : List Char := raw.map fun b => Char.ofNat b.toNat

theorem encode_numberChars (h : ∀ b ∈ raw, isNumberByte b) :
    Utf8.encode (numberChars raw) = raw := by
  have hspec : ∀ k < 256, isNumberByte (UInt8.ofNat k) →
      String.utf8EncodeChar (Char.ofNat k) = [UInt8.ofNat k] := by
    decide +kernel
  induction raw with
  | nil => rfl
  | cons b raw ih =>
    obtain ⟨hb, hraw⟩ := List.forall_mem_cons.1 h
    have hchar := hspec b.toNat b.toNat_lt
    rw [UInt8.ofNat_toNat] at hchar
    have hcons : numberChars (b :: raw) = Char.ofNat b.toNat :: numberChars raw := rfl
    rw [hcons, Utf8.encode_cons, hchar hb, ih hraw]
    rfl

theorem numberChars_encode {cs : List Char} (h : ∀ c ∈ cs, IsNumberChar c) :
    numberChars (Utf8.encode cs) = cs ∧ ∀ b ∈ Utf8.encode cs, isNumberByte b := by
  rw [StringLiteral.encode_ascii fun c hc => (h c hc).1, numberChars, List.map_map,
    List.forall_mem_map]
  refine ⟨?_, fun c hc => (h c hc).2⟩
  refine (List.map_congr_left fun c hc => ?_).trans (List.map_id cs)
  have hc' : c.toUInt8.toNat = c.toNat := StringLiteral.toNat_ofNat_of_ascii (h c hc).1
  rw [Function.comp_apply, hc', Char.ofNat_toNat]
  rfl

theorem readNumber_atHand_eq : readNumber (atHand capacity offset t scopes begun) =
    let raw := t.takeWhile isNumberByte
    let rest := atHand capacity (offset + raw.length) (t.dropWhile isNumberByte) scopes begun
    match Number.ofLiteral? (numberChars raw) with
    | some n => .ok (.number n) rest
    | none => .error (.malformed offset (.invalidNumber raw)) rest := by
  rw [readNumber, bind_of_ok (by rfl), bind_of_ok takeWhile_atHand]
  dsimp only
  rw [← numberChars]
  cases Number.ofLiteral? (numberChars (t.takeWhile isNumberByte)) <;> rfl

theorem of_readNumber_atHand {u : Token} {y : Lexer}
    (h : readNumber (atHand capacity offset t scopes begun) = .ok u y) :
    ∃ offset' r l cs n, Literal l cs ∧ l.number = some n ∧ t = Utf8.encode cs ++ r ∧
      StopsNumber r ∧ u = .number n ∧
      y = atHand capacity offset' r scopes begun := by
  rw [readNumber_atHand_eq] at h
  dsimp only at h
  split at h
  · next n hn =>
    cases h
    obtain ⟨l, hl, hnumber⟩ := Number.ofLiteral?_eq_some_iff.1 hn
    refine ⟨_, t.dropWhile isNumberByte, l, _, n, hl, hnumber, ?_, ?_, rfl, rfl⟩
    · rw [encode_numberChars (List.all_eq_true.1 List.all_takeWhile),
        List.takeWhile_append_dropWhile]
    · intro b hb
      have := List.head?_dropWhile_not isNumberByte t
      rw [hb] at this
      simpa using this
  · cases h

theorem readNumber_atHand {l : Numeral} {cs : List Char} {n : Number} (hl : Literal l cs)
    (hn : l.number = some n) (hr : StopsNumber r) :
    ∃ offset', readNumber (atHand capacity offset (Utf8.encode cs ++ r) scopes begun) =
      .ok (.number n) (atHand capacity offset' r scopes begun) := by
  obtain ⟨hchars, hbytes⟩ := numberChars_encode (isNumberChar_of_literal hl)
  have htake : (Utf8.encode cs ++ r).takeWhile isNumberByte = Utf8.encode cs := by
    rw [List.takeWhile_append_of_pos hbytes]
    cases r with
    | nil => simp
    | cons b r => rw [List.takeWhile_cons_of_neg (hr b rfl), List.append_nil]
  have hdrop : (Utf8.encode cs ++ r).dropWhile isNumberByte = r := by
    rw [List.dropWhile_append_of_pos hbytes]
    cases r with
    | nil => rfl
    | cons b r => exact List.dropWhile_cons_of_neg (hr b rfl)
  rw [readNumber_atHand_eq, htake, hdrop]
  dsimp only
  rw [hchars, Number.ofLiteral?_eq_some_iff.2 ⟨l, hl, hn⟩]
  exact ⟨_, rfl⟩

/-! ### Words -/

theorem readWord_atHand (start : Nat) (word : List UInt8) (expected : List UInt8) (offset : Nat) :
    readWord start word expected (atHand capacity offset (expected ++ r) scopes begun) =
      .ok () (atHand capacity (offset + expected.length) r scopes begun) := by
  induction expected generalizing offset with
  | nil => rfl
  | cons b expected ih =>
    rw [readWord, List.cons_append, bind_of_ok nextByte_atHand_cons, if_pos rfl, ih]
    simp only [List.length_cons]
    rw [Nat.add_right_comm, Nat.add_assoc]

theorem of_readWord_atHand {start : Nat} {word expected : List UInt8} {y : Lexer} {offset : Nat}
    (h : readWord start word expected (atHand capacity offset t scopes begun) = .ok () y) :
    ∃ offset' r, t = expected ++ r ∧ y = atHand capacity offset' r scopes begun := by
  induction expected generalizing t offset with
  | nil =>
    cases h
    exact ⟨offset, t, rfl, rfl⟩
  | cons b expected ih =>
    cases t with
    | nil =>
      obtain ⟨_, _, h₁, _⟩ := bind_eq_ok_iff.1 h
      rw [nextByte_atHand_nil] at h₁
      cases h₁
    | cons c t =>
      rw [readWord, bind_of_ok nextByte_atHand_cons] at h
      split at h
      · next hc =>
        obtain ⟨offset', r, rfl, rfl⟩ := ih h
        exact ⟨offset', r, by rw [hc]; rfl, rfl⟩
      · cases h

theorem readLiteral_atHand (word : List UInt8) (u : Token) :
    readLiteral word u (atHand capacity offset (word ++ r) scopes begun) =
      .ok u (atHand capacity (offset + word.length) r scopes begun) := by
  rw [readLiteral, bind_of_ok (by rfl), bind_of_ok (readWord_atHand _ _ _ _)]
  rfl

theorem of_readLiteral_atHand {word : List UInt8} {u u' : Token} {y : Lexer}
    (h : readLiteral word u (atHand capacity offset t scopes begun) = .ok u' y) :
    ∃ offset' r, t = word ++ r ∧ u' = u ∧ y = atHand capacity offset' r scopes begun := by
  rw [readLiteral, bind_of_ok (by rfl)] at h
  obtain ⟨_, _, h₁, h₂⟩ := bind_eq_ok_iff.1 h
  obtain ⟨offset', r, rfl, rfl⟩ := of_readWord_atHand h₁
  cases h₂
  exact ⟨offset', r, rfl, rfl, rfl⟩

end

end JsonWalk.Lexer
