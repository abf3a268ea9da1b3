import JsonWalk.Proofs.Buffering

/-!
# Spellings of a string

One string can be written in many ways, and a reader can hand out each of them in many ways. The
lexer finds the closing quote without a look at what the escapes stand for, and decodes afterwards;
still all spellings come to the same string, and nothing behind the closing quote is touched, not
even a failure of the reader.
-/

namespace JsonWalk.StringLiteral

theorem scan_of_notMem {raw : List UInt8} (hescape : escapeByte ∉ raw) (hquote : quoteByte ∉ raw) :
    scan false raw = some false := by
  induction raw with
  | nil => rfl
  | cons b raw ih =>
    rw [List.mem_cons, not_or] at hescape hquote
    rw [scan_cons_of_plain (Ne.symm hquote.1) (Ne.symm hescape.1)]
    exact ih hescape.2 hquote.2

theorem decodePlain_eq_ok_iff_decodeEscaped {raw : List UInt8} (hescape : escapeByte ∉ raw)
    (hquote : quoteByte ∉ raw) (s : String) :
    decodePlain raw = .ok s ↔ decodeEscaped raw = .ok s := by
  have hscan := scan_of_notMem hescape hquote
  rw [decodePlain_eq_ok_iff, decodeEscaped_eq_ok_iff hscan]
  constructor
  · rintro ⟨hplain, heq⟩
    rw [← heq]
    exact pieces_of_plain hscan hescape hplain
  · intro h
    obtain ⟨heq, hplain⟩ := h.eq_of_plain hescape
    exact ⟨hplain, heq.symm⟩

end JsonWalk.StringLiteral

namespace JsonWalk.Lexer

open Grammar
open StringLiteral (quoteByte escapeByte)

/-- From `x` to `y` these bytes have been taken, and nothing else has changed. -/
structure Passes (bytes : List UInt8) (x y : Lexer) : Prop where
  content_eq : x.content = bytes ++ y.content
  offset_eq : y.offset = x.offset + bytes.length
  scopes_eq : y.scopes = x.scopes
  begun_eq : y.begun = x.begun

section

variable {x y z : Lexer} {b : UInt8} {front back raw r : List UInt8}

theorem Passes.trans (hxy : Passes front x y) (hyz : Passes back y z) :
    Passes (front ++ back) x z where
  content_eq := by rw [hxy.content_eq, hyz.content_eq, List.append_assoc]
  offset_eq := by rw [hyz.offset_eq, hxy.offset_eq, List.length_append, Nat.add_assoc]
  scopes_eq := hyz.scopes_eq.trans hxy.scopes_eq
  begun_eq := hyz.begun_eq.trans hxy.begun_eq

theorem Passes.content_of_append (h : Passes front x y) (hx : x.content = front ++ r) :
    y.content = r :=
  List.append_cancel_left (h.content_eq.symm.trans hx)

theorem passes_of_peek {seen : Option UInt8} (h : peek x = .ok seen y) : Passes [] x y := by
  obtain ⟨⟨hscopes, hbegun⟩, -⟩ := of_peek h
  exact ⟨(content_of_peek h).symm, offset_of_peek h, hscopes, hbegun⟩

/-- A byte that is still to come is seen, whatever the reader does before and behind it. -/
theorem exists_peek (h : x.content = b :: r) : ∃ y, peek x = .ok (some b) y ∧ Passes [] x y := by
  cases hpeek : peek x with
  | error e y =>
    cases (exhausted_of_peek_error hpeek).2.symm.trans h
  | ok seen y =>
    obtain ⟨-, hseen, -⟩ := of_peek hpeek
    rw [h] at hseen
    subst hseen
    exact ⟨y, rfl, passes_of_peek hpeek⟩

theorem passes_advance (h : peek x = .ok (some b) y) : Passes [b] x y.advance := by
  obtain ⟨⟨hscopes, hbegun⟩, -⟩ := of_peek h
  exact ⟨(content_advance_of_peek h).symm, (advance_of_peek h).1, hscopes, hbegun⟩

theorem exists_nextByte (h : x.content = b :: r) :
    ∃ y, nextByte x = .ok b y ∧ Passes [b] x y := by
  obtain ⟨y, hpeek, -⟩ := exists_peek h
  refine ⟨y.advance, ?_, passes_advance hpeek⟩
  rw [nextByte, bind_of_ok hpeek]
  rfl

theorem exists_takeOnto {κ : Type} {step : κ → UInt8 → Option κ} {k k' : κ}
    (hraw : raw.foldlM step k = some k') (hstop : step k' b = none)
    (h : x.content = raw ++ b :: r) (taken : List UInt8) :
    ∃ y, takeOnto step k taken x = .ok (taken.reverse ++ raw) y ∧ Passes raw x y := by
  induction raw generalizing k taken x with
  | nil =>
    obtain rfl : k = k' := Option.some.inj hraw
    obtain ⟨y, hpeek, hpasses⟩ := exists_peek h
    refine ⟨y, ?_, hpasses⟩
    rw [takeOnto_of_some hpeek, hstop, List.append_nil]
  | cons c raw ih =>
    rw [List.foldlM_cons] at hraw
    obtain ⟨l, hl, hraw⟩ := Option.bind_eq_some_iff.1 hraw
    obtain ⟨y, hpeek, -⟩ := exists_peek h
    have hc := passes_advance hpeek
    obtain ⟨z, htake, hpasses⟩ := ih hraw (hc.content_of_append h) (c :: taken)
    refine ⟨z, ?_, hc.trans hpasses⟩
    rw [takeOnto_of_some hpeek, hl]
    simpa only [List.reverse_cons, List.append_assoc, List.singleton_append] using htake

theorem exists_takeRun {κ : Type} {step : κ → UInt8 → Option κ} {k k' : κ}
    (hraw : raw.foldlM step k = some k') (hstop : step k' b = none)
    (h : x.content = raw ++ b :: r) : ∃ y, takeRun step k x = .ok raw y ∧ Passes raw x y :=
  exists_takeOnto hraw hstop h []

theorem exists_readString {s : String} (hscan : StringLiteral.scan false raw = some false)
    (hdecode : StringLiteral.decode raw = .ok s)
    (h : x.content = quoteByte :: (raw ++ quoteByte :: r)) :
    ∃ y, readString x = .ok s y ∧ Passes (quoteByte :: (raw ++ [quoteByte])) x y := by
  obtain ⟨x₁, hopen, h₁⟩ := exists_nextByte h
  have hcontent₁ := h₁.content_of_append (r := raw ++ quoteByte :: r) h
  obtain ⟨x₂, htake, h₂⟩ := exists_takeRun hscan (by rfl) hcontent₁
  obtain ⟨x₃, hclose, h₃⟩ := exists_nextByte (h₂.content_of_append hcontent₁)
  refine ⟨x₃, ?_, h₁.trans (h₂.trans h₃)⟩
  rw [readString, bind_of_ok (by rfl), bind_of_ok hopen, bind_of_ok htake, bind_of_ok hclose,
    hdecode]
  rfl

end

/-- Every spelling of a string is read as that string by a lexer that stands in front of it. The
lexer stops right behind the closing quote, whatever comes then. And where no byte is a backslash
or a quote, it makes no difference which of the two ways to decode is taken. -/
theorem spellings_read_alike :
    (∀ (w : String) (text : List Char), Chars text w.toList → ∀ (r : List UInt8) (x : Lexer),
      x.content = quoteByte :: (Utf8.encode text ++ quoteByte :: r) →
      ∃ y, readString x = .ok w y ∧ y.content = r ∧
        y.offset = x.offset + ((Utf8.encode text).length + 2) ∧ y.scopes = x.scopes ∧
        y.begun = x.begun) ∧
      ∀ raw, escapeByte ∉ raw → quoteByte ∉ raw → ∀ s,
        StringLiteral.decodePlain raw = .ok s ↔ StringLiteral.decodeEscaped raw = .ok s := by
  constructor
  · intro w text htext r x hx
    obtain ⟨hscan, hdecode⟩ := StringLiteral.decode_eq_ok_iff_chars.2 ⟨text, rfl, htext⟩
    obtain ⟨y, hread, hpasses⟩ := exists_readString hscan hdecode hx
    refine ⟨y, hread, ?_, ?_, hpasses.scopes_eq, hpasses.begun_eq⟩
    · apply hpasses.content_of_append
      rw [hx, List.cons_append, List.append_assoc, List.singleton_append]
    · rw [hpasses.offset_eq]
      simp
  · exact fun raw hescape hquote =>
      StringLiteral.decodePlain_eq_ok_iff_decodeEscaped hescape hquote

/-- A raw character of two bytes, a short escape, a quote by its number and a surrogate pair, handed
out in three answers by a reader that fails behind them; and a byte that is no text by itself. -/
theorem spellings_read_alike_across_answers :
    let text : List Char := "é\\/\\u0022\\uD83d\\ude00".toList
    let x : Lexer := ofInput (.ofReader 4 [.bytes quoteByte [0xC3], .interruption,
      .bytes 0xA9 (ascii "\\/\\u0022\\uD83d"), .bytes escapeByte (ascii "ude00\"x"), .failure])
    Chars text "é/\"😀".toList ∧
      x.content = quoteByte :: (Utf8.encode text ++ quoteByte :: [0x78]) ∧
      (∃ y, readString x = .ok "é/\"😀" y ∧ y.content = [0x78]) ∧
      (StringLiteral.decodePlain [0xC3] = .ok "é" ↔
        StringLiteral.decodeEscaped [0xC3] = .ok "é") := by
  intro text x
  have hdigit (n : Nat) (hn : n < 16) : IsHex n.digitChar n := ⟨hn, .inl rfl⟩
  have hcapital : IsHex 'D' 13 := ⟨by decide, .inr (by decide)⟩
  have hquote : HexUnit ['0', '0', '2', '2'] 0x22 :=
    .mk (hdigit 0 (by decide)) (hdigit 0 (by decide)) (hdigit 2 (by decide)) (hdigit 2 (by decide))
  have hhigh : HexUnit ['D', '8', '3', 'd'] 0xD83D :=
    .mk hcapital (hdigit 8 (by decide)) (hdigit 3 (by decide)) (hdigit 13 (by decide))
  have hlow : HexUnit ['d', 'e', '0', '0'] 0xDE00 :=
    .mk (hdigit 13 (by decide)) (hdigit 14 (by decide)) (hdigit 0 (by decide))
      (hdigit 0 (by decide))
  have htext : Chars text "é/\"😀".toList :=
    .plain (by decide) (by decide) (by decide) (.escape (.short (by decide))
      (.escape (.units (.unit hquote (by decide)))
        (.escape (.units (.pair hhigh (by decide) hlow (by decide))) .nil)))
  have hx : x.content = quoteByte :: (Utf8.encode text ++ quoteByte :: [0x78]) := by
    decide +kernel
  obtain ⟨hread, hdecode⟩ := spellings_read_alike
  obtain ⟨y, hy, hrest, -⟩ := hread "é/\"😀" text htext [0x78] x hx
  exact ⟨htext, hx, ⟨y, hy, hrest⟩, hdecode [0xC3] (by decide) (by decide) "é"⟩

end JsonWalk.Lexer
