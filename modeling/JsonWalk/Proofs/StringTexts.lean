import JsonWalk.Lexer
import JsonWalk.Proofs.Grammar
import JsonWalk.Proofs.Utf8

/-!
# Strings as they are read

Reading a string finds its closing quote first, and then decodes what stands before it. Both steps
together accept what the grammar has between quotes: `Pieces` cuts it into escapes and single bytes,
and characters of several bytes are never cut by an escape.
-/

namespace JsonWalk.StringLiteral

open Grammar

/-! ### Hexadecimal digits -/

theorem hexDigit?_digitChar {n : Nat} (h : n < 16) : hexDigit? n.digitChar.toUInt8 = some n ∧
    hexDigit? n.digitChar.toUpper.toUInt8 = some n := by
  revert n
  decide

theorem digitChar_lt {n : Nat} (h : n < 16) :
    n.digitChar.toNat < 0x80 ∧ n.digitChar.toUpper.toNat < 0x80 := by
  revert n
  decide

theorem hexDigit?_spec : ∀ k < 256, (hexDigit? (UInt8.ofNat k)).all fun n =>
    n < 16 ∧
      (UInt8.ofNat k = n.digitChar.toUInt8 ∨ UInt8.ofNat k = n.digitChar.toUpper.toUInt8) := by
  decide +kernel

theorem hexDigit?_eq_some_iff {b : UInt8} {n : Nat} :
    hexDigit? b = some n ↔ ∃ c, IsHex c n ∧ b = c.toUInt8 := by
  constructor
  · intro h
    have hspec := hexDigit?_spec b.toNat b.toNat_lt
    rw [UInt8.ofNat_toNat, h] at hspec
    obtain ⟨hn, hb | hb⟩ : n < 16 ∧
        (b = n.digitChar.toUInt8 ∨ b = n.digitChar.toUpper.toUInt8) := by
      simpa using hspec
    · exact ⟨_, ⟨hn, .inl rfl⟩, hb⟩
    · exact ⟨_, ⟨hn, .inr rfl⟩, hb⟩
  · rintro ⟨c, ⟨hn, rfl | rfl⟩, rfl⟩
    · exact (hexDigit?_digitChar hn).1
    · exact (hexDigit?_digitChar hn).2

theorem encode_ascii {cs : List Char} (h : ∀ c ∈ cs, c.toNat < 0x80) :
    Utf8.encode cs = cs.map Char.toUInt8 := by
  induction cs with
  | nil => rfl
  | cons c cs ih =>
    obtain ⟨hc, hcs⟩ := List.forall_mem_cons.1 h
    rw [Utf8.encode_cons, Utf8.encodeChar_of_ascii hc, ih hcs]
    rfl

theorem lt_of_isHex {c : Char} {n : Nat} (h : IsHex c n) : c.toNat < 0x80 := by
  obtain ⟨hn, rfl | rfl⟩ := h
  · exact (digitChar_lt hn).1
  · exact (digitChar_lt hn).2

theorem encode_hexUnit {u : List Char} {n : Nat} (h : HexUnit u n) :
    Utf8.encode u = u.map Char.toUInt8 := by
  cases h with
  | mk ha hb hc hd =>
    refine encode_ascii ?_
    simp only [List.forall_mem_cons]
    exact ⟨lt_of_isHex ha, lt_of_isHex hb, lt_of_isHex hc, lt_of_isHex hd, nofun⟩

theorem readUnit_eq_ok_iff {bytes rest : List UInt8} {n : Nat} :
    readUnit bytes = .ok (n, rest) ↔ ∃ u, HexUnit u n ∧ bytes = Utf8.encode u ++ rest := by
  constructor
  · intro h
    unfold readUnit at h
    split at h
    · next a b c d rest' =>
      split at h
      · next i j k l hi hj hk hl =>
        cases h
        obtain ⟨a, ha, rfl⟩ := hexDigit?_eq_some_iff.1 hi
        obtain ⟨b, hb, rfl⟩ := hexDigit?_eq_some_iff.1 hj
        obtain ⟨c, hc, rfl⟩ := hexDigit?_eq_some_iff.1 hk
        obtain ⟨d, hd, rfl⟩ := hexDigit?_eq_some_iff.1 hl
        have hu := HexUnit.mk ha hb hc hd
        exact ⟨_, hu, by rw [encode_hexUnit hu]; rfl⟩
      · cases h
    · cases h
  · rintro ⟨u, hu, rfl⟩
    rw [encode_hexUnit hu]
    cases hu with
    | mk ha hb hc hd =>
      simp only [List.map_cons, List.map_nil, List.cons_append, List.nil_append, readUnit,
        hexDigit?_eq_some_iff.2 ⟨_, ha, rfl⟩, hexDigit?_eq_some_iff.2 ⟨_, hb, rfl⟩,
        hexDigit?_eq_some_iff.2 ⟨_, hc, rfl⟩, hexDigit?_eq_some_iff.2 ⟨_, hd, rfl⟩]

theorem require_eq_ok_iff {b : UInt8} {bytes rest : List UInt8} :
    require b bytes = .ok rest ↔ bytes = b :: rest := by
  cases bytes with
  | nil => simp [require]
  | cons a bytes =>
    rw [require]
    split
    · next h => simp [h]
    · next h => simp [h]

/-! ### Escapes -/

theorem bind_eq_ok_iff {ε α β : Type} {m : Except ε α} {f : α → Except ε β} {b : β} :
    (m >>= f) = .ok b ↔ ∃ a, m = .ok a ∧ f a = .ok b := by
  cases m <;> simp [bind, Except.bind]

theorem readEscapedUnits_eq_ok_iff {bytes piece rest : List UInt8} :
    readEscapedUnits bytes = .ok (piece, rest) ↔
      ∃ u c, Units u c ∧ bytes = Utf8.encode u ++ rest ∧ piece = String.utf8EncodeChar c := by
  constructor
  · intro h
    obtain ⟨⟨n, rest₁⟩, hn, h₁⟩ := bind_eq_ok_iff.1 h
    obtain ⟨u, hu, rfl⟩ := readUnit_eq_ok_iff.1 hn
    dsimp only at h₁
    split at h₁
    · cases h₁
    split at h₁
    · next hhigh =>
      obtain ⟨rest₂, hslash, h₂⟩ := bind_eq_ok_iff.1 h₁
      obtain ⟨rest₃, hletter, h₃⟩ := bind_eq_ok_iff.1 h₂
      obtain ⟨⟨low, rest₄⟩, hl, h₄⟩ := bind_eq_ok_iff.1 h₃
      obtain ⟨w, hw, hrest₃⟩ := readUnit_eq_ok_iff.1 hl
      dsimp only at h₄
      split at h₄
      · next hlow =>
        obtain ⟨hpiece, rfl⟩ := Prod.mk.inj (Except.ok.inj h₄)
        refine ⟨_, _, .pair hu hhigh hw hlow, ?_, hpiece.symm⟩
        rw [require_eq_ok_iff.1 hslash, require_eq_ok_iff.1 hletter, hrest₃]
        simp [escapeByte, Utf8.encodeChar_eq]
      · cases h₄
    · next hlow hhigh =>
      cases h₁
      exact ⟨u, _, .unit hu (by omega), rfl, rfl⟩
  · rintro ⟨u, c, h, rfl, rfl⟩
    cases h with
    | unit hu hn =>
      refine bind_eq_ok_iff.2 ⟨_, readUnit_eq_ok_iff.2 ⟨u, hu, rfl⟩, ?_⟩
      dsimp only
      rw [if_neg (by omega), if_neg (by omega)]
      rfl
    | @pair u w m n hu hhigh hw hlow =>
      have hbytes : Utf8.encode (u ++ '\\' :: 'u' :: w) ++ rest =
          Utf8.encode u ++ escapeByte :: 0x75 :: (Utf8.encode w ++ rest) := by
        simp [escapeByte, Utf8.encodeChar_eq]
      rw [hbytes]
      refine bind_eq_ok_iff.2 ⟨_, readUnit_eq_ok_iff.2 ⟨u, hu, rfl⟩, ?_⟩
      dsimp only
      rw [if_neg (by omega), if_pos hhigh]
      refine bind_eq_ok_iff.2 ⟨_, require_eq_ok_iff.2 rfl, ?_⟩
      refine bind_eq_ok_iff.2 ⟨_, require_eq_ok_iff.2 rfl, ?_⟩
      refine bind_eq_ok_iff.2 ⟨_, readUnit_eq_ok_iff.2 ⟨w, hw, rfl⟩, ?_⟩
      dsimp only
      rw [if_pos hlow]
      rfl

theorem readEscape_of_short {e c : Char} {rest : List UInt8} (h : (e, c) ∈ shortEscapes) :
    readEscape (Utf8.encode [e] ++ rest) = .ok (String.utf8EncodeChar c, rest) := by
  simp only [shortEscapes, List.mem_cons, Prod.mk.injEq, List.not_mem_nil, or_false] at h
  obtain ⟨rfl, rfl⟩ | ⟨rfl, rfl⟩ | ⟨rfl, rfl⟩ | ⟨rfl, rfl⟩ | ⟨rfl, rfl⟩ | ⟨rfl, rfl⟩ | ⟨rfl, rfl⟩ |
    ⟨rfl, rfl⟩ := h <;> rfl

theorem readEscape_eq_ok_iff {bytes piece rest : List UInt8} :
    readEscape bytes = .ok (piece, rest) ↔
      ∃ e c, Escape e c ∧ bytes = Utf8.encode e ++ rest ∧ piece = String.utf8EncodeChar c := by
  constructor
  · intro h
    unfold readEscape at h
    split at h
    · cases h
    split at h
    · cases h; exact ⟨['"'], '"', .short (by decide), rfl, rfl⟩
    · cases h; exact ⟨['\\'], '\\', .short (by decide), rfl, rfl⟩
    · cases h; exact ⟨['/'], '/', .short (by decide), rfl, rfl⟩
    · cases h; exact ⟨['b'], '\x08', .short (by decide), rfl, rfl⟩
    · cases h; exact ⟨['f'], '\x0c', .short (by decide), rfl, rfl⟩
    · cases h; exact ⟨['n'], '\n', .short (by decide), rfl, rfl⟩
    · cases h; exact ⟨['r'], '\x0d', .short (by decide), rfl, rfl⟩
    · cases h; exact ⟨['t'], '\t', .short (by decide), rfl, rfl⟩
    · obtain ⟨u, c, hu, rfl, rfl⟩ := readEscapedUnits_eq_ok_iff.1 h
      exact ⟨_, c, .units hu, rfl, rfl⟩
    · cases h
  · rintro ⟨e, c, h, rfl, rfl⟩
    cases h with
    | short hmem => exact readEscape_of_short hmem
    | units hu => exact readEscapedUnits_eq_ok_iff.2 ⟨_, _, hu, rfl, rfl⟩

/-! ### Pieces -/

/-- Bytes cut into escapes and single bytes, and the bytes they stand for. -/
inductive Pieces : List UInt8 → List UInt8 → Prop
  | nil : Pieces [] []
  | plain {b : UInt8} {raw out : List UInt8} : 0x20 ≤ b → b ≠ quoteByte → b ≠ escapeByte →
    Pieces raw out → Pieces (b :: raw) (b :: out)
  | escape {e : List Char} {c : Char} {raw out : List UInt8} : Escape e c → Pieces raw out →
    Pieces (escapeByte :: (Utf8.encode e ++ raw)) (String.utf8EncodeChar c ++ out)

def scan (escaped : Bool) (raw : List UInt8) : Option Bool := raw.foldlM Lexer.stringStep escaped

section

variable {b : UInt8} {raw out rest : List UInt8} {e u : List Char} {c : Char} {n : Nat}

theorem scan_cons (escaped : Bool) :
    scan escaped (b :: raw) = Lexer.stringStep escaped b >>= fun escaped => scan escaped raw :=
  List.foldlM_cons

theorem scan_cons_of_escaped : scan true (b :: raw) = scan false raw := by
  rw [scan_cons]
  rfl

theorem scan_cons_of_plain (hq : b ≠ quoteByte) (he : b ≠ escapeByte) :
    scan false (b :: raw) = scan false raw := by
  rw [scan_cons, Lexer.stringStep, if_neg Bool.false_ne_true, if_neg hq, beq_false_of_ne he]
  rfl

theorem scan_escapeByte : scan false (escapeByte :: raw) = scan true raw := by
  rw [scan_cons]
  rfl

theorem isHex_plain {c : Char} (h : IsHex c n) :
    c.toUInt8 ≠ quoteByte ∧ c.toUInt8 ≠ escapeByte := by
  have hspec : ∀ n < 16, (n.digitChar.toUInt8 ≠ quoteByte ∧ n.digitChar.toUInt8 ≠ escapeByte) ∧
      n.digitChar.toUpper.toUInt8 ≠ quoteByte ∧ n.digitChar.toUpper.toUInt8 ≠ escapeByte := by
    decide
  obtain ⟨hn, rfl | rfl⟩ := h
  · exact (hspec n hn).1
  · exact (hspec n hn).2

theorem scan_hexUnit (h : HexUnit u n) : scan false (Utf8.encode u ++ rest) = scan false rest := by
  rw [encode_hexUnit h]
  cases h with
  | mk ha hb hc hd =>
    simp only [List.map_cons, List.map_nil, List.cons_append, List.nil_append]
    rw [scan_cons_of_plain (isHex_plain ha).1 (isHex_plain ha).2,
      scan_cons_of_plain (isHex_plain hb).1 (isHex_plain hb).2,
      scan_cons_of_plain (isHex_plain hc).1 (isHex_plain hc).2,
      scan_cons_of_plain (isHex_plain hd).1 (isHex_plain hd).2]

theorem scan_escape (h : Escape e c) : scan true (Utf8.encode e ++ rest) = scan false rest := by
  cases h with
  | short hmem =>
    simp only [shortEscapes, List.mem_cons, Prod.mk.injEq, List.not_mem_nil, or_false] at hmem
    obtain ⟨rfl, -⟩ | ⟨rfl, -⟩ | ⟨rfl, -⟩ | ⟨rfl, -⟩ | ⟨rfl, -⟩ | ⟨rfl, -⟩ | ⟨rfl, -⟩ | ⟨rfl, -⟩ :=
      hmem <;> exact scan_cons_of_escaped
  | units hu =>
    have hletter (raw : List UInt8) : scan true (0x75 :: raw) = scan false raw :=
      scan_cons_of_escaped
    cases hu with
    | unit hu => exact (hletter _).trans (scan_hexUnit hu)
    | @pair u w _ _ hu _ hw _ =>
      have hbytes : Utf8.encode ('u' :: (u ++ '\\' :: 'u' :: w)) ++ rest =
          0x75 :: (Utf8.encode u ++ escapeByte :: 0x75 :: (Utf8.encode w ++ rest)) := by
        simp [escapeByte, Utf8.encodeChar_eq]
      rw [hbytes, hletter, scan_hexUnit hu, scan_escapeByte, hletter, scan_hexUnit hw]

theorem Pieces.scan (h : Pieces raw out) : scan false raw = some false := by
  induction h with
  | nil => rfl
  | plain _ hq he _ ih => rw [scan_cons_of_plain hq he, ih]
  | escape he _ ih => rw [scan_escapeByte, scan_escape he, ih]

/-! ### Resolving escapes -/

theorem unescapeOnto_cons {done : List UInt8} (h : rest ≠ []) :
    unescapeOnto done (b :: rest) = match readPiece b rest with
      | .error stop => .error stop
      | .ok (piece, rest) => unescapeOnto (piece.reverse ++ done) rest := by
  cases rest with
  | nil => exact absurd rfl h
  | cons c rest =>
    rw [unescapeOnto]
    split <;> next h => rw [h]

theorem readPiece_plain (hb : 0x20 ≤ b) (he : b ≠ escapeByte) :
    readPiece b rest = .ok ([b], rest) := by
  rw [readPiece, if_neg he, if_neg (UInt8.not_lt.2 hb)]

theorem Pieces.unescapeOnto (h : Pieces raw out) (done : List UInt8) :
    unescapeOnto done (raw ++ [quoteByte]) = .ok (done.reverse ++ out) := by
  induction h generalizing done with
  | nil => rw [List.nil_append, StringLiteral.unescapeOnto, List.append_nil]
  | @plain b raw out hb _ he _ ih =>
    rw [List.cons_append, unescapeOnto_cons (by simp), readPiece_plain hb he]
    simpa using ih (b :: done)
  | @escape e c raw out he _ ih =>
    have hread : readPiece escapeByte (Utf8.encode e ++ raw ++ [quoteByte]) =
        .ok (String.utf8EncodeChar c, raw ++ [quoteByte]) := by
      rw [List.append_assoc]
      exact readEscape_eq_ok_iff.2 ⟨e, c, he, rfl, rfl⟩
    rw [List.cons_append, unescapeOnto_cons (by simp), hread]
    simpa using ih ((String.utf8EncodeChar c).reverse ++ done)

theorem quoteByte_notMem_hexUnit (h : HexUnit u n) : quoteByte ∉ Utf8.encode u := by
  rw [encode_hexUnit h]
  cases h with
  | mk ha hb hc hd =>
    simp only [List.map_cons, List.map_nil, List.mem_cons, List.not_mem_nil, or_false, not_or]
    exact ⟨(isHex_plain ha).1.symm, (isHex_plain hb).1.symm, (isHex_plain hc).1.symm,
      (isHex_plain hd).1.symm⟩

theorem quoteByte_notMem_units (h : Units u c) : quoteByte ∉ Utf8.encode u := by
  cases h with
  | unit hu => exact quoteByte_notMem_hexUnit hu
  | @pair u w _ _ hu _ hw _ =>
    have hbytes : Utf8.encode (u ++ '\\' :: 'u' :: w) =
        Utf8.encode u ++ escapeByte :: 0x75 :: Utf8.encode w := by
      simp [escapeByte, Utf8.encodeChar_eq]
    rw [hbytes]
    simp only [List.mem_append, List.mem_cons, not_or]
    exact ⟨quoteByte_notMem_hexUnit hu, by decide, by decide, quoteByte_notMem_hexUnit hw⟩

/-- An escape does not reach beyond the closing quote, unless it is the escape of a quote. -/
theorem eq_nil_of_encode_escape (h : Escape e c) (heq : Utf8.encode e = raw ++ [quoteByte]) :
    raw = [] := by
  cases h with
  | short hmem =>
    simp only [shortEscapes, List.mem_cons, Prod.mk.injEq, List.not_mem_nil, or_false] at hmem
    obtain ⟨rfl, -⟩ | ⟨rfl, -⟩ | ⟨rfl, -⟩ | ⟨rfl, -⟩ | ⟨rfl, -⟩ | ⟨rfl, -⟩ | ⟨rfl, -⟩ | ⟨rfl, -⟩ :=
      hmem <;> simpa [Utf8.encodeChar_eq] using congrArg List.length heq
  | @units u _ hu =>
    have hmem : quoteByte ∈ Utf8.encode ('u' :: u) := by
      rw [heq]
      simp
    have hletter : Utf8.encode ('u' :: u) = 0x75 :: Utf8.encode u := rfl
    rw [hletter, List.mem_cons] at hmem
    rcases hmem with hmem | hmem
    · exact absurd hmem (by decide)
    · exact absurd hmem (quoteByte_notMem_units hu)

theorem exists_rest_of_escape (h : Escape e c) (hraw : raw ≠ [])
    (heq : raw ++ [quoteByte] = Utf8.encode e ++ rest) :
    ∃ raw', raw = Utf8.encode e ++ raw' ∧ rest = raw' ++ [quoteByte] := by
  rcases List.append_eq_append_iff.1 heq with ⟨as, heq, hq⟩ | ⟨raw', hraw', hrest⟩
  · cases as with
    | nil => exact ⟨[], by simpa using heq.symm, hq.symm⟩
    | cons a as =>
      obtain ⟨rfl, has⟩ : quoteByte = a ∧ [] = as ++ rest := by simpa using hq
      obtain ⟨rfl, rfl⟩ := List.append_eq_nil_iff.1 has.symm
      rw [List.append_nil] at heq
      exact absurd (eq_nil_of_encode_escape h heq.symm) hraw
  · exact ⟨raw', hraw', hrest⟩

/-- Resolving the escapes up to the closing quote goes from piece to piece. -/
theorem exists_pieces {done : List UInt8} (hs : StringLiteral.scan false raw = some false)
    (h : StringLiteral.unescapeOnto done (raw ++ [quoteByte]) = .ok out) :
    ∃ out', Pieces raw out' ∧ out = done.reverse ++ out' := by
  induction hn : raw.length using Nat.strongRecOn generalizing raw done with
  | ind n ih =>
    cases raw with
    | nil =>
      rw [List.nil_append, StringLiteral.unescapeOnto] at h
      cases h
      exact ⟨[], .nil, (List.append_nil _).symm⟩
    | cons b raw =>
      rw [List.cons_append, unescapeOnto_cons (by simp)] at h
      split at h
      · cases h
      · next piece rest hread =>
        by_cases he : b = escapeByte
        · subst he
          rw [scan_escapeByte] at hs
          have hraw : raw ≠ [] := by
            rintro rfl
            cases hs
          obtain ⟨e, c, he, hbytes, rfl⟩ := readEscape_eq_ok_iff.1 hread
          obtain ⟨raw', rfl, rfl⟩ := exists_rest_of_escape he hraw hbytes
          rw [scan_escape he] at hs
          obtain ⟨out', hout', rfl⟩ := ih raw'.length (by simp at hn; omega) hs h rfl
          exact ⟨_, .escape he hout', by simp⟩
        · have hq : b ≠ quoteByte := by
            rintro rfl
            rw [scan_cons] at hs
            cases hs
          rw [readPiece, if_neg he] at hread
          split at hread
          · cases hread
          · next hb =>
            cases hread
            rw [scan_cons_of_plain hq he] at hs
            obtain ⟨out', hout', rfl⟩ := ih raw.length (by simp at hn; omega) hs h rfl
            exact ⟨_, .plain (UInt8.not_lt.1 hb) hq he hout', by simp⟩

/-! ### Decoding -/

theorem pieces_of_plain (hs : StringLiteral.scan false raw = some false) (he : escapeByte ∉ raw)
    (hb : ∀ b ∈ raw, 0x20 ≤ b) : Pieces raw raw := by
  induction raw with
  | nil => exact .nil
  | cons b raw ih =>
    obtain ⟨hb, hrest⟩ := List.forall_mem_cons.1 hb
    rw [List.mem_cons, not_or] at he
    obtain ⟨heb, he⟩ := he
    have hq : b ≠ quoteByte := by
      rintro rfl
      rw [scan_cons] at hs
      cases hs
    rw [scan_cons_of_plain hq (Ne.symm heb)] at hs
    exact .plain hb hq (Ne.symm heb) (ih hs he hrest)

theorem Pieces.eq_of_plain (h : Pieces raw out) (he : escapeByte ∉ raw) :
    out = raw ∧ ∀ b ∈ raw, 0x20 ≤ b := by
  induction h with
  | nil => exact ⟨rfl, nofun⟩
  | plain hb _ _ _ ih =>
    obtain ⟨rfl, hrest⟩ := ih fun h => he (List.mem_cons_of_mem _ h)
    exact ⟨rfl, List.forall_mem_cons.2 ⟨hb, hrest⟩⟩
  | escape => exact absurd List.mem_cons_self he

theorem decodePlain_eq_ok_iff {s : String} :
    decodePlain raw = .ok s ↔ (∀ b ∈ raw, 0x20 ≤ b) ∧ raw = Utf8.encode s.toList := by
  rw [decodePlain]
  by_cases hany : raw.any (· < 0x20)
  · rw [if_pos hany]
    obtain ⟨b, hb, hlt⟩ := List.any_eq_true.1 hany
    refine iff_of_false nofun fun h => ?_
    exact UInt8.not_lt.2 (h.1 b hb) (by simpa using hlt)
  · have hall : ∀ b ∈ raw, 0x20 ≤ b := by simpa using hany
    rw [if_neg hany, ← Utf8.decode?_eq_some_iff, and_iff_right hall]
    cases Utf8.decode? raw <;> simp

theorem decodeEscaped_eq_ok_iff {s : String} (hs : StringLiteral.scan false raw = some false) :
    decodeEscaped raw = .ok s ↔ Pieces raw (Utf8.encode s.toList) := by
  have htail : (quoteByte :: (raw ++ [quoteByte])).tail = raw ++ [quoteByte] := rfl
  constructor
  · intro h
    rw [decodeEscaped, htail] at h
    split at h
    · cases h
    · next bytes hbytes =>
      obtain ⟨out, hout, rfl⟩ := exists_pieces hs hbytes
      split at h
      · next cs hsplit =>
        cases h
        rw [String.toList_ofList, ← Utf8.split_eq_iff.1 hsplit]
        exact hout
      · cases h
  · intro h
    rw [decodeEscaped, htail, h.unescapeOnto]
    simp only [List.reverse_nil, List.nil_append, Utf8.split_eq_iff.2 rfl, String.ofList_toList]

/-- Decoding what stands before a closing quote gives the text that its pieces encode. -/
theorem decode_eq_ok_iff {s : String} (hs : StringLiteral.scan false raw = some false) :
    decode raw = .ok s ↔ Pieces raw (Utf8.encode s.toList) := by
  rw [decode]
  by_cases he : escapeByte ∈ raw
  · rw [if_pos (List.contains_iff_mem.2 he), decodeEscaped_eq_ok_iff hs]
  · rw [if_neg (mt List.contains_iff_mem.1 he), decodePlain_eq_ok_iff]
    constructor
    · rintro ⟨hb, heq⟩
      rw [← heq]
      exact pieces_of_plain hs he hb
    · intro h
      obtain ⟨heq, hb⟩ := h.eq_of_plain he
      exact ⟨hb, heq.symm⟩

/-! ### Pieces and characters -/

variable {a : UInt8} {cs text front tail : List Char}

theorem encodeChar_ne_nil (c : Char) : String.utf8EncodeChar c ≠ [] := by
  by_cases hc : c.toNat < 0x80
  · rw [Utf8.encodeChar_of_ascii hc]
    exact List.cons_ne_nil _ _
  · obtain ⟨a, tail, heq, -⟩ := Utf8.encodeChar_of_not_ascii (Nat.not_lt.1 hc)
    rw [heq]
    exact List.cons_ne_nil _ _

theorem toNat_ofNat_of_ascii (h : c.toNat < 0x80) : (UInt8.ofNat c.toNat).toNat = c.toNat := by
  rw [UInt8.toNat_ofNat']
  omega

theorem plain_encodeChar (hc : 0x20 ≤ c.toNat) (hq : c ≠ '"') (he : c ≠ '\\') :
    ∀ b ∈ String.utf8EncodeChar c, 0x20 ≤ b ∧ b ≠ quoteByte ∧ b ≠ escapeByte := by
  have hbeyond {b : UInt8} (hb : 0x80 ≤ b) : 0x20 ≤ b ∧ b ≠ quoteByte ∧ b ≠ escapeByte := by
    have hlt : ∀ k < 256, 0x80 ≤ UInt8.ofNat k →
        0x20 ≤ UInt8.ofNat k ∧ UInt8.ofNat k ≠ quoteByte ∧ UInt8.ofNat k ≠ escapeByte := by
      decide +kernel
    have := hlt b.toNat b.toNat_lt
    rw [UInt8.ofNat_toNat] at this
    exact this hb
  by_cases hc' : c.toNat < 0x80
  · have hchar {k : UInt8} (h : UInt8.ofNat c.toNat = k) : c = Char.ofNat k.toNat := by
      rw [← h, toNat_ofNat_of_ascii hc', Char.ofNat_toNat]
    rw [Utf8.encodeChar_of_ascii hc', List.forall_mem_singleton]
    refine ⟨?_, fun h => hq (hchar h), fun h => he (hchar h)⟩
    rw [UInt8.le_iff_toNat_le, toNat_ofNat_of_ascii hc']
    exact hc
  · obtain ⟨a, tail, heq, ha, htail⟩ := Utf8.encodeChar_of_not_ascii (Nat.not_lt.1 hc')
    rw [heq, List.forall_mem_cons]
    exact ⟨hbeyond (UInt8.le_trans (by decide) ha), fun b hb => hbeyond (htail b hb).1⟩

theorem Pieces.plain_append {front : List UInt8}
    (hfront : ∀ b ∈ front, 0x20 ≤ b ∧ b ≠ quoteByte ∧ b ≠ escapeByte) (h : Pieces raw out) :
    Pieces (front ++ raw) (front ++ out) := by
  induction front with
  | nil => exact h
  | cons b front ih =>
    obtain ⟨⟨hb, hq, he⟩, hrest⟩ := List.forall_mem_cons.1 hfront
    exact .plain hb hq he (ih hrest)

theorem pieces_of_chars (h : Chars text cs) : Pieces (Utf8.encode text) (Utf8.encode cs) := by
  induction h with
  | nil => exact .nil
  | plain hc hq he _ ih => exact ih.plain_append (plain_encodeChar hc hq he)
  | @escape c e text cs he _ ih =>
    have hbytes : Utf8.encode ('\\' :: (e ++ text)) =
        escapeByte :: (Utf8.encode e ++ Utf8.encode text) := by
      rw [← Utf8.encode_append]
      rfl
    rw [hbytes]
    exact .escape he ih

/-- No escape stands for a byte in the middle of a character. -/
theorem Pieces.of_tail {tail : List UInt8} (htail : ∀ b ∈ tail, Utf8.IsTail b)
    (h : Pieces raw (tail ++ out)) : ∃ raw', raw = tail ++ raw' ∧ Pieces raw' out := by
  induction tail generalizing raw with
  | nil => exact ⟨raw, rfl, h⟩
  | cons a tail ih =>
    obtain ⟨ha, hrest⟩ := List.forall_mem_cons.1 htail
    generalize hout : a :: tail ++ out = out' at h
    cases h with
    | nil => cases hout
    | plain hb hq he h =>
      obtain ⟨rfl, rfl⟩ := List.cons.inj hout
      obtain ⟨raw', rfl, h'⟩ := ih hrest h
      exact ⟨raw', rfl, h'⟩
    | @escape e c raw out' he h =>
      by_cases hc : c.toNat < 0x80
      · rw [Utf8.encodeChar_of_ascii hc] at hout
        obtain ⟨rfl, -⟩ := List.cons.inj hout
        have htail := UInt8.le_iff_toNat_le.1 ha.1
        rw [toNat_ofNat_of_ascii hc] at htail
        exact absurd htail (Nat.not_le.2 hc)
      · obtain ⟨b, _, heq, hb, -⟩ := Utf8.encodeChar_of_not_ascii (Nat.not_lt.1 hc)
        rw [heq] at hout
        obtain ⟨rfl, -⟩ := List.cons.inj hout
        exact absurd ha.2 (UInt8.not_lt.2 hb)

theorem exists_chars (h : Pieces raw (Utf8.encode cs)) :
    ∃ text, raw = Utf8.encode text ∧ Chars text cs := by
  induction cs generalizing raw with
  | nil =>
    generalize hout : Utf8.encode [] = out at h
    cases h with
    | nil => exact ⟨[], rfl, .nil⟩
    | plain => cases hout
    | escape => exact absurd (List.append_eq_nil_iff.1 hout.symm).1 (encodeChar_ne_nil _)
  | cons c cs ih =>
    rw [Utf8.encode_cons] at h
    generalize hout : String.utf8EncodeChar c ++ Utf8.encode cs = out at h
    cases h with
    | nil => exact absurd (List.append_eq_nil_iff.1 hout).1 (encodeChar_ne_nil _)
    | @plain b raw out hb hq he h =>
      by_cases hc : c.toNat < 0x80
      · rw [Utf8.encodeChar_of_ascii hc] at hout
        obtain ⟨rfl, rfl⟩ := List.cons.inj hout
        obtain ⟨text, rfl, htext⟩ := ih h
        refine ⟨c :: text, ?_, .plain ?_ ?_ ?_ htext⟩
        · rw [Utf8.encode_cons, Utf8.encodeChar_of_ascii hc]
          rfl
        · rw [UInt8.le_iff_toNat_le, toNat_ofNat_of_ascii hc] at hb
          exact hb
        · rintro rfl
          exact hq rfl
        · rintro rfl
          exact he rfl
      · obtain ⟨a, tail, heq, -, htail⟩ := Utf8.encodeChar_of_not_ascii (Nat.not_lt.1 hc)
        rw [heq] at hout
        obtain ⟨rfl, rfl⟩ := List.cons.inj hout
        obtain ⟨raw', rfl, h'⟩ := h.of_tail htail
        obtain ⟨text, rfl, htext⟩ := ih h'
        refine ⟨c :: text, ?_, .plain (by omega) ?_ ?_ htext⟩
        · rw [Utf8.encode_cons, heq]
          rfl
        · rintro rfl
          exact hc (by decide)
        · rintro rfl
          exact hc (by decide)
    | @escape e c' raw out he h =>
      have hdecode := congrArg Utf8.decodeChar hout
      rw [Utf8.decodeChar_encode, Utf8.decodeChar_encode] at hdecode
      cases hdecode
      obtain ⟨text, rfl, htext⟩ := ih h
      refine ⟨'\\' :: (e ++ text), ?_, .escape he htext⟩
      rw [Utf8.encode_cons, Utf8.encode_append]
      rfl

/-- What stands before the closing quote of a string is what the grammar has there. -/
theorem decode_eq_ok_iff_chars {s : String} :
    StringLiteral.scan false raw = some false ∧ decode raw = .ok s ↔
      ∃ text, raw = Utf8.encode text ∧ Chars text s.toList := by
  constructor
  · rintro ⟨hs, h⟩
    exact exists_chars ((decode_eq_ok_iff hs).1 h)
  · rintro ⟨text, rfl, h⟩
    have hpieces := pieces_of_chars h
    exact ⟨hpieces.scan, (decode_eq_ok_iff hpieces.scan).2 hpieces⟩

end

end JsonWalk.StringLiteral
