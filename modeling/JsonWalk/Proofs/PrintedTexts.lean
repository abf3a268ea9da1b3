import JsonWalk.Proofs.TextAcceptance
import JsonWalk.Value.Text

/-!
# Printed documents

The compact text of a document is read as the tokens of the document, and so is every text that has
blanks around and between its pieces. Escapes are read as the characters they were written for, and
integers of sixty-four bits as themselves.
-/

namespace JsonWalk

open Grammar

/-! ### Numbers -/

namespace Decimal

theorem head?_digits {n : Nat} (h : n ≠ 0) : (digits n).head? ≠ some '0' := by
  induction n using Nat.strongRecOn with
  | ind n ih =>
    rw [digits, Nat.toDigits_eq_if (by decide)]
    split
    · simpa using h
    · next hlarge =>
      have hne : n / 10 ≠ 0 := by omega
      have hlt : n / 10 < n := by omega
      rw [List.head?_append_of_ne_nil _ Nat.toDigits_ne_nil]
      exact ih (n / 10) hlt hne

theorem isDigits_digits (n : Nat) : IsDigits (digits n) :=
  ⟨Nat.toDigits_ne_nil, fun _ => isDigit_of_mem_digits⟩

theorem literal_digits (negative : Bool) (n : Nat) :
    Literal ⟨negative, digits n, none, none⟩ ((if negative then ['-'] else []) ++ digits n) := by
  have hwhole : digits n = ['0'] ∨ (digits n).head? ≠ some '0' := by
    by_cases h : n = 0
    · subst h
      exact .inl (Nat.toDigits_zero 10)
    · exact .inr (head?_digits h)
  have hliteral := Literal.mk negative (isDigits_digits n) hwhole .none .none
  rwa [List.append_nil, List.append_nil] at hliteral

end Decimal

namespace Number

/-- The number has a text that it is read from: an integer has if sixty-four bits hold it. -/
def IsLegible : Number → Prop
  | .int n => -(Decimal.signedBound : Int) ≤ n ∧ n < Decimal.wordBound
  | .float x => ofLiteral? (floatChars x) = some (.float x)

theorem exists_literal_of_isLegible {n : Number} (h : n.IsLegible) :
    ∃ l, Literal l n.chars ∧ l.number = some n := by
  match n, h with
  | .int (.ofNat n), h =>
    refine ⟨_, Decimal.literal_digits false n, ?_⟩
    have hn : n < Decimal.wordBound := Int.ofNat_lt.1 h.2
    simp [Numeral.number, Decimal.digits, hn]
  | .int (.negSucc n), h =>
    refine ⟨_, Decimal.literal_digits true (n + 1), ?_⟩
    have hn : n + 1 ≤ Decimal.signedBound := by
      have := h.1
      omega
    simp [Numeral.number, Decimal.digits, hn, Int.negSucc_eq]
  | .float x, h => exact ofLiteral?_eq_some_iff.1 h

end Number

/-! ### Strings -/

namespace Value

theorem escape_control {c : Char} (hc : c.toNat < 0x20) :
    Escape ['u', '0', '0', Nat.digitChar (c.toNat / 16), Nat.digitChar (c.toNat % 16)] c := by
  have hhex {n : Nat} (hn : n < 16) : IsHex n.digitChar n := ⟨hn, .inl rfl⟩
  have hzero : IsHex '0' 0 := hhex (by decide)
  have hunit := HexUnit.mk hzero hzero (hhex (n := c.toNat / 16) (by omega))
    (hhex (n := c.toNat % 16) (by omega))
  have hvalue : ((0 * 16 + 0) * 16 + c.toNat / 16) * 16 + c.toNat % 16 = c.toNat := by omega
  rw [hvalue] at hunit
  have hunits := Units.unit hunit (by omega)
  rw [Char.ofNat_toNat] at hunits
  exact .units hunits

theorem chars_stringCharText (c : Char) {text cs : List Char} (h : Chars text cs) :
    Chars (stringCharText c ++ text) (c :: cs) := by
  unfold stringCharText
  split
  case h_8 _ hq he _ _ _ _ _ =>
    split
    · next hc => exact .escape (escape_control hc) h
    · next hc => exact .plain (Nat.not_lt.1 hc) hq he h
  all_goals exact .escape (.short (by decide)) h

theorem chars_stringText (cs : List Char) : Chars (cs.flatMap stringCharText) cs := by
  induction cs with
  | nil => exact .nil
  | cons c cs ih =>
    rw [List.flatMap_cons]
    exact chars_stringCharText c ih

theorem quoted_stringText (s : String) (r : List UInt8) :
    Quoted (Utf8.encode (stringText s) ++ r) s r := by
  have hquote : String.utf8EncodeChar '"' = ['"'.toUInt8] := by decide
  have hquoted := Quoted.mk r (chars_stringText s.toList)
  rw [String.ofList_toList] at hquoted
  simpa [stringText, hquote] using hquoted

/-! ### Pieces of a text -/

mutual

/-- The text of a document, cut wherever blanks may stand. -/
def pieces : Value → List (List Char)
  | .null => [chars .null]
  | .bool b => [chars (.bool b)]
  | .number n => [chars (.number n)]
  | .string s => [chars (.string s)]
  | .array [] => [['['], [']']]
  | .array (v :: rest) => ['['] :: (pieces v ++ laterItemPieces rest)
  | .object [] => [['\x7b'], ['\x7d']]
  | .object ((name, v) :: rest) =>
    ['\x7b'] :: stringText name :: [':'] :: (pieces v ++ laterMemberPieces rest)

def laterItemPieces : List Value → List (List Char)
  | [] => [[']']]
  | v :: rest => [','] :: (pieces v ++ laterItemPieces rest)

def laterMemberPieces : List (String × Value) → List (List Char)
  | [] => [['\x7d']]
  | (name, v) :: rest => [','] :: stringText name :: [':'] :: (pieces v ++ laterMemberPieces rest)

end

mutual

theorem flatten_pieces : ∀ v : Value, v.pieces.flatten = v.chars
  | .null | .bool _ | .number _ | .string _ => by simp [pieces]
  | .array [] => rfl
  | .array (v :: rest) => by
    simp [pieces, chars, flatten_pieces v, flatten_laterItemPieces rest]
  | .object [] => rfl
  | .object ((name, v) :: rest) => by
    simp [pieces, chars, flatten_pieces v, flatten_laterMemberPieces rest]

theorem flatten_laterItemPieces : ∀ items : List Value,
    (laterItemPieces items).flatten = laterItems items
  | [] => rfl
  | v :: rest => by
    simp [laterItemPieces, laterItems, flatten_pieces v, flatten_laterItemPieces rest]

theorem flatten_laterMemberPieces : ∀ members : List (String × Value),
    (laterMemberPieces members).flatten = laterMembers members
  | [] => rfl
  | (name, v) :: rest => by
    simp [laterMemberPieces, laterMembers, flatten_pieces v, flatten_laterMemberPieces rest]

end

/-- A text of pieces in their order, with any blanks in front of, between and behind them. -/
inductive Spaced : List (List Char) → List UInt8 → Prop
  | nil {t : List UInt8} : Blanks t [] → Spaced [] t
  | cons {piece : List Char} {ps : List (List Char)} {t r : List UInt8} :
    Blanks t (Utf8.encode piece ++ r) → Spaced ps r → Spaced (piece :: ps) t

theorem spaced_flatten (ps : List (List Char)) : Spaced ps (Utf8.encode ps.flatten) := by
  induction ps with
  | nil => exact .nil (.none [])
  | cons piece ps ih =>
    rw [List.flatten_cons, Utf8.encode_append]
    exact .cons (.none _) ih

mutual

/-- All numbers in the document have texts that they are read from. -/
def IsLegible : Value → Prop
  | .null | .bool _ | .string _ => True
  | .number n => n.IsLegible
  | .array items => ItemsLegible items
  | .object members => MembersLegible members

def ItemsLegible : List Value → Prop
  | [] => True
  | v :: rest => IsLegible v ∧ ItemsLegible rest

def MembersLegible : List (String × Value) → Prop
  | [] => True
  | (_, v) :: rest => IsLegible v ∧ MembersLegible rest

end

/-! ### Spaced texts are of the grammar -/

section

variable {ps : List (List Char)} {t : List UInt8}

theorem exists_of_spaced_cons {piece : List Char} (h : Spaced (piece :: ps) t) :
    ∃ r, Blanks t (Utf8.encode piece ++ r) ∧ Spaced ps r := by
  cases h with
  | cons ht hr => exact ⟨_, ht, hr⟩

theorem member_of_spaced {name : String} {v : Value}
    (hv : ∀ {t : List UInt8}, Spaced (v.pieces ++ ps) t →
      ∃ t' r, Blanks t t' ∧ Denotes t' v r ∧ Spaced ps r)
    (h : Spaced (stringText name :: [':'] :: (v.pieces ++ ps)) t) :
    ∃ t' r, Blanks t t' ∧ DenotesMember t' (name, v) r ∧ Spaced ps r := by
  obtain ⟨r₁, ht, h⟩ := exists_of_spaced_cons h
  obtain ⟨r₂, hcolon, h⟩ := exists_of_spaced_cons h
  obtain ⟨t₃, r, hblanks, hvalue, hr⟩ := hv h
  exact ⟨_, r, ht, .mk (quoted_stringText name r₁) hcolon hblanks hvalue, hr⟩

mutual

/-- The pieces of a document are read as the document, up to where the blanks behind it begin. -/
theorem denotes_of_spaced : ∀ {v : Value} {ps : List (List Char)} {t : List UInt8}, v.IsLegible →
    Spaced (v.pieces ++ ps) t → ∃ t' r, Blanks t t' ∧ Denotes t' v r ∧ Spaced ps r
  | .null, ps, t, _, h => by
    obtain ⟨r, ht, hr⟩ := exists_of_spaced_cons h
    exact ⟨_, r, ht, .null r, hr⟩
  | .bool true, ps, t, _, h => by
    obtain ⟨r, ht, hr⟩ := exists_of_spaced_cons h
    exact ⟨_, r, ht, .true r, hr⟩
  | .bool false, ps, t, _, h => by
    obtain ⟨r, ht, hr⟩ := exists_of_spaced_cons h
    exact ⟨_, r, ht, .false r, hr⟩
  | .number n, ps, t, hv, h => by
    obtain ⟨r, ht, hr⟩ := exists_of_spaced_cons h
    obtain ⟨l, hl, hn⟩ := Number.exists_literal_of_isLegible hv
    exact ⟨_, r, ht, .number r hl hn, hr⟩
  | .string s, ps, t, _, h => by
    obtain ⟨r, ht, hr⟩ := exists_of_spaced_cons h
    exact ⟨_, r, ht, .string (quoted_stringText s r), hr⟩
  | .array [], ps, t, _, h => by
    obtain ⟨r, ht, h⟩ := exists_of_spaced_cons h
    obtain ⟨r', hr, h⟩ := exists_of_spaced_cons h
    exact ⟨_, r', ht, .emptyArray hr, h⟩
  | .array (v :: rest), ps, t, hv, h => by
    rw [pieces, List.cons_append, List.append_assoc] at h
    obtain ⟨r, ht, h⟩ := exists_of_spaced_cons h
    obtain ⟨t₁, r₁, hr, hfirst, h⟩ := denotes_of_spaced hv.1 h
    obtain ⟨r₂, hrest, h⟩ := moreItems_of_spaced hv.2 h
    exact ⟨_, r₂, ht, .array hr hfirst hrest, h⟩
  | .object [], ps, t, _, h => by
    obtain ⟨r, ht, h⟩ := exists_of_spaced_cons h
    obtain ⟨r', hr, h⟩ := exists_of_spaced_cons h
    exact ⟨_, r', ht, .emptyObject hr, h⟩
  | .object ((name, v) :: rest), ps, t, hv, h => by
    rw [pieces, List.cons_append, List.cons_append, List.cons_append, List.append_assoc] at h
    obtain ⟨r, ht, h⟩ := exists_of_spaced_cons h
    obtain ⟨t₁, r₁, hr, hfirst, h⟩ := member_of_spaced (denotes_of_spaced hv.1) h
    obtain ⟨r₂, hrest, h⟩ := moreMembers_of_spaced hv.2 h
    exact ⟨_, r₂, ht, .object hr hfirst hrest, h⟩

theorem moreItems_of_spaced : ∀ {items : List Value} {ps : List (List Char)} {t : List UInt8},
    ItemsLegible items → Spaced (laterItemPieces items ++ ps) t →
      ∃ r, MoreItems t items r ∧ Spaced ps r
  | [], ps, t, _, h => by
    obtain ⟨r, ht, h⟩ := exists_of_spaced_cons h
    exact ⟨r, .done ht, h⟩
  | v :: rest, ps, t, hv, h => by
    rw [laterItemPieces, List.cons_append, List.append_assoc] at h
    obtain ⟨r, ht, h⟩ := exists_of_spaced_cons h
    obtain ⟨t₁, r₁, hr, hfirst, h⟩ := denotes_of_spaced hv.1 h
    obtain ⟨r₂, hrest, h⟩ := moreItems_of_spaced hv.2 h
    exact ⟨r₂, .more ht hr hfirst hrest, h⟩

theorem moreMembers_of_spaced : ∀ {members : List (String × Value)} {ps : List (List Char)}
    {t : List UInt8}, MembersLegible members → Spaced (laterMemberPieces members ++ ps) t →
      ∃ r, MoreMembers t members r ∧ Spaced ps r
  | [], ps, t, _, h => by
    obtain ⟨r, ht, h⟩ := exists_of_spaced_cons h
    exact ⟨r, .done ht, h⟩
  | (name, v) :: rest, ps, t, hv, h => by
    rw [laterMemberPieces, List.cons_append, List.cons_append, List.cons_append,
      List.append_assoc] at h
    obtain ⟨r, ht, h⟩ := exists_of_spaced_cons h
    obtain ⟨t₁, r₁, hr, hfirst, h⟩ := member_of_spaced (denotes_of_spaced hv.1) h
    obtain ⟨r₂, hrest, h⟩ := moreMembers_of_spaced hv.2 h
    exact ⟨r₂, .more ht hr hfirst hrest, h⟩

end

theorem textDenotes_of_spaced {v : Value} (hv : v.IsLegible) (h : Spaced v.pieces t) :
    TextDenotes t v := by
  rw [← List.append_nil v.pieces] at h
  obtain ⟨t', r, ht, hvalue, hr⟩ := denotes_of_spaced hv h
  cases hr with
  | nil hr => exact ⟨t', r, ht, hvalue, hr⟩

theorem textDenotes_chars {v : Value} (hv : v.IsLegible) : TextDenotes (Utf8.encode v.chars) v := by
  rw [← flatten_pieces]
  exact textDenotes_of_spaced hv (spaced_flatten v.pieces)

end

end Value

/-- The text of a document, with blanks anywhere around and between its pieces, is read as the
tokens of the document, and a silent walk over it gives the document back. -/
theorem StreamWalk.walkBytes_inverts_text (w : StreamWalk) {v : Value} (hv : v.IsLegible) :
    v.pieces.flatten = v.text.toList ∧
      Value.Spaced v.pieces (Utf8.encode v.text.toList) ∧
      ∀ t, Value.Spaced v.pieces t →
        (∃ z, TokenSource.Spells (Lexer.ofBytes t) v z) ∧
          (v.DistinctNames → v.nesting ≤ w.limits.maxDepth →
            (w.walkBytes .silent () t).result = .ok v) := by
  have hpieces : v.pieces.flatten = v.text.toList := by
    rw [Value.text, String.toList_ofList, Value.flatten_pieces]
  refine ⟨hpieces, ?_, fun t ht => ?_⟩
  · rw [← hpieces]
    exact Value.spaced_flatten v.pieces
  · have htext := Value.textDenotes_of_spaced hv ht
    exact ⟨Lexer.exists_spells_iff.2 htext, fun hnames hn =>
      walkBytes_silent_eq_ok_iff.2 ⟨hnames, hn, htext⟩⟩

/-- Escapes, the integers at both ends of their range, a floating point number and containers inside
one another, printed, and a text with blanks. -/
theorem StreamWalk.walkBytes_inverts_text_of_all_kinds :
    let v : Value := .object [("\"\\\n\x01/é", .array [.number (.int (-9223372036854775808)),
      .number (.int 18446744073709551615), .number (.float ⟨false, 6755399441055744, -52⟩)]),
      ("", .object [])]
    let w : StreamWalk := { limits := { maxDepth := 2 } }
    v.IsLegible ∧ v.DistinctNames ∧ v.nesting ≤ w.limits.maxDepth ∧
      (w.walkBytes .silent () (Utf8.encode v.text.toList)).result = .ok v ∧
      (w.walkBytes .silent () (ascii " [\tfalse\n] ")).result = .ok (.array [.bool false]) := by
  intro v w
  have hleast : (Number.int (-9223372036854775808)).IsLegible := ⟨by decide, by decide⟩
  have hgreatest : (Number.int 18446744073709551615).IsLegible := ⟨by decide, by decide⟩
  have hfloat : Number.ofLiteral? (Number.floatChars ⟨false, 6755399441055744, -52⟩) =
      some (.float ⟨false, 6755399441055744, -52⟩) := by decide +kernel
  have hv : v.IsLegible := ⟨⟨hleast, hgreatest, hfloat, trivial⟩, trivial, trivial⟩
  have hnames : v.DistinctNames := by
    simp [v, Value.DistinctNames, Value.MembersDistinct, Value.ItemsDistinct]
  have hn : v.nesting ≤ w.limits.maxDepth := by decide
  obtain ⟨-, hcompact, hspaced⟩ := walkBytes_inverts_text w hv
  have hblanks : Value.Spaced (Value.array [.bool false]).pieces (ascii " [\tfalse\n] ") :=
    .cons (r := ascii "\tfalse\n] ") (.more (by decide) (.none _))
      (.cons (r := ascii "\n] ") (.more (by decide) (.none _))
        (.cons (r := ascii " ") (.more (by decide) (.none _)) (.nil (.more (by decide) (.none _)))))
  have hfalse : (Value.array [.bool false]).IsLegible := ⟨trivial, trivial⟩
  obtain ⟨-, -, hspaced'⟩ := walkBytes_inverts_text w hfalse
  exact ⟨hv, hnames, hn, (hspaced _ hcompact).2 hnames hn,
    (hspaced' _ hblanks).2 ⟨trivial, trivial⟩ (by decide)⟩

end JsonWalk
