import JsonWalk.Text.Utf8
import JsonWalk.Value

/-!
# The grammar of JSON texts

What RFC 8259 calls a JSON text, as bytes in UTF-8, and the document it denotes. A relation between
a text and a rest says that what it describes stands at the front of the text and that the rest is
behind it. Names may repeat here.
-/

namespace JsonWalk.Grammar

def ascii (s : String) : List UInt8 := s.toList.map Char.toUInt8

def blanks : List UInt8 := ascii " \t\n\x0d"

inductive Blanks : List UInt8 → List UInt8 → Prop
  | none (t : List UInt8) : Blanks t t
  | more {b : UInt8} {t r : List UInt8} : b ∈ blanks → Blanks t r → Blanks (b :: t) r

/-! ### Strings -/

/-- The digit `c`, in either case, for a number below sixteen. -/
def IsHex (c : Char) (n : Nat) : Prop :=
  n < 16 ∧ (c = n.digitChar ∨ c = n.digitChar.toUpper)

inductive HexUnit : List Char → Nat → Prop
  | mk {a b c d : Char} {i j k l : Nat} : IsHex a i → IsHex b j → IsHex c k → IsHex d l →
    HexUnit [a, b, c, d] (((i * 16 + j) * 16 + k) * 16 + l)

def shortEscapes : List (Char × Char) :=
  [('"', '"'), ('\\', '\\'), ('/', '/'), ('b', '\x08'), ('f', '\x0c'), ('n', '\n'), ('r', '\x0d'),
    ('t', '\t')]

/-- A character by its number in UTF-16. Surrogates come in pairs of a leading and a trailing
one. -/
inductive Units : List Char → Char → Prop
  | unit {u : List Char} {n : Nat} : HexUnit u n → ¬ (0xD800 ≤ n ∧ n ≤ 0xDFFF) →
    Units u (Char.ofNat n)
  | pair {u w : List Char} {m n : Nat} : HexUnit u m → 0xD800 ≤ m ∧ m ≤ 0xDBFF →
    HexUnit w n → 0xDC00 ≤ n ∧ n ≤ 0xDFFF →
    Units (u ++ '\\' :: 'u' :: w) (Char.ofNat (0x10000 + (m - 0xD800) * 0x400 + (n - 0xDC00)))

inductive Escape : List Char → Char → Prop
  | short {e c : Char} : (e, c) ∈ shortEscapes → Escape [e] c
  | units {u : List Char} {c : Char} : Units u c → Escape ('u' :: u) c

/-- What stands between the quotes of a string, and the characters it denotes. -/
inductive Chars : List Char → List Char → Prop
  | nil : Chars [] []
  | plain {c : Char} {text cs : List Char} : 0x20 ≤ c.toNat → c ≠ '"' → c ≠ '\\' → Chars text cs →
    Chars (c :: text) (c :: cs)
  | escape {c : Char} {e text cs : List Char} : Escape e c → Chars text cs →
    Chars ('\\' :: (e ++ text)) (c :: cs)

inductive Quoted : List UInt8 → String → List UInt8 → Prop
  | mk {text cs : List Char} (r : List UInt8) : Chars text cs →
    Quoted ('"'.toUInt8 :: (Utf8.encode text ++ '"'.toUInt8 :: r)) (String.ofList cs) r

/-! ### Numbers -/

def IsDigits (ds : List Char) : Prop := ds ≠ [] ∧ ∀ c ∈ ds, c.isDigit

inductive Fraction : Option (List Char) → List Char → Prop
  | none : Fraction none []
  | some {ds : List Char} : IsDigits ds → Fraction (some ds) ('.' :: ds)

/-- An exponent with its sign; no sign counts as plus. -/
inductive Exponent : Option (Bool × List Char) → List Char → Prop
  | none : Exponent none []
  | unsigned {e : Char} {ds : List Char} : e = 'e' ∨ e = 'E' → IsDigits ds →
    Exponent (some (false, ds)) (e :: ds)
  | plus {e : Char} {ds : List Char} : e = 'e' ∨ e = 'E' → IsDigits ds →
    Exponent (some (false, ds)) (e :: '+' :: ds)
  | minus {e : Char} {ds : List Char} : e = 'e' ∨ e = 'E' → IsDigits ds →
    Exponent (some (true, ds)) (e :: '-' :: ds)

inductive Literal : Numeral → List Char → Prop
  | mk {whole f e : List Char} {fraction : Option (List Char)}
      {exponent : Option (Bool × List Char)} (negative : Bool) :
    IsDigits whole → whole = ['0'] ∨ whole.head? ≠ some '0' → Fraction fraction f →
      Exponent exponent e →
      Literal ⟨negative, whole, fraction, exponent⟩
        ((if negative then ['-'] else []) ++ (whole ++ (f ++ e)))

/-! ### Values -/

mutual

/-- A value. The grammar leaves the precision of numbers open: a literal denotes the number that is
read for it, if there is one in range. -/
inductive Denotes : List UInt8 → Value → List UInt8 → Prop
  | null (r : List UInt8) : Denotes (ascii "null" ++ r) .null r
  | true (r : List UInt8) : Denotes (ascii "true" ++ r) (.bool true) r
  | false (r : List UInt8) : Denotes (ascii "false" ++ r) (.bool false) r
  | number {l : Numeral} {cs : List Char} {n : Number} (r : List UInt8) :
    Literal l cs → l.number = some n → Denotes (Utf8.encode cs ++ r) (.number n) r
  | string {t r : List UInt8} {s : String} : Quoted t s r → Denotes t (.string s) r
  | emptyArray {t r : List UInt8} : Blanks t (']'.toUInt8 :: r) →
    Denotes ('['.toUInt8 :: t) (.array []) r
  | array {t t₁ t₂ r : List UInt8} {v : Value} {items : List Value} :
    Blanks t t₁ → Denotes t₁ v t₂ → MoreItems t₂ items r →
      Denotes ('['.toUInt8 :: t) (.array (v :: items)) r
  | emptyObject {t r : List UInt8} : Blanks t ('\x7d'.toUInt8 :: r) →
    Denotes ('\x7b'.toUInt8 :: t) (.object []) r
  | object {t t₁ t₂ r : List UInt8} {m : String × Value} {members : List (String × Value)} :
    Blanks t t₁ → DenotesMember t₁ m t₂ → MoreMembers t₂ members r →
      Denotes ('\x7b'.toUInt8 :: t) (.object (m :: members)) r

/-- The rest of an array behind an element. -/
inductive MoreItems : List UInt8 → List Value → List UInt8 → Prop
  | done {t r : List UInt8} : Blanks t (']'.toUInt8 :: r) → MoreItems t [] r
  | more {t t₁ t₂ t₃ r : List UInt8} {v : Value} {items : List Value} :
    Blanks t (','.toUInt8 :: t₁) → Blanks t₁ t₂ → Denotes t₂ v t₃ → MoreItems t₃ items r →
      MoreItems t (v :: items) r

inductive DenotesMember : List UInt8 → String × Value → List UInt8 → Prop
  | mk {t t₁ t₂ t₃ r : List UInt8} {name : String} {v : Value} :
    Quoted t name t₁ → Blanks t₁ (':'.toUInt8 :: t₂) → Blanks t₂ t₃ → Denotes t₃ v r →
      DenotesMember t (name, v) r

/-- The rest of an object behind a member. -/
inductive MoreMembers : List UInt8 → List (String × Value) → List UInt8 → Prop
  | done {t r : List UInt8} : Blanks t ('\x7d'.toUInt8 :: r) → MoreMembers t [] r
  | more {t t₁ t₂ t₃ r : List UInt8} {m : String × Value} {members : List (String × Value)} :
    Blanks t (','.toUInt8 :: t₁) → Blanks t₁ t₂ → DenotesMember t₂ m t₃ →
      MoreMembers t₃ members r → MoreMembers t (m :: members) r

end

/-- A whole text is one value, with blanks around it. -/
def TextDenotes (text : List UInt8) (v : Value) : Prop :=
  ∃ t r, Blanks text t ∧ Denotes t v r ∧ Blanks r []

end JsonWalk.Grammar
