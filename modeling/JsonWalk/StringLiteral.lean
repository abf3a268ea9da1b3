import JsonWalk.Text.Utf8

/-!
# The text of a string literal

The bytes between the quotes are taken as they are if no backslash is among them; otherwise escapes
are resolved from left to right, and a fault names the line and column where reading stopped. Both
count from the opening quote, the line from one, the column in bytes.
-/

namespace JsonWalk.StringLiteral

inductive EscapeFault where
  | controlCharacter
  | invalidEscape
  | unfinished
  | loneSurrogate
  | missingSurrogate
  | invalidUtf8
deriving DecidableEq, Repr

inductive Fault where
  | controlCharacter
  | invalidUtf8
  | escape (fault : EscapeFault) (line column : Nat)
deriving DecidableEq, Repr

namespace EscapeFault

def text : EscapeFault → String
  | .controlCharacter => "control character (\\u0000-\\u001F) found while parsing a string"
  | .invalidEscape => "invalid escape"
  | .unfinished => "EOF while parsing a string"
  | .loneSurrogate => "lone leading surrogate in hex escape"
  | .missingSurrogate => "unexpected end of hex escape"
  | .invalidUtf8 => "invalid unicode code point"

end EscapeFault

namespace Fault

def text : Fault → String
  | .controlCharacter => "control character in string"
  | .invalidUtf8 => "invalid UTF-8 in string"
  | .escape fault line column => fault.text ++ s!" at line {line} column {column}"

end Fault

def quoteByte : UInt8 := 0x22
def escapeByte : UInt8 := 0x5C

/-- Reading stopped on a fault with these bytes still unread. -/
structure Stop where
  fault : EscapeFault
  unread : List UInt8

def hexDigit? (b : UInt8) : Option Nat :=
  if 0x30 ≤ b ∧ b ≤ 0x39 then some (b.toNat - 0x30)
  else if 0x41 ≤ b ∧ b ≤ 0x46 then some (b.toNat - 0x41 + 10)
  else if 0x61 ≤ b ∧ b ≤ 0x66 then some (b.toNat - 0x61 + 10)
  else none

def readUnit : List UInt8 → Except Stop (Nat × List UInt8)
  | a :: b :: c :: d :: rest =>
    match hexDigit? a, hexDigit? b, hexDigit? c, hexDigit? d with
    | some a, some b, some c, some d => .ok (((a * 16 + b) * 16 + c) * 16 + d, rest)
    | _, _, _, _ => .error ⟨.invalidEscape, rest⟩
  | _ => .error ⟨.unfinished, []⟩

def require (b : UInt8) : List UInt8 → Except Stop (List UInt8)
  | a :: rest => if a = b then .ok rest else .error ⟨.missingSurrogate, rest⟩
  | [] => .error ⟨.missingSurrogate, []⟩

def readEscapedUnits (bytes : List UInt8) : Except Stop (List UInt8 × List UInt8) := do
  let (unit, rest) ← readUnit bytes
  if 0xDC00 ≤ unit ∧ unit ≤ 0xDFFF then .error ⟨.loneSurrogate, rest⟩
  else if 0xD800 ≤ unit ∧ unit ≤ 0xDBFF then
    let rest ← require escapeByte rest
    let rest ← require 0x75 rest
    let (low, rest) ← readUnit rest
    if 0xDC00 ≤ low ∧ low ≤ 0xDFFF then
      let code := 0x10000 + (unit - 0xD800) * 0x400 + (low - 0xDC00)
      return (String.utf8EncodeChar (Char.ofNat code), rest)
    else .error ⟨.loneSurrogate, rest⟩
  else return (String.utf8EncodeChar (Char.ofNat unit), rest)

def readEscape : List UInt8 → Except Stop (List UInt8 × List UInt8)
  | [] => .error ⟨.unfinished, []⟩
  | b :: rest =>
    match b with
    | 0x22 => .ok ([0x22], rest)
    | 0x5C => .ok ([0x5C], rest)
    | 0x2F => .ok ([0x2F], rest)
    | 0x62 => .ok ([0x08], rest)
    | 0x66 => .ok ([0x0C], rest)
    | 0x6E => .ok ([0x0A], rest)
    | 0x72 => .ok ([0x0D], rest)
    | 0x74 => .ok ([0x09], rest)
    | 0x75 => readEscapedUnits rest
    | _ => .error ⟨.invalidEscape, rest⟩

def readPiece (b : UInt8) (rest : List UInt8) : Except Stop (List UInt8 × List UInt8) :=
  if b = escapeByte then readEscape rest
  else if b < 0x20 then .error ⟨.controlCharacter, rest⟩
  else .ok ([b], rest)

theorem readUnit_length {bytes rest : List UInt8} {n : Nat}
    (h : readUnit bytes = .ok (n, rest)) : rest.length ≤ bytes.length := by
  unfold readUnit at h
  grind

theorem require_length {b : UInt8} {bytes rest : List UInt8}
    (h : require b bytes = .ok rest) : rest.length ≤ bytes.length := by
  unfold require at h
  grind

theorem readEscapedUnits_length {bytes piece rest : List UInt8}
    (h : readEscapedUnits bytes = .ok (piece, rest)) : rest.length ≤ bytes.length := by
  unfold readEscapedUnits at h
  simp only [bind, Except.bind, pure, Except.pure] at h
  grind [→ readUnit_length, → require_length]

theorem readPiece_length {b : UInt8} {bytes piece rest : List UInt8}
    (h : readPiece b bytes = .ok (piece, rest)) : rest.length ≤ bytes.length := by
  unfold readPiece readEscape at h
  grind [→ readEscapedUnits_length]

/-- Resolves the escapes of a literal up to its closing quote, its last byte, onto bytes resolved
before, latest first. -/
def unescapeOnto (done : List UInt8) : List UInt8 → Except Stop (List UInt8)
  | [] => .ok done.reverse
  | [_] => .ok done.reverse
  | b :: c :: rest =>
    match _h : readPiece b (c :: rest) with
    | .error stop => .error stop
    | .ok (piece, rest) => unescapeOnto (piece.reverse ++ done) rest
termination_by bytes => bytes.length
decreasing_by
  have := readPiece_length ‹_›
  simp_all only [List.length_cons]
  omega

/-- Line and column of the place where `unread` bytes of a literal are left. -/
def place (literal : List UInt8) (unread : Nat) : Nat × Nat :=
  let front := literal.take (literal.length - unread)
  (1 + front.count 0x0A, (front.reverse.takeWhile (· != 0x0A)).length)

def decodePlain (raw : List UInt8) : Except Fault String :=
  if raw.any (· < 0x20) then .error .controlCharacter
  else match Utf8.decode? raw with
    | some s => .ok s
    | none => .error .invalidUtf8

def decodeEscaped (raw : List UInt8) : Except Fault String :=
  let literal := quoteByte :: (raw ++ [quoteByte])
  match unescapeOnto [] literal.tail with
  | .error stop =>
    let (line, column) := place literal stop.unread.length
    .error (.escape stop.fault line column)
  | .ok bytes =>
    match Utf8.split bytes with
    | (cs, []) => .ok (String.ofList cs)
    | (_, rest) =>
      let (line, column) := place literal 0
      .error (.escape .invalidUtf8 line (column - rest.length))

def decode (raw : List UInt8) : Except Fault String :=
  if raw.contains escapeByte then decodeEscaped raw else decodePlain raw

end JsonWalk.StringLiteral
