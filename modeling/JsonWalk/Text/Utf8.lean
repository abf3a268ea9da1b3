/-!
# UTF-8

Characters of a byte list, from the front as far as it is well formed. Overlong forms, surrogates
and numbers beyond the last code point are not well formed.
-/

namespace JsonWalk.Utf8

def encode (cs : List Char) : List UInt8 := cs.flatMap String.utf8EncodeChar

/-- What the first byte of a character says: how many bytes follow, its own bits, and the least code
point that needs so many. -/
def lead? (a : UInt8) : Option (Nat × Nat × Nat) :=
  if a < 0x80 then some (0, a.toNat, 0)
  else if a < 0xC0 then none
  else if a < 0xE0 then some (1, a.toNat - 0xC0, 0x80)
  else if a < 0xF0 then some (2, a.toNat - 0xE0, 0x800)
  else some (3, a.toNat - 0xF0, 0x10000)

def follow : (count : Nat) → (code : Nat) → List UInt8 → Option (Nat × List UInt8)
  | 0, code, rest => some (code, rest)
  | _ + 1, _, [] => none
  | count + 1, code, b :: rest =>
    if 0x80 ≤ b ∧ b < 0xC0 then follow count (code * 64 + (b.toNat - 0x80)) rest else none

/-- The character with a code point, which must be no less than `least`. -/
def char? (least code : Nat) : Option Char :=
  if least ≤ code ∧ code.isValidChar then some (Char.ofNat code) else none

def decodeChar : List UInt8 → Option (Char × List UInt8)
  | [] => none
  | a :: rest => do
    let (count, code, least) ← lead? a
    let (code, rest) ← follow count code rest
    let c ← char? least code
    return (c, rest)

theorem follow_length {count code code' : Nat} {bytes rest : List UInt8}
    (h : follow count code bytes = some (code', rest)) : rest.length ≤ bytes.length := by
  fun_induction follow count code bytes <;> grind

theorem decodeChar_length {bytes rest : List UInt8} {c : Char}
    (h : decodeChar bytes = some (c, rest)) : rest.length < bytes.length := by
  cases bytes with
  | nil => cases h
  | cons a bytes =>
    simp only [decodeChar, bind, Option.bind_eq_some_iff] at h
    obtain ⟨_, _, ⟨_, _⟩, hf, _, _, he⟩ := h
    cases he
    exact Nat.lt_succ_of_le (follow_length hf)

/-- Decodes as far as the bytes are well formed, onto characters decoded before, latest first. -/
def decodeOnto (done : List Char) (bytes : List UInt8) : List Char × List UInt8 :=
  match _h : decodeChar bytes with
  | none => (done.reverse, bytes)
  | some (c, rest) => decodeOnto (c :: done) rest
termination_by bytes.length
decreasing_by exact decodeChar_length ‹_›

def split (bytes : List UInt8) : List Char × List UInt8 := decodeOnto [] bytes

def decode? (bytes : List UInt8) : Option String :=
  match split bytes with
  | (cs, []) => some (String.ofList cs)
  | _ => none

end JsonWalk.Utf8
