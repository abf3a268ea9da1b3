import JsonWalk.Input
import JsonWalk.TokenSource

/-!
# Tokens of a JSON text

The lexer reads a byte at a time and checks the punctuation between the tokens, so commas and colons
never show up as tokens. It remembers which containers are open and what may come next in each of
them. What it has read and where it stands is kept after a fault.
-/

namespace JsonWalk

/-- An open container and what has been read of it. -/
inductive Scope where
  | emptyArray
  | array
  | emptyObject
  | object
  /-- An object whose latest member has a name but no value yet. -/
  | member
deriving DecidableEq, Repr

structure Lexer where
  input : Input
  offset : Nat
  /-- The open containers, innermost first. -/
  scopes : List Scope
  /-- Whether the document has begun. -/
  begun : Bool
deriving DecidableEq, Repr

abbrev LexM := EStateM WalkError Lexer

namespace Lexer

def ofInput (i : Input) : Lexer := ⟨i, 0, [], false⟩

def ofBytes (bytes : List UInt8) : Lexer := ofInput (.ofBytes bytes)

def content (x : Lexer) : List UInt8 := x.input.content

def fail {α : Type} (fault : TextFault) : LexM α := do
  throw (.malformed (← get).offset fault)

def peek : LexM (Option UInt8) := fun x =>
  match x.input.fill with
  | some i => .ok i.buffer.head? { x with input := i }
  | none => .error .readFailed x

def advance (x : Lexer) : Lexer := { x with input := x.input.drop, offset := x.offset + 1 }

def nextByte : LexM UInt8 := do
  match ← peek with
  | some b => modify advance; return b
  | none => fail .endOfInput

theorem content_of_peek {x y : Lexer} {b : Option UInt8} (h : peek x = .ok b y) :
    y.content = x.content := by
  unfold peek at h
  split at h
  · next hf => cases h; exact Input.fill_content hf
  · cases h

theorem content_advance_of_peek {x y : Lexer} {b : UInt8} (h : peek x = .ok (some b) y) :
    b :: y.advance.content = x.content := by
  rw [← content_of_peek h]
  unfold peek at h
  split at h
  · next i _ =>
    obtain ⟨_ | ⟨a, buffer⟩, pending, capacity⟩ := i
    · cases h
    · cases h; rfl
  · cases h

theorem length_advance_of_peek {x y : Lexer} {b : UInt8} (h : peek x = .ok (some b) y) :
    y.advance.content.length < x.content.length := by
  rw [← content_advance_of_peek h]
  exact Nat.lt_succ_self _

/-- Takes bytes for as long as `step` has a next state, onto bytes taken before, latest first. -/
def takeOnto {κ : Type} (step : κ → UInt8 → Option κ) (k : κ) (taken : List UInt8) (x : Lexer) :
    EStateM.Result WalkError Lexer (List UInt8) :=
  match _h : peek x with
  | .error e y => .error e y
  | .ok none y => .ok taken.reverse y
  | .ok (some b) y =>
    match step k b with
    | none => .ok taken.reverse y
    | some k => takeOnto step k (b :: taken) y.advance
termination_by x.content.length
decreasing_by exact length_advance_of_peek ‹_›

def takeRun {κ : Type} (step : κ → UInt8 → Option κ) (k : κ) : LexM (List UInt8) :=
  takeOnto step k []

def takeWhile (p : UInt8 → Bool) : LexM (List UInt8) :=
  takeRun (fun _ b => if p b then some () else none) ()

def isBlank (b : UInt8) : Bool := b == 0x20 || b == 0x09 || b == 0x0A || b == 0x0D

def skipBlanks : LexM Unit := do
  let _ ← takeWhile isBlank

def expectMore : LexM UInt8 := do
  skipBlanks
  match ← peek with
  | some b => return b
  | none => fail .endOfInput

def setScope (s : Scope) : LexM Unit :=
  modify fun x => { x with scopes := match x.scopes with
    | [] => []
    | _ :: outer => s :: outer }

def openScope (s : Scope) : LexM Unit := do
  let _ ← nextByte
  modify fun x => { x with scopes := s :: x.scopes }

def close : LexM Token := do
  let _ ← nextByte
  let scopes := (← get).scopes
  modify fun x => { x with scopes := scopes.tail }
  match scopes with
  | .emptyArray :: _ | .array :: _ => return .endArray
  | _ => return .endObject

def readWord (start : Nat) (word : List UInt8) : List UInt8 → LexM Unit
  | [] => pure ()
  | expected :: rest => do
    let b ← nextByte
    if b = expected then readWord start word rest
    else throw (.malformed start (.expectedWord word))

def readLiteral (word : List UInt8) (token : Token) : LexM Token := do
  readWord (← get).offset word word
  return token

def isNumberByte (b : UInt8) : Bool :=
  (0x30 ≤ b && b ≤ 0x39) || b == 0x2D || b == 0x2B || b == 0x2E || b == 0x65 || b == 0x45

def readNumber : LexM Token := do
  let start := (← get).offset
  let raw ← takeWhile isNumberByte
  match Number.ofLiteral? (raw.map fun b => Char.ofNat b.toNat) with
  | some n => return .number n
  | none => throw (.malformed start (.invalidNumber raw))

/-- Goes on inside a string until a quote that no backslash stands in front of; the state tells
whether one does. -/
def stringStep (escaped : Bool) (b : UInt8) : Option Bool :=
  if escaped then some false
  else if b = StringLiteral.quoteByte then none
  else some (b == StringLiteral.escapeByte)

def readString : LexM String := do
  let start := (← get).offset
  let _ ← nextByte
  let raw ← takeRun stringStep false
  let _ ← nextByte
  match StringLiteral.decode raw with
  | .ok s => return s
  | .error fault => throw (.malformed start (.invalidString fault))

def readName (b : UInt8) : LexM Token := do
  if b = StringLiteral.quoteByte then
    let name ← readString
    setScope .member
    return .name name
  else fail .expectedName

def readValue (b : UInt8) : LexM Token := do
  if b = 0x7B then openScope .emptyObject; return .beginObject
  else if b = 0x5B then openScope .emptyArray; return .beginArray
  else if b = StringLiteral.quoteByte then return .string (← readString)
  else if b = 0x74 then readLiteral [0x74, 0x72, 0x75, 0x65] (.bool true)
  else if b = 0x66 then readLiteral [0x66, 0x61, 0x6C, 0x73, 0x65] (.bool false)
  else if b = 0x6E then readLiteral [0x6E, 0x75, 0x6C, 0x6C] .null
  else if b = 0x2D ∨ (0x30 ≤ b ∧ b ≤ 0x39) then readNumber
  else fail .expectedValue

/-- Reads the token that begins with `b`, and the punctuation in front of it. -/
def readToken (b : UInt8) : LexM Token := do
  let x ← get
  match x.scopes with
  | [] =>
    if x.begun then fail .trailing
    else
      modify fun x => { x with begun := true }
      readValue b
  | .emptyArray :: _ =>
    if b = 0x5D then close
    else
      setScope .array
      readValue b
  | .array :: _ =>
    if b = 0x5D then close
    else if b = 0x2C then
      let _ ← nextByte
      readValue (← expectMore)
    else fail .expectedItemSeparator
  | .emptyObject :: _ =>
    if b = 0x7D then close else readName b
  | .object :: _ =>
    if b = 0x7D then close
    else if b = 0x2C then
      let _ ← nextByte
      readName (← expectMore)
    else fail .expectedMemberSeparator
  | .member :: _ =>
    if b = 0x3A then
      let _ ← nextByte
      setScope .object
      readValue (← expectMore)
    else fail .expectedColon

/-- The next token. The input may end only outside of all containers. -/
def next : LexM Token := do
  skipBlanks
  match ← peek with
  | some b => readToken b
  | none => if (← get).scopes.isEmpty then return .endOfInput else fail .endOfInput

end Lexer
end JsonWalk
