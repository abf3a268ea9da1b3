import JsonWalk.Limits
import JsonWalk.StringLiteral
import JsonWalk.Value

/-!
# Limits as JSON values

Limits are an object with a number for each of them, or an array of at most two numbers. What is
missing has its default. Members of other names are passed over; in a text nothing but the grammar
is asked of their values, so a number among them may be too large and a string may hold half a
surrogate pair.
-/

namespace JsonWalk.Limits

def toValue (l : Limits) : Value :=
  .object [("max_depth", .number (.int l.maxDepth)), ("read_buffer", .number (.int l.readBuffer))]

def word? : Value → Option Nat
  | .number n => n.asWord?
  | _ => none

/-- The number of the only member of a name, or the default if there is none. -/
def setting? (name : String) (default : Nat) (members : List (String × Option Nat)) : Option Nat :=
  match members.filter (·.1 == name) with
  | [] => some default
  | [(_, n)] => n
  | _ => none

/-- Limits from the members of an object; those that are no number of sixty-four bits have none. -/
def ofMembers? (members : List (String × Option Nat)) : Option Limits := do
  let maxDepth ← setting? "max_depth" ({} : Limits).maxDepth members
  let readBuffer ← setting? "read_buffer" ({} : Limits).readBuffer members
  return { maxDepth, readBuffer }

def ofItems? : List (Option Nat) → Option Limits
  | [] => some {}
  | [some maxDepth] => some { maxDepth }
  | [some maxDepth, some readBuffer] => some { maxDepth, readBuffer }
  | _ => none

def ofValue? : Value → Option Limits
  | .object members => ofMembers? (members.map fun (name, v) => (name, word? v))
  | .array items => ofItems? (items.map word?)
  | _ => none

/-! ## Reading a text -/

def isBlank (c : Char) : Bool := c == ' ' || c == '\t' || c == '\n' || c == '\r'

def skipBlanks (cs : List Char) : List Char := cs.dropWhile isBlank

def isHexDigit (c : Char) : Bool :=
  c.isDigit || ('a' ≤ c && c ≤ 'f') || ('A' ≤ c && c ≤ 'F')

def skimString : List Char → Option (List Char)
  | [] => none
  | '"' :: rest => some rest
  | '\\' :: 'u' :: a :: b :: c :: d :: rest =>
    if [a, b, c, d].all isHexDigit then skimString rest else none
  | '\\' :: c :: rest =>
    if ['"', '\\', '/', 'b', 'f', 'n', 'r', 't'].contains c then skimString rest else none
  | c :: rest => if c.toNat < 0x20 then none else skimString rest

mutual

def skimValue : (fuel : Nat) → List Char → Option (List Char)
  | 0, _ => none
  | fuel + 1, cs =>
    match skipBlanks cs with
    | '"' :: rest => skimString rest
    | '[' :: rest =>
      match skipBlanks rest with
      | ']' :: rest => some rest
      | rest => skimItems fuel rest
    | '{' :: rest =>
      match skipBlanks rest with
      | '}' :: rest => some rest
      | rest => skimMembers fuel rest
    | 't' :: 'r' :: 'u' :: 'e' :: rest => some rest
    | 'f' :: 'a' :: 'l' :: 's' :: 'e' :: rest => some rest
    | 'n' :: 'u' :: 'l' :: 'l' :: rest => some rest
    | cs => (Numeral.read cs).map (·.2)

def skimItems : (fuel : Nat) → List Char → Option (List Char)
  | 0, _ => none
  | fuel + 1, cs => do
    match skipBlanks (← skimValue fuel cs) with
    | ',' :: rest => skimItems fuel rest
    | ']' :: rest => some rest
    | _ => none

def skimMembers : (fuel : Nat) → List Char → Option (List Char)
  | 0, _ => none
  | fuel + 1, cs => do
    match skipBlanks cs with
    | '"' :: rest =>
      match skipBlanks (← skimString rest) with
      | ':' :: rest =>
        match skipBlanks (← skimValue fuel rest) with
        | ',' :: rest => skimMembers fuel rest
        | '}' :: rest => some rest
        | _ => none
      | _ => none
    | _ => none

end

/-- The value at the front of a text, as a number if it is written without fraction and exponent and
fits sixty-four bits, and what follows it. -/
def readWord (cs : List Char) : Option (Option Nat × List Char) := do
  let rest ← skimValue (2 * cs.length + 2) cs
  let word := match Numeral.read (skipBlanks cs) with
    | some (⟨false, whole, none, none⟩, _) => Decimal.word? whole
    | _ => none
  return (word, rest)

def readString (cs : List Char) : Option (String × List Char) := do
  let rest ← skimString cs
  let raw := cs.take (cs.length - rest.length - 1)
  let s ← (StringLiteral.decode (Utf8.encode raw)).toOption
  return (s, rest)

def readItems : (fuel : Nat) → List Char → Option (List (Option Nat) × List Char)
  | 0, _ => none
  | fuel + 1, cs => do
    let (word, rest) ← readWord cs
    match skipBlanks rest with
    | ',' :: rest =>
      let (words, rest) ← readItems fuel rest
      return (word :: words, rest)
    | ']' :: rest => return ([word], rest)
    | _ => none

def readMembers : (fuel : Nat) → List Char → Option (List (String × Option Nat) × List Char)
  | 0, _ => none
  | fuel + 1, cs => do
    match skipBlanks cs with
    | '"' :: rest =>
      let (name, rest) ← readString rest
      match skipBlanks rest with
      | ':' :: rest =>
        let (word, rest) ← readWord rest
        match skipBlanks rest with
        | ',' :: rest =>
          let (members, rest) ← readMembers fuel rest
          return ((name, word) :: members, rest)
        | '}' :: rest => return ([(name, word)], rest)
        | _ => none
      | _ => none
    | _ => none

def ofText? (text : String) : Option Limits := do
  let cs := text.toList
  match skipBlanks cs with
  | '[' :: rest =>
    let (words, rest) ← match skipBlanks rest with
      | ']' :: rest => some ([], rest)
      | _ => readItems cs.length rest
    if (skipBlanks rest).isEmpty then ofItems? words else none
  | '{' :: rest =>
    let (members, rest) ← match skipBlanks rest with
      | '}' :: rest => some ([], rest)
      | _ => readMembers cs.length rest
    if (skipBlanks rest).isEmpty then ofMembers? members else none
  | _ => none

end JsonWalk.Limits
