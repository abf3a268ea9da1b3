import JsonWalk.Pattern.Atom

/-!
# Path patterns

A compiled pattern is a list of elements. Each wildcard in it knows the first literal after it, its
terminal, and no wildcard stands at the end: once every element is satisfied any deeper path is
accepted, so a wildcard there could not reject anything. Matching is one walk along the path without
backtracking.
-/

namespace JsonWalk

namespace Pattern

inductive Element where
  /-- Exactly this segment. -/
  | literal (segment : Segment)
  /-- One segment of any kind. -/
  | anyOne (terminal : Option Segment)
  /-- Segments of any kind, ended by the terminal. -/
  | anyDepth (terminal : Option Segment)
deriving DecidableEq, Repr

namespace Element

def isWildcard : Element → Bool
  | .literal _ => false
  | .anyOne _ | .anyDepth _ => true

def terminal : Element → Option Segment
  | .literal _ => none
  | .anyOne t | .anyDepth t => t

/-- The literal itself, or the one that a wildcard is bound to. -/
def target : Element → Option Segment
  | .literal s => some s
  | .anyOne t | .anyDepth t => t

def chars : Element → List Char
  | .literal s => s.chars
  | .anyOne _ => ['*']
  | .anyDepth _ => ['*', '*']

def text (e : Element) : String := String.ofList e.chars

end Element

inductive Step where
  | advance (count : Nat)
  | stay
  | mismatch
deriving DecidableEq, Repr

/-- A double star that meets its terminal is done, and so is the literal after it. A single star
takes its segment without a look at the terminal. -/
def Element.step : Element → Segment → Step
  | .literal expected, segment => if segment = expected then .advance 1 else .mismatch
  | .anyOne _, _ => .advance 1
  | .anyDepth terminal, segment => if terminal = some segment then .advance 2 else .stay

/-- Drops the wildcards at the end and binds every other one to the literal after it. -/
def bind : List Atom → List Element
  | [] => []
  | .literal s :: rest => .literal s :: bind rest
  | .star :: rest =>
    match bind rest with
    | [] => []
    | e :: es => .anyOne e.target :: e :: es
  | .doubleStar :: rest =>
    match bind rest with
    | [] => []
    | e :: es => .anyDepth e.target :: e :: es

def elementChars : List Element → List Char
  | [] => []
  | [e] => e.chars
  | e :: f :: rest => e.chars ++ '.' :: elementChars (f :: rest)

end Pattern

structure Pattern where
  elements : List Pattern.Element
deriving DecidableEq, Repr, Inhabited

namespace Pattern

def identity : Pattern := ⟨[]⟩

def isIdentity (p : Pattern) : Bool := p.elements.isEmpty

def compile (text : String) : Except PatternError Pattern := do
  let lexemes ← scan text
  let atoms ← atoms text.toList.length lexemes
  return ⟨bind atoms⟩

def chars (p : Pattern) : List Char := elementChars p.elements

def text (p : Pattern) : String := String.ofList p.chars

/-- Where the walk stands after a segment, `none` after a mismatch. Behind the last element it
stays. -/
def advance (p : Pattern) (cursor : Nat) (segment : Segment) : Option Nat :=
  match p.elements[cursor]? with
  | none => some cursor
  | some e =>
    match e.step segment with
    | .advance count => some (cursor + count)
    | .stay => some cursor
    | .mismatch => none

def walk (p : Pattern) : Nat → Path → Option Nat
  | cursor, [] => some cursor
  | cursor, s :: rest =>
    match p.advance cursor s with
    | none => none
    | some next => p.walk next rest

/-- A path is accepted if the walk along it comes behind the last element. -/
def accepts (p : Pattern) (path : Path) : Bool :=
  match p.walk 0 path with
  | none => false
  | some cursor => decide (p.elements.length ≤ cursor)

end Pattern

namespace Path

/-- Reads a written path: a pattern without stars. A star is reported before anything else that is
wrong with the lexemes. -/
def parse (text : String) : Except Pattern.PatternError Path := do
  let lexemes ← Pattern.scan text
  match lexemes.find? (·.sign = .star) with
  | some star => .error (.starInPath star.offset)
  | none =>
    let atoms ← Pattern.atoms text.toList.length lexemes
    return atoms.filterMap fun
      | .literal s => some s
      | .star | .doubleStar => none

end Path
end JsonWalk
