import JsonWalk.Path
import JsonWalk.Pattern.Lexeme

/-!
# The atoms of a pattern

A pattern is empty or a list of atoms separated by dots. An atom is a member name, an at sign and a
position, one star or two stars. Reading goes from left to right and stops at the first lexeme that
cannot stand where it does.
-/

namespace JsonWalk.Pattern

inductive Atom where
  | literal (segment : Segment)
  | star
  | doubleStar
deriving DecidableEq, Repr

inductive Stage where
  /-- An atom begins here. -/
  | atom
  /-- An at sign was read. -/
  | index
  /-- An atom has ended. -/
  | separator
  /-- One star was read. -/
  | star

def Stage.expected : Stage → List LexemeKind
  | .atom => [.star, .name, .mark]
  | .index => [.name]
  | .separator => [.dot]
  | .star => [.star, .dot]

/-- Reads on from `stage`; `stop` is the place after the last character. -/
def readAtoms (stop : Nat) : Stage → List Lexeme → Except PatternError (List Atom)
  | .atom, [] => .error (.unexpectedEnd stop)
  | .index, [] => .error (.unexpectedEnd stop)
  | .separator, [] => .ok []
  | .star, [] => .ok [.star]
  | .atom, ⟨.name cs, _⟩ :: rest =>
    return .literal (.member (String.ofList cs)) :: (← readAtoms stop .separator rest)
  | .atom, ⟨.mark, _⟩ :: rest => readAtoms stop .index rest
  | .atom, ⟨.star, _⟩ :: rest => readAtoms stop .star rest
  | .index, ⟨.name cs, o⟩ :: rest =>
    match Decimal.word? cs with
    | some position => return .literal (.index position) :: (← readAtoms stop .separator rest)
    | none => .error (.invalidIndex cs o)
  | .separator, ⟨.dot, _⟩ :: rest => readAtoms stop .atom rest
  | .star, ⟨.dot, _⟩ :: rest => return .star :: (← readAtoms stop .atom rest)
  | .star, ⟨.star, _⟩ :: rest => return .doubleStar :: (← readAtoms stop .separator rest)
  | stage, ⟨sign, o⟩ :: _ => .error (.unexpected sign.kind stage.expected o)

def atoms (stop : Nat) : List Lexeme → Except PatternError (List Atom)
  | [] => .ok []
  | lexemes => readAtoms stop .atom lexemes

end JsonWalk.Pattern
