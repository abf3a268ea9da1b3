import JsonWalk.Text.Quoted

/-!
# The lexemes of a pattern

A pattern is cut into dots, at signs, stars and names. A backslash takes the character after it
into a name, whatever it is. Every lexeme carries the place of its first character, counted in
characters, so the lexemes of a pattern lie end to end.
-/

namespace JsonWalk.Pattern

inductive LexemeKind where
  | dot
  | mark
  | star
  | name
deriving DecidableEq, Repr

namespace LexemeKind

def text : LexemeKind → String
  | .dot => "'.'"
  | .mark => "'@'"
  | .star => "'*'"
  | .name => "name"

end LexemeKind

/-- What stands at one place of a pattern; a name has its escapes removed. -/
inductive Sign where
  | dot
  | mark
  | star
  | name (chars : List Char)
deriving DecidableEq, Repr

namespace Sign

def kind : Sign → LexemeKind
  | .dot => .dot
  | .mark => .mark
  | .star => .star
  | .name _ => .name

def chars : Sign → List Char
  | .name cs => cs
  | _ => []

end Sign

structure Lexeme where
  sign : Sign
  offset : Nat
deriving DecidableEq, Repr

inductive PatternError where
  | unexpected (found : LexemeKind) (expected : List LexemeKind) (offset : Nat)
  | invalidIndex (found : List Char) (offset : Nat)
  | unexpectedEnd (offset : Nat)
  | danglingEscape (offset : Nat)
  | starInPath (offset : Nat)
deriving DecidableEq, Repr

namespace PatternError

def offset : PatternError → Nat
  | .unexpected _ _ o | .invalidIndex _ o | .unexpectedEnd o | .danglingEscape o
  | .starInPath o => o

def message : PatternError → String
  | .unexpected found expected o =>
    "Unexpected " ++ found.text ++ s!" at offset {o}, expected " ++
      " or ".intercalate (expected.map LexemeKind.text)
  | .invalidIndex found o =>
    s!"Expected array index after '@' at offset {o}, got " ++ Quoted.quote found
  | .unexpectedEnd o => s!"Unexpected end of pattern at offset {o}"
  | .danglingEscape o => s!"Dangling escape character at offset {o}"
  | .starInPath o => s!"Wildcard at offset {o} is not allowed in a concrete path"

end PatternError

/-- Puts a character of a name, standing at `offset`, in front of what follows it. -/
def glue (c : Char) (offset : Nat) : List Lexeme → List Lexeme
  | ⟨.name cs, _⟩ :: rest => ⟨.name (c :: cs), offset⟩ :: rest
  | rest => ⟨.name [c], offset⟩ :: rest

def scanFrom (offset : Nat) : List Char → Except PatternError (List Lexeme)
  | [] => .ok []
  | ['\\'] => .error (.danglingEscape offset)
  | '\\' :: c :: rest => return glue c offset (← scanFrom (offset + 2) rest)
  | '.' :: rest => return ⟨.dot, offset⟩ :: (← scanFrom (offset + 1) rest)
  | '@' :: rest => return ⟨.mark, offset⟩ :: (← scanFrom (offset + 1) rest)
  | '*' :: rest => return ⟨.star, offset⟩ :: (← scanFrom (offset + 1) rest)
  | c :: rest => return glue c offset (← scanFrom (offset + 1) rest)

def scan (text : String) : Except PatternError (List Lexeme) :=
  scanFrom 0 text.toList

end JsonWalk.Pattern
