import JsonWalk.StringLiteral
import JsonWalk.Token

/-!
# What can end a walk early

Text that is no JSON, tokens that form no document, too much nesting, a reader that fails, and what
a listener reports.
-/

namespace JsonWalk

inductive TextFault where
  | endOfInput
  | trailing
  | expectedItemSeparator
  | expectedMemberSeparator
  | expectedName
  | expectedColon
  | expectedValue
  | expectedWord (word : List UInt8)
  | invalidNumber (raw : List UInt8)
  | invalidString (fault : StringLiteral.Fault)
deriving DecidableEq, Repr

namespace TextFault

def asciiText (bytes : List UInt8) : String := String.ofList (bytes.map fun b => Char.ofNat b.toNat)

def text : TextFault → String
  | .endOfInput => "unexpected end of input"
  | .trailing => "trailing characters"
  | .expectedItemSeparator => "expected ',' or ']'"
  | .expectedMemberSeparator => "expected ',' or '\x7d'"
  | .expectedName => "expected member name"
  | .expectedColon => "expected ':'"
  | .expectedValue => "unexpected character"
  | .expectedWord word => "expected '" ++ asciiText word ++ "'"
  | .invalidNumber raw => "invalid number '" ++ asciiText raw ++ "'"
  | .invalidString fault => fault.text

end TextFault

inductive Misfit where
  | token (kind : TokenKind)
  | repeatedName
deriving DecidableEq, Repr

def Misfit.text : Misfit → String
  | .token kind => kind.text
  | .repeatedName => "duplicate member name"

/-- Requests that a listener may make once for a node. -/
inductive Misuse where
  | skippedTwice
  | detachedTwice
deriving DecidableEq, Repr

def Misuse.text : Misuse → String
  | .skippedTwice => "skip() called twice for one node"
  | .detachedTwice => "detach() called twice for one node"

inductive WalkError where
  /-- The tokens form no document; `within` is the innermost open node. -/
  | structural (found : Misfit) (within : Option NodeKind)
  | malformed (offset : Nat) (fault : TextFault)
  | tooDeep (limit : Nat)
  | misuse (request : Misuse)
  /-- A value is not of the type that was asked for. -/
  | undecodable
  | readFailed
  | aborted (reason : String)
deriving DecidableEq, Repr

namespace WalkError

/-- The wording of an error; a value that is not of its type is reported without one. -/
def message? : WalkError → Option String
  | .structural found none => "Unexpected " ++ found.text ++ " at top level"
  | .structural found (some kind) => "Unexpected " ++ found.text ++ " inside " ++ kind.text
  | .malformed offset fault => s!"Malformed JSON at offset {offset}: " ++ fault.text
  | .tooDeep limit => s!"Nesting depth limit of {limit} exceeded"
  | .misuse request => "Invalid operation: " ++ request.text
  | .undecodable => none
  | .readFailed => "read failed"
  | .aborted reason => "Traversal aborted: " ++ reason

end WalkError
end JsonWalk
