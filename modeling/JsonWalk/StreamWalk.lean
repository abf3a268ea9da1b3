import JsonWalk.Assembly
import JsonWalk.Lexer.Progress
import JsonWalk.Limits

/-!
# Walks over tokens

A stream walk takes tokens from a source, reports the nodes of the document as they are entered and
left, and builds the document. It ends at the end of the input, or at the first token that fits no
document, or where a listener or the source fails.
-/

namespace JsonWalk

structure StreamEnd (τ σ : Type) where
  result : Except WalkError Value
  /-- The listener's state. -/
  state : σ
  /-- What was under construction. -/
  assembly : Assembly
  /-- The source behind the last token taken. -/
  source : τ

namespace Assembly

variable {τ σ : Type}

def clear (a : Assembly) : Assembly :=
  { a with frames := [], path := [], depth := 0, document := none }

/-- The document, if the input may end here. -/
def finish (a : Assembly) : Except WalkError Value :=
  match a.frames, a.document with
  | [], some v => .ok v
  | _, _ => .error (a.unexpected .endOfInput)

def run [TokenSource τ] (l : Listener σ) (limit : Nat) (a : Assembly) (s : σ) (source : τ) :
    StreamEnd τ σ :=
  let (result, (assembly, state), source) :=
    TokenSource.run (AssemblyM.feed l limit) (·.1.finish) (a, s) source
  { result, state, assembly, source }

end Assembly

/-- A walker that can be used again and again. -/
structure StreamWalk where
  limits : Limits := {}
  /-- What the latest walk left under construction. Every walk clears it first. -/
  leftover : Assembly := {}

namespace StreamWalk

variable {τ σ : Type}

def walk [TokenSource τ] (w : StreamWalk) (l : Listener σ) (s : σ) (source : τ) : StreamEnd τ σ :=
  Assembly.run l w.limits.maxDepth w.leftover.clear s source

theorem walk_eq_run [TokenSource τ] (w : StreamWalk) (l : Listener σ) (s : σ) (source : τ) :
    w.walk l s source = Assembly.run l w.limits.maxDepth {} s source := rfl

def next (w : StreamWalk) (e : StreamEnd τ σ) : StreamWalk := { w with leftover := e.assembly }

def walkBytes (w : StreamWalk) (l : Listener σ) (s : σ) (bytes : List UInt8) :
    StreamEnd Lexer σ :=
  w.walk l s (Lexer.ofBytes bytes)

def walkReader (w : StreamWalk) (l : Listener σ) (s : σ) (answers : List Delivery) :
    StreamEnd Lexer σ :=
  w.walk l s (Lexer.ofInput (.ofReader w.limits.readBuffer answers))

end StreamWalk

/-- The document that a text denotes. No text is nested deeper than it is long. -/
def Value.ofBytes (bytes : List UInt8) : Except WalkError Value :=
  (StreamWalk.walkBytes { limits := { maxDepth := bytes.length } } .silent () bytes).result

end JsonWalk
