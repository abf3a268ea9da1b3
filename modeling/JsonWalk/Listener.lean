import JsonWalk.Path
import JsonWalk.WalkError

/-!
# Listeners

A walk reports every node when it is entered and, after all nodes inside it, when it is left. A
member of an object is a node of its own around its value and has the same path. On entry a
listener may skip a node: then neither its exit nor anything inside it is reported. On exit it may
detach it: a member leaves its object, any other node leaves `null` in its place. Either callback
may fail, which ends the walk.
-/

namespace JsonWalk

structure Entry where
  kind : NodeKind
  path : Path
  skipped : Bool := false

/-- A node as it is left, with the value built for it; a member's is the value it has. -/
structure Exit where
  kind : NodeKind
  path : Path
  value : Value
  /-- The name of a member, at the member and at its value. -/
  property : Option String
  /-- The position of an array element. -/
  position : Option Nat
  detached : Bool := false

namespace Entry

def skip (e : Entry) : Except WalkError Entry :=
  if e.skipped then .error (.misuse .skippedTwice) else .ok { e with skipped := true }

end Entry

namespace Exit

def detach (e : Exit) : Except WalkError (Value × Exit) :=
  if e.detached then .error (.misuse .detachedTwice)
  else .ok (e.value, { e with value := .null, detached := true })

end Exit

structure Reply (σ : Type) where
  state : σ
  /-- Whether the node is skipped or detached. -/
  taken : Bool := false
  failure : Option WalkError := none

/-- A machine that follows a walk. -/
structure Listener (σ : Type) where
  onEnter : Entry → σ → Reply σ
  onExit : Exit → σ → Reply σ

namespace Listener

def silent : Listener Unit where
  onEnter _ _ := { state := () }
  onExit _ _ := { state := () }

end Listener

/-- Where a value or a member stands in what surrounds it. -/
inductive Place where
  | root
  | element (position : Nat)
  | member (name : String)
  | memberValue (name : String)
deriving DecidableEq, Repr

namespace Place

def property : Place → Option String
  | .member name | .memberValue name => some name
  | .root | .element _ => none

def position : Place → Option Nat
  | .element i => some i
  | _ => none

/-- The step that the path to a node at this place has more than the one to its surroundings. A
member and its value share a path. -/
def segment? : Place → Option Segment
  | .element i => some (.index i)
  | .member name => some (.member name)
  | .root | .memberValue _ => none

end Place
end JsonWalk
