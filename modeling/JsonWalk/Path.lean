import JsonWalk.Text.Decimal

/-!
# Paths to the nodes of a document

A path lists the steps from the root to a node. Its written form joins the steps by dots: a member
is written by its name, with the characters that patterns give a meaning escaped by a backslash, and
an array element by its position after an at sign.
-/

namespace JsonWalk

/-- One step from a container to a node inside it. -/
inductive Segment where
  | member (name : String)
  | index (position : Nat)
deriving DecidableEq, Repr, Inhabited

/-- The steps from the root to a node. The root has the empty path. -/
abbrev Path := List Segment

namespace Segment

/-- Members come before elements, members by their code points, elements by position. -/
protected def compare : Segment → Segment → Ordering
  | .member a, .member b => compare a b
  | .member _, .index _ => .lt
  | .index _, .member _ => .gt
  | .index i, .index j => compare i j

instance : Ord Segment := ⟨Segment.compare⟩

def isSpecial (c : Char) : Bool :=
  c == '\\' || c == '.' || c == '@' || c == '*'

def escape (name : List Char) : List Char :=
  name.flatMap fun c => if isSpecial c then ['\\', c] else [c]

def chars : Segment → List Char
  | .member name => escape name.toList
  | .index position => '@' :: Decimal.digits position

def text (s : Segment) : String := String.ofList s.chars

end Segment

namespace Path

def chars : Path → List Char
  | [] => []
  | [s] => s.chars
  | s :: t :: rest => s.chars ++ '.' :: chars (t :: rest)

def text (p : Path) : String := String.ofList p.chars

/-- Sorts paths step by step, a path before its extensions. -/
def sort (ps : List Path) : List Path :=
  ps.mergeSort fun p q => (compare p q).isLE

end Path
end JsonWalk
