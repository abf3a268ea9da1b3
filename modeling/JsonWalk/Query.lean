import JsonWalk.Path.Record
import JsonWalk.Pattern
import JsonWalk.Query.Predicate
import JsonWalk.StreamWalk

/-!
# Queries

A query collects the values whose paths a pattern accepts and that a predicate accepts, in the
order in which a walk leaves them, up to a limit. A document at hand is scanned, and what lies
behind the last hit is not looked at; a text is walked over to its end, with every node skipped
once the limit is reached.
-/

namespace JsonWalk

structure Hit where
  path : Path
  value : Value
deriving Inhabited

def Hit.toValue (h : Hit) : Value := .object [("path", h.path.toValue), ("value", h.value)]

structure Query where
  pattern : Pattern
  limits : Limits := {}

namespace Query

variable {σ : Type}

structure Found (σ : Type) where
  hits : Array Hit := #[]
  state : σ

/-- Whether no more hits are wanted. Without a limit all are. -/
def Found.isFull (limit : Option Nat) (f : Found σ) : Bool := limit.any (· ≤ f.hits.size)

/-- Offers a value to the predicate if its path is accepted and there is room for it. -/
def offer (pattern : Pattern) (limit : Option Nat) (p : Predicate σ) (path : Path) (v : Value)
    (f : Found σ) : Found σ :=
  if f.isFull limit then f
  else if pattern.accepts path then
    let (answer, s) := p v f.state
    ⟨if answer then f.hits.push ⟨path, v⟩ else f.hits, s⟩
  else f

section scan

variable (pattern : Pattern) (limit : Option Nat) (p : Predicate σ) (maxDepth : Nat)

mutual

/-- Scans the value at `path`, inside of `depth` arrays and objects, and offers it after what is
inside it. -/
def scanValue (path : Path) (depth : Nat) (v : Value) : EStateM WalkError (Found σ) Unit := do
  let depth := if v.kind.isContainer then depth + 1 else depth
  if maxDepth < depth then throw (.tooDeep maxDepth)
  else
    match v with
    | .array items => scanItems path depth 0 items
    | .object members => scanMembers path depth members
    | .null | .bool _ | .number _ | .string _ => pure ()
    modify (offer pattern limit p path v)
termination_by structural v

def scanItems (path : Path) (depth position : Nat) (items : List Value) :
    EStateM WalkError (Found σ) Unit := do
  match items with
  | [] => pure ()
  | v :: rest =>
    if (← get).isFull limit then return
    else
      scanValue (path ++ [.index position]) depth v
      scanItems path depth (position + 1) rest
termination_by structural items

def scanMembers (path : Path) (depth : Nat) (members : List (String × Value)) :
    EStateM WalkError (Found σ) Unit := do
  match members with
  | [] => pure ()
  | (name, v) :: rest =>
    if (← get).isFull limit then return
    else
      scanValue (path ++ [.member name]) depth v
      scanMembers path depth rest
termination_by structural members

end

end scan

def collector (pattern : Pattern) (limit : Option Nat) (p : Predicate σ) : Listener (Found σ) where
  onEnter _ f := { state := f, taken := f.isFull limit }
  onExit e f := { state := if e.kind = .member then f else offer pattern limit p e.path e.value f }

/-- The hits in a document, at most `limit`, and the predicate's last state. -/
def find (q : Query) (document : Value) (limit : Option Nat) (p : Predicate σ) (s : σ) :
    Except WalkError (List Hit) × σ :=
  match scanValue q.pattern limit p q.limits.maxDepth [] 0 document { state := s } with
  | .ok _ f => (.ok f.hits.toList, f.state)
  | .error e f => (.error e, f.state)

def findReader (q : Query) (answers : List Delivery) (limit : Option Nat) (p : Predicate σ)
    (s : σ) : Except WalkError (List Hit) × σ :=
  let w : StreamWalk := { limits := q.limits }
  let e := w.walkReader (collector q.pattern limit p) { state := s } answers
  (e.result.map fun _ => e.state.hits.toList, e.state.state)

def findBytes (q : Query) (bytes : List UInt8) (limit : Option Nat) (p : Predicate σ) (s : σ) :
    Except WalkError (List Hit) × σ :=
  q.findReader (match bytes with | [] => [] | b :: bs => [.bytes b bs]) limit p s

def values (found : Except WalkError (List Hit) × σ) : Except WalkError (List Value) × σ :=
  (found.1.map (·.map (·.value)), found.2)

/-- The value of the last hit, if there is one. -/
def latest (found : Except WalkError (List Hit) × σ) : Except WalkError (Option Value) × σ :=
  (found.1.map fun hits => hits.getLast?.map (·.value), found.2)

def first (q : Query) (document : Value) (p : Predicate σ) (s : σ) :
    Except WalkError (Option Value) × σ :=
  latest (q.find document (some 1) p s)

def firstN (q : Query) (document : Value) (n : Nat) (p : Predicate σ) (s : σ) :
    Except WalkError (List Value) × σ :=
  values (q.find document (some n) p s)

def all (q : Query) (document : Value) (p : Predicate σ) (s : σ) :
    Except WalkError (List Value) × σ :=
  values (q.find document none p s)

def firstOfBytes (q : Query) (bytes : List UInt8) (p : Predicate σ) (s : σ) :
    Except WalkError (Option Value) × σ :=
  latest (q.findBytes bytes (some 1) p s)

def firstNOfBytes (q : Query) (bytes : List UInt8) (n : Nat) (p : Predicate σ) (s : σ) :
    Except WalkError (List Value) × σ :=
  values (q.findBytes bytes (some n) p s)

def allOfBytes (q : Query) (bytes : List UInt8) (p : Predicate σ) (s : σ) :
    Except WalkError (List Value) × σ :=
  values (q.findBytes bytes none p s)

end Query
end JsonWalk
