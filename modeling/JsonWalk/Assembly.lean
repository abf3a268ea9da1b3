import JsonWalk.Listener

/-!
# Documents built from tokens

An assembly keeps the open nodes of a document and what each has gathered. Every token opens or
ends a node, or is refused. A node that ends is reported to the listener and handed to the node
around it, and a member ends together with its value. Below a skipped node all is built but
nothing reported.
-/

namespace JsonWalk

inductive Contents where
  | array (items : Array Value)
  /-- The names are those of all members so far, detached ones too, latest first. -/
  | object (members : Array (String × Value)) (names : List String)
  /-- A member whose value has not ended. -/
  | member (name : String)

def Contents.kind : Contents → NodeKind
  | .array _ => .array
  | .object _ _ => .object
  | .member _ => .member

structure Frame where
  contents : Contents
  place : Place
  skipped : Bool

structure Assembly where
  /-- The open nodes, innermost first. -/
  frames : List Frame := []
  /-- The path to the innermost open node. -/
  path : Path := []
  /-- How many arrays and objects are open. -/
  depth : Nat := 0
  document : Option Value := none

namespace Assembly

def innermost? (a : Assembly) : Option NodeKind := a.frames.head?.map (·.contents.kind)

/-- Whether a new node is below a skipped one. -/
def isSkipping (a : Assembly) : Bool := a.frames.head?.any (·.skipped)

def nextPlace? (a : Assembly) : Option Place :=
  match a.frames with
  | [] => if a.document.isNone then some .root else none
  | ⟨.array items, _, _⟩ :: _ => some (.element items.size)
  | ⟨.member name, _, _⟩ :: _ => some (.memberValue name)
  | ⟨.object _ _, _, _⟩ :: _ => none

def descend (place : Place) (a : Assembly) : Assembly :=
  { a with path := a.path ++ place.segment?.toList }

def ascend (place : Place) (a : Assembly) : Assembly :=
  { a with path := if place.segment?.isSome then a.path.dropLast else a.path }

def pushFrame (f : Frame) (a : Assembly) : Assembly := { a with frames := f :: a.frames }

def addMember (name : String) (v : Value) (a : Assembly) : Assembly :=
  match a.frames with
  | ⟨.object members names, place, skipped⟩ :: outer =>
    { a with frames := ⟨.object (members.push (name, v)) names, place, skipped⟩ :: outer }
  | _ => a

def unexpected (found : TokenKind) (a : Assembly) : WalkError :=
  .structural (.token found) a.innermost?

end Assembly

/-- Steps of an assembly beside the state of a listener, both kept when a step fails. -/
abbrev AssemblyM (σ : Type) := EStateM WalkError (Assembly × σ)

namespace AssemblyM

variable {σ : Type}

/-- Goes to a node at `place` and reports it, unless it is below a skipped one. Tells whether it is
skipped. -/
def enter (l : Listener σ) (kind : NodeKind) (place : Place) : AssemblyM σ Bool := fun (a, s) =>
  let a := a.descend place
  if a.isSkipping then .ok true (a, s)
  else
    let reply := l.onEnter { kind, path := a.path } s
    match reply.failure with
    | some e => .error e (a, reply.state)
    | none => .ok reply.taken (a, reply.state)

/-- Reports a node that has ended, unless it is skipped, and goes back to what surrounds it. Gives
the node's value, or nothing if it was detached. -/
def leave (l : Listener σ) (kind : NodeKind) (place : Place) (skipped : Bool) (v : Value) :
    AssemblyM σ (Option Value) := fun (a, s) =>
  if skipped then .ok (some v) (a.ascend place, s)
  else
    let reply := l.onExit
      { kind, path := a.path, value := v, property := place.property, position := place.position } s
    match reply.failure with
    | some e => .error e (a, reply.state)
    | none => .ok (if reply.taken then none else some v) (a.ascend place, reply.state)

/-- Hands a value that has ended to the node around it. A member ends with it. -/
def deliver (l : Listener σ) (v : Value) : AssemblyM σ Unit := do
  let (a, s) ← get
  match a.frames with
  | [] => set ({ a with document := some v }, s)
  | ⟨.array items, place, skipped⟩ :: outer =>
    set ({ a with frames := ⟨.array (items.push v), place, skipped⟩ :: outer }, s)
  | ⟨.member name, place, skipped⟩ :: outer =>
    set ({ a with frames := outer }, s)
    match ← leave l .member place skipped v with
    | some v => modify fun (a, s) => (a.addMember name v, s)
    | none => return
  | ⟨.object _ _, _, _⟩ :: _ => return

def openContainer (l : Listener σ) (limit : Nat) (found : TokenKind) (contents : Contents) :
    AssemblyM σ Unit := do
  let (a, s) ← get
  match a.nextPlace? with
  | none => throw (a.unexpected found)
  | some place =>
    if limit < a.depth + 1 then throw (.tooDeep limit)
    else
      set ({ a with depth := a.depth + 1 }, s)
      let skipped ← enter l contents.kind place
      modify fun (a, s) => (a.pushFrame ⟨contents, place, skipped⟩, s)

def closeContainer (l : Listener σ) (kind : NodeKind) (place : Place) (skipped : Bool)
    (outer : List Frame) (v : Value) : AssemblyM σ Unit := do
  modify fun (a, s) => ({ a with frames := outer, depth := a.depth - 1 }, s)
  let left ← leave l kind place skipped v
  deliver l (left.getD .null)

def scalar (l : Listener σ) (found : TokenKind) (v : Value) : AssemblyM σ Unit := do
  let (a, _) ← get
  match a.nextPlace? with
  | none => throw (a.unexpected found)
  | some place =>
    let skipped ← enter l v.kind place
    let left ← leave l v.kind place skipped v
    deliver l (left.getD .null)

def openMember (l : Listener σ) (name : String) : AssemblyM σ Unit := do
  let (a, s) ← get
  match a.frames with
  | ⟨.object members names, place, skipped⟩ :: outer =>
    if name ∈ names then throw (.structural .repeatedName (some .object))
    else
      set ({ a with frames := ⟨.object members (name :: names), place, skipped⟩ :: outer }, s)
      let skipped ← enter l .member (.member name)
      modify fun (a, s) => (a.pushFrame ⟨.member name, .member name, skipped⟩, s)
  | _ => throw (a.unexpected .name)

/-- Takes a token other than the end of the input, with at most `limit` arrays and objects open. -/
def feed (l : Listener σ) (limit : Nat) (t : Token) : AssemblyM σ Unit := do
  match t with
  | .beginObject => openContainer l limit .beginObject (.object #[] [])
  | .beginArray => openContainer l limit .beginArray (.array #[])
  | .endObject =>
    let (a, _) ← get
    match a.frames with
    | ⟨.object members _, place, skipped⟩ :: outer =>
      closeContainer l .object place skipped outer (.object members.toList)
    | _ => throw (a.unexpected .endObject)
  | .endArray =>
    let (a, _) ← get
    match a.frames with
    | ⟨.array items, place, skipped⟩ :: outer =>
      closeContainer l .array place skipped outer (.array items.toList)
    | _ => throw (a.unexpected .endArray)
  | .name name => openMember l name
  | .string s => scalar l .string (.string s)
  | .number n => scalar l .number (.number n)
  | .bool b => scalar l .bool (.bool b)
  | .null => scalar l .null .null
  | .endOfInput => throw ((← get).1.unexpected .endOfInput)

end AssemblyM
end JsonWalk
