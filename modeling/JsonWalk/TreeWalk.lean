import JsonWalk.StreamWalk

/-!
# Walks over documents at hand

A tree walk reports the nodes of a document, members in their order and elements by position, and
gives back the document with what the listener detached. Elements, member values and the document
itself become `null` on the spot; a detached member leaves its object once all members of the object
have been walked over. What was done before a failure stays done.
-/

namespace JsonWalk

structure Walked (σ α : Type) where
  result : α
  state : σ
  failure : Option WalkError := none

namespace Walked

def map {σ α β : Type} (f : α → β) (w : Walked σ α) : Walked σ β :=
  ⟨f w.result, w.state, w.failure⟩

end Walked

/-- A member as a walk leaves it, and whether it was detached. -/
abbrev WalkedMember := (String × Value) × Bool

namespace TreeWalk

variable {σ : Type}

def leave (l : Listener σ) (kind : NodeKind) (path : Path) (place : Place) (v : Value) (s : σ) :
    Walked σ (Value × Bool) :=
  match l.onExit
    { kind, path, value := v, property := place.property, position := place.position } s with
  | ⟨s, true, failure⟩ => ⟨(.null, true), s, failure⟩
  | ⟨s, false, failure⟩ => ⟨(v, false), s, failure⟩

/-- Enters a node, goes through what is inside it and leaves it. A skipped node stays as it is. -/
def visit (l : Listener σ) (kind : NodeKind) (path : Path) (place : Place) (v : Value)
    (inside : σ → Walked σ Value) (s : σ) : Walked σ (Value × Bool) :=
  match l.onEnter { kind, path } s with
  | ⟨s, _, some e⟩ => ⟨(v, false), s, some e⟩
  | ⟨s, true, none⟩ => ⟨(v, false), s, none⟩
  | ⟨s, false, none⟩ =>
    match inside s with
    | ⟨v, s, some e⟩ => ⟨(v, false), s, some e⟩
    | ⟨v, s, none⟩ => leave l kind path place v s

def visitValue (l : Listener σ) (limit : Nat) (path : Path) (place : Place) (depth : Nat)
    (v : Value) (inside : σ → Walked σ Value) (s : σ) : Walked σ Value :=
  if limit < depth then ⟨v, s, some (.tooDeep limit)⟩
  else (visit l v.kind path place v inside s).map (·.1)

/-- The object of members walked over. The detached ones leave it unless the walk failed. -/
def closeObject : Walked σ (List WalkedMember) → Walked σ Value
  | ⟨members, s, some e⟩ => ⟨.object (members.map (·.1)), s, some e⟩
  | ⟨members, s, none⟩ => ⟨.object ((members.filter (!·.2)).map (·.1)), s, none⟩

mutual

def walkValue (l : Listener σ) (limit : Nat) (path : Path) (place : Place) (depth : Nat) (s : σ)
    (v : Value) : Walked σ Value :=
  match v with
  | .null => visitValue l limit path place depth .null (⟨.null, ·, none⟩) s
  | .bool b => visitValue l limit path place depth (.bool b) (⟨.bool b, ·, none⟩) s
  | .number n => visitValue l limit path place depth (.number n) (⟨.number n, ·, none⟩) s
  | .string t => visitValue l limit path place depth (.string t) (⟨.string t, ·, none⟩) s
  | .array items =>
    visitValue l limit path place (depth + 1) (.array items)
      (fun s => (walkItems l limit path (depth + 1) 0 s items).map .array) s
  | .object members =>
    visitValue l limit path place (depth + 1) (.object members)
      (fun s => closeObject (walkMembers l limit path (depth + 1) s members)) s
termination_by structural v

def walkItems (l : Listener σ) (limit : Nat) (path : Path) (depth position : Nat) (s : σ)
    (items : List Value) : Walked σ (List Value) :=
  match items with
  | [] => ⟨[], s, none⟩
  | v :: rest =>
    match walkValue l limit (path ++ [.index position]) (.element position) depth s v with
    | ⟨v, s, some e⟩ => ⟨v :: rest, s, some e⟩
    | ⟨v, s, none⟩ => (walkItems l limit path depth (position + 1) s rest).map (v :: ·)
termination_by structural items

def walkMembers (l : Listener σ) (limit : Nat) (path : Path) (depth : Nat) (s : σ)
    (members : List (String × Value)) : Walked σ (List WalkedMember) :=
  match members with
  | [] => ⟨[], s, none⟩
  | (name, v) :: rest =>
    let path' := path ++ [.member name]
    match visit l .member path' (.member name) v
      (fun s => walkValue l limit path' (.memberValue name) depth s v) s with
    | ⟨(v, gone), s, some e⟩ => ⟨((name, v), gone) :: rest.map (·, false), s, some e⟩
    | ⟨(v, gone), s, none⟩ =>
      (walkMembers l limit path depth s rest).map (((name, v), gone) :: ·)
termination_by structural members

end

end TreeWalk

/-- A walker over documents, with the deepest nesting of arrays and objects that it goes into. -/
structure TreeWalk where
  maxDepth : Nat := 512

namespace TreeWalk

variable {σ : Type}

def walk (w : TreeWalk) (l : Listener σ) (s : σ) (document : Value) : Walked σ Value :=
  walkValue l w.maxDepth [] .root 0 s document

/-- Reads a text and walks over the document. A text that cannot be read within the depth reaches no
listener. -/
def walkBytes (w : TreeWalk) (l : Listener σ) (s : σ) (bytes : List UInt8) :
    Except WalkError Value × σ :=
  let reader : StreamWalk := { limits := { maxDepth := w.maxDepth } }
  match (reader.walkBytes .silent () bytes).result with
  | .error e => (.error e, s)
  | .ok document =>
    let walked := w.walk l s document
    match walked.failure with
    | some e => (.error e, walked.state)
    | none => (.ok walked.result, walked.state)

end TreeWalk
end JsonWalk
