import JsonWalk.Decode
import JsonWalk.Pattern

/-!
# Scripted listeners

A script is a list of rules, each with an action for the nodes it applies to. At every event first
all rules are matched and counted, then the actions of those that fire are carried out in order
until one fails. All events are logged, with what the actions have to tell.
-/

namespace JsonWalk.Script

inductive EntryAction where
  | skip
  | trySkip
  | abort (reason : String)

inductive ExitAction where
  | detach
  | tryDetach
  | peek
  | decode (target : Target)
  | tryDecode (target : Target)
  | abort (reason : String)

inductive Action where
  | atEntry (action : EntryAction)
  | atExit (action : ExitAction)

structure Rule where
  action : Action
  kind : Option NodeKind
  pattern : Option Pattern
  /-- Whether the path must be as long as the pattern. -/
  exact : Bool
  /-- The only match, counted from one, at which the rule fires. -/
  nth : Option Nat

inductive Note where
  | done
  | value (v : Value)
  | error (e : WalkError)

inductive Event where
  | entered (node : Entry) (notes : List Note)
  /-- The node as it was before the actions. -/
  | left (node : Exit) (detached : Bool) (notes : List Note)

structure State where
  counts : List Nat
  log : Array Event

def State.start (rules : List Rule) : State := ⟨rules.map fun _ => 0, #[]⟩

def Rule.applies (r : Rule) (kind : NodeKind) (path : Path) : Bool :=
  r.kind.all (· == kind) &&
  r.pattern.all fun p => p.accepts path && (!r.exact || p.elements.length == path.length)

def Action.entry? : Action → Option EntryAction
  | .atEntry a => some a
  | .atExit _ => none

def Action.exit? : Action → Option ExitAction
  | .atExit a => some a
  | .atEntry _ => none

/-- Counts the rules that match and gives the actions of those that fire. -/
def matchRules {α : Type} (select : Action → Option α) (kind : NodeKind) (path : Path) :
    List Rule → List Nat → List Nat × List α
  | r :: rules, n :: counts =>
    let (counts, actions) := matchRules select kind path rules counts
    match select r.action with
    | some a =>
      if r.applies kind path then
        ((n + 1) :: counts, if r.nth.all (· == n + 1) then a :: actions else actions)
      else (n :: counts, actions)
    | none => (n :: counts, actions)
  | _, counts => (counts, [])

/-- A node under way, what the actions on it have told, and the failure that ended them. -/
structure Acted (α : Type) where
  node : α
  notes : List Note := []
  failure : Option WalkError := none

def Acted.prepend {α : Type} (note : Note) (a : Acted α) : Acted α :=
  { a with notes := note :: a.notes }

def runEntry (e : Entry) : List EntryAction → Acted Entry
  | [] => { node := e }
  | .skip :: rest =>
    match e.skip with
    | .ok e => runEntry e rest
    | .error failure => { node := e, failure }
  | .trySkip :: rest =>
    match e.skip with
    | .ok e => (runEntry e rest).prepend .done
    | .error failure => (runEntry e rest).prepend (.error failure)
  | .abort reason :: _ => { node := e, failure := some (.aborted reason) }

def runExit (e : Exit) : List ExitAction → Acted Exit
  | [] => { node := e }
  | .detach :: rest =>
    match e.detach with
    | .ok (v, e) => (runExit e rest).prepend (.value v)
    | .error failure => { node := e, failure }
  | .tryDetach :: rest =>
    match e.detach with
    | .ok (v, e) => (runExit e rest).prepend (.value v)
    | .error failure => (runExit e rest).prepend (.error failure)
  | .peek :: rest => (runExit e rest).prepend (.value e.value)
  | .decode target :: rest =>
    match e.decode target with
    | .ok v => (runExit e rest).prepend (.value v)
    | .error failure => { node := e, failure }
  | .tryDecode target :: rest =>
    match e.decode target with
    | .ok v => (runExit e rest).prepend (.value v)
    | .error failure => (runExit e rest).prepend (.error failure)
  | .abort reason :: _ => { node := e, failure := some (.aborted reason) }

def listener (rules : List Rule) : Listener State where
  onEnter e s :=
    let (counts, actions) := matchRules Action.entry? e.kind e.path rules s.counts
    let acted := runEntry e actions
    { state := ⟨counts, s.log.push (.entered acted.node acted.notes)⟩
      taken := acted.node.skipped
      failure := acted.failure }
  onExit e s :=
    let (counts, actions) := matchRules Action.exit? e.kind e.path rules s.counts
    let acted := runExit e actions
    { state := ⟨counts, s.log.push (.left e acted.node.detached acted.notes)⟩
      taken := acted.node.detached
      failure := acted.failure }

end JsonWalk.Script
