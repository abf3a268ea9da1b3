import JsonWalk.Proofs.FrontEnds

/-!
# Runs of a tree walk

A run is what a walk shows of itself: the calls of the listener with its answers, what becomes of
the document, and the failure, if there is one. `RunsValue` and its companions tell by recursion on
the document which runs there are within the depth. What a listener's state is plays no part in
them, so what holds of all runs holds for every listener.
-/

namespace JsonWalk

variable {σ : Type}

/-- A call of a listener and what the listener made of it. -/
structure Call where
  event : Event
  /-- Whether the node was skipped or detached. -/
  taken : Bool
  failure : Option WalkError

/-- The listener with a log of its calls and answers beside its state. -/
def Listener.logged (l : Listener σ) : Listener (σ × List Call) where
  onEnter e s :=
    let reply := l.onEnter e s.1
    { reply with
      state := (reply.state, s.2 ++ [⟨.entered e.kind e.path, reply.taken, reply.failure⟩]) }
  onExit e s :=
    let reply := l.onExit e s.1
    { reply with
      state := (reply.state, s.2 ++
        [⟨.left e.kind e.path e.value e.property e.position, reply.taken, reply.failure⟩]) }

/-- What can happen to a part of a document: calls, what stands there afterwards, and a failure. -/
abbrev Conduct (α : Type) := List Call → α → Option WalkError → Prop

namespace Conduct

def still {α : Type} (a : α) : Conduct α := fun calls b failure =>
  calls = [] ∧ b = a ∧ failure = none

def map {α β : Type} (f : α → β) (c : Conduct α) : Conduct β := fun calls b failure =>
  ∃ a, b = f a ∧ c calls a failure

end Conduct

namespace TreeWalk

open Conduct (still map)

/-- What can happen at a node, where `inside` tells what can happen inside of it. -/
inductive Visited (kind : NodeKind) (path : Path) (place : Place) (v : Value)
    (inside : Conduct Value) : Conduct (Value × Bool)
  | refused (taken : Bool) (e : WalkError) :
    Visited kind path place v inside [⟨.entered kind path, taken, some e⟩] (v, false) (some e)
  | skipped : Visited kind path place v inside [⟨.entered kind path, true, none⟩] (v, false) none
  | stopped {calls : List Call} {w : Value} {e : WalkError} : inside calls w (some e) →
    Visited kind path place v inside (⟨.entered kind path, false, none⟩ :: calls) (w, false)
      (some e)
  | left {calls : List Call} {w : Value} (gone : Bool) (failure : Option WalkError) :
    inside calls w none →
    Visited kind path place v inside
      (⟨.entered kind path, false, none⟩ ::
        (calls ++ [⟨.left kind path w place.property place.position, gone, failure⟩]))
      (if gone then .null else w, gone) failure

/-- What can happen to one part and then to another, which stays `idle` if the first one fails. -/
inductive Sequence {α β : Type} (first : Conduct α) (second : Conduct β) (idle : β) :
    Conduct (α × β)
  | stopped {calls : List Call} {a : α} {e : WalkError} : first calls a (some e) →
    Sequence first second idle calls (a, idle) (some e)
  | passed {calls calls' : List Call} {a : α} {b : β} {failure : Option WalkError} :
    first calls a none → second calls' b failure →
    Sequence first second idle (calls ++ calls') (a, b) failure

/-- What can happen to the inside of an object, where `c` tells what can happen to its members. -/
def ClosedObject (c : Conduct (List WalkedMember)) : Conduct Value := fun calls w failure =>
  ∃ members, w = (closeObject ⟨members, (), failure⟩).result ∧ c calls members failure

def VisitedValue (path : Path) (place : Place) (v : Value) (inside : Conduct Value) :
    Conduct Value :=
  map Prod.fst (Visited v.kind path place v inside)

mutual

def RunsValue (path : Path) (place : Place) : Value → Conduct Value
  | .null => VisitedValue path place .null (still .null)
  | .bool b => VisitedValue path place (.bool b) (still (.bool b))
  | .number n => VisitedValue path place (.number n) (still (.number n))
  | .string s => VisitedValue path place (.string s) (still (.string s))
  | .array items =>
    VisitedValue path place (.array items) (map .array (RunsItems path 0 items))
  | .object members =>
    VisitedValue path place (.object members) (ClosedObject (RunsMembers path members))

def RunsItems (path : Path) (position : Nat) : List Value → Conduct (List Value)
  | [] => still []
  | v :: rest =>
    map (fun parts => parts.1 :: parts.2)
      (Sequence (RunsValue (path ++ [.index position]) (.element position) v)
        (RunsItems path (position + 1) rest) rest)

def RunsMembers (path : Path) : List (String × Value) → Conduct (List WalkedMember)
  | [] => still []
  | (name, v) :: rest =>
    map (fun parts => ((name, parts.1.1), parts.1.2) :: parts.2)
      (Sequence
        (Visited .member (path ++ [.member name]) (.member name) v
          (RunsValue (path ++ [.member name]) (.memberValue name) v))
        (RunsMembers path rest) (rest.map (·, false)))

end

/-! ### Walks are runs -/

/-- With a log of the calls the action does what it does without, and all of it is a run. -/
def Logs {α : Type} (logged : σ × List Call → Walked (σ × List Call) α) (plain : σ → Walked σ α)
    (runs : Conduct α) : Prop :=
  ∀ s log, ∃ calls,
    logged (s, log) = ⟨(plain s).result, ((plain s).state, log ++ calls), (plain s).failure⟩ ∧
      runs calls (plain s).result (plain s).failure

section

variable {l : Listener σ} {α β : Type} {logged : σ × List Call → Walked (σ × List Call) α}
  {plain : σ → Walked σ α} {runs : Conduct α}

theorem logs_still (a : α) :
    Logs (⟨a, ·, none⟩) (⟨a, ·, none⟩ : σ → Walked σ α) (still a) :=
  fun s log => ⟨[], by rw [List.append_nil], rfl, rfl, rfl⟩

theorem Logs.map (h : Logs logged plain runs) (f : α → β) :
    Logs (fun s => (logged s).map f) (fun s => (plain s).map f) (map f runs) := by
  intro s log
  obtain ⟨calls, heq, hrun⟩ := h s log
  exact ⟨calls, by simp only [heq, Walked.map], _, rfl, hrun⟩

end

variable {l : Listener σ} {limit : Nat} {logged : σ × List Call → Walked (σ × List Call) Value}
  {plain : σ → Walked σ Value} {inside : Conduct Value}

theorem logs_visit (kind : NodeKind) (path : Path) (place : Place) (v : Value)
    (h : Logs logged plain inside) :
    Logs (visit l.logged kind path place v logged) (visit l kind path place v plain)
      (Visited kind path place v inside) := by
  intro s log
  simp only [visit, Listener.logged]
  rcases l.onEnter { kind, path } s with ⟨t, taken, _ | e⟩
  · cases taken with
    | true => exact ⟨[_], rfl, .skipped⟩
    | false =>
      obtain ⟨calls, heq, hrun⟩ := h t (log ++ [⟨.entered kind path, false, none⟩])
      simp only [heq]
      generalize plain t = r at hrun
      obtain ⟨w, u, _ | e⟩ := r
      · simp only [leave]
        rcases l.onExit _ u with ⟨x, _ | _, failure⟩
        · exact ⟨_, by simp, .left false failure hrun⟩
        · exact ⟨_, by simp, .left true failure hrun⟩
      · exact ⟨_ :: calls, by simp, .stopped hrun⟩
  · cases taken <;> exact ⟨[_], rfl, .refused _ e⟩

theorem logs_visitValue (path : Path) (place : Place) {depth : Nat} (v : Value)
    (hdepth : depth ≤ limit) (h : Logs logged plain inside) :
    Logs (visitValue l.logged limit path place depth v logged)
      (visitValue l limit path place depth v plain) (VisitedValue path place v inside) := by
  have hvisit {σ : Type} (l : Listener σ) (inside : σ → Walked σ Value) :
      visitValue l limit path place depth v inside =
        fun s => (visit l v.kind path place v inside s).map (·.1) := by
    funext s
    rw [visitValue, if_neg (Nat.not_lt.2 hdepth)]
  rw [hvisit, hvisit]
  exact (logs_visit v.kind path place v h).map Prod.fst

theorem logs_walkItems_cons {path : Path} {depth position : Nat} {v : Value} {rest : List Value}
    {first : Conduct Value} {second : Conduct (List Value)}
    (hv : Logs (walkValue l.logged limit (path ++ [.index position]) (.element position) depth · v)
      (walkValue l limit (path ++ [.index position]) (.element position) depth · v) first)
    (hrest : Logs (walkItems l.logged limit path depth (position + 1) · rest)
      (walkItems l limit path depth (position + 1) · rest) second) :
    Logs (walkItems l.logged limit path depth position · (v :: rest))
      (walkItems l limit path depth position · (v :: rest))
      (map (fun parts => parts.1 :: parts.2) (Sequence first second rest)) := by
  intro s log
  obtain ⟨calls, heq, hrun⟩ := hv s log
  dsimp only at heq hrun
  simp only [walkItems, heq]
  generalize walkValue l limit _ _ depth s v = r at hrun
  obtain ⟨w, t, _ | e⟩ := r
  · obtain ⟨calls', heq', hrun'⟩ := hrest t (log ++ calls)
    simp only [heq', Walked.map]
    exact ⟨calls ++ calls', by rw [List.append_assoc], _, rfl, .passed hrun hrun'⟩
  · exact ⟨calls, rfl, _, rfl, .stopped hrun⟩

theorem logs_walkMembers_cons {path : Path} {depth : Nat} {name : String} {v : Value}
    {rest : List (String × Value)} {second : Conduct (List WalkedMember)}
    (hv : Logs (walkValue l.logged limit (path ++ [.member name]) (.memberValue name) depth · v)
      (walkValue l limit (path ++ [.member name]) (.memberValue name) depth · v) inside)
    (hrest : Logs (walkMembers l.logged limit path depth · rest)
      (walkMembers l limit path depth · rest) second) :
    Logs (walkMembers l.logged limit path depth · ((name, v) :: rest))
      (walkMembers l limit path depth · ((name, v) :: rest))
      (map (fun parts => ((name, parts.1.1), parts.1.2) :: parts.2)
        (Sequence (Visited .member (path ++ [.member name]) (.member name) v inside) second
          (rest.map (·, false)))) := by
  intro s log
  obtain ⟨calls, heq, hrun⟩ :=
    logs_visit (l := l) .member (path ++ [.member name]) (.member name) v hv s log
  simp only [walkMembers, heq]
  generalize visit l .member _ _ v _ s = r at hrun
  obtain ⟨⟨w, gone⟩, t, _ | e⟩ := r
  · obtain ⟨calls', heq', hrun'⟩ := hrest t (log ++ calls)
    simp only [heq', Walked.map]
    exact ⟨calls ++ calls', by rw [List.append_assoc], _, rfl, .passed hrun hrun'⟩
  · exact ⟨calls, rfl, _, rfl, .stopped hrun⟩

theorem logs_closeObject {logged : σ × List Call → Walked (σ × List Call) (List WalkedMember)}
    {plain : σ → Walked σ (List WalkedMember)} {runs : Conduct (List WalkedMember)}
    (h : Logs logged plain runs) :
    Logs (fun s => closeObject (logged s)) (fun s => closeObject (plain s))
      (ClosedObject runs) := by
  intro s log
  obtain ⟨calls, heq, hrun⟩ := h s log
  simp only [heq]
  generalize plain s = r at hrun
  obtain ⟨members, t, _ | e⟩ := r <;> exact ⟨calls, rfl, members, rfl, hrun⟩

mutual

/-- Within the depth every walk is a run. -/
theorem logs_walkValue (path : Path) (place : Place) {depth : Nat} :
    ∀ {v : Value}, depth + v.nesting ≤ limit →
      Logs (walkValue l.logged limit path place depth · v) (walkValue l limit path place depth · v)
        (RunsValue path place v)
  | .null, h | .bool _, h | .number _, h | .string _, h =>
    logs_visitValue path place _ (Nat.le_of_add_right_le h) (logs_still _)
  | .array items, h => by
    rw [Value.nesting] at h
    have hitems : depth + 1 + Value.itemsNesting items ≤ limit := by omega
    exact logs_visitValue path place (.array items) (by omega)
      ((logs_walkItems path 0 hitems).map Value.array)
  | .object members, h => by
    rw [Value.nesting] at h
    have hmembers : depth + 1 + Value.membersNesting members ≤ limit := by omega
    exact logs_visitValue path place (.object members) (by omega)
      (logs_closeObject (logs_walkMembers path hmembers))

theorem logs_walkItems (path : Path) {depth : Nat} (position : Nat) :
    ∀ {items : List Value}, depth + Value.itemsNesting items ≤ limit →
      Logs (walkItems l.logged limit path depth position · items)
        (walkItems l limit path depth position · items) (RunsItems path position items)
  | [], _ => logs_still []
  | v :: rest, h => by
    rw [Value.itemsNesting] at h
    exact logs_walkItems_cons (logs_walkValue _ _ (by omega))
      (logs_walkItems path (position + 1) (by omega))

theorem logs_walkMembers (path : Path) {depth : Nat} :
    ∀ {members : List (String × Value)}, depth + Value.membersNesting members ≤ limit →
      Logs (walkMembers l.logged limit path depth · members)
        (walkMembers l limit path depth · members) (RunsMembers path members)
  | [], _ => logs_still []
  | (name, v) :: rest, h => by
    rw [Value.membersNesting] at h
    exact logs_walkMembers_cons (logs_walkValue _ _ (by omega))
      (logs_walkMembers path (by omega))

end

theorem exists_run_walk (w : TreeWalk) (l : Listener σ) (s : σ) {v : Value}
    (h : v.nesting ≤ w.maxDepth) :
    ∃ calls, w.walk l.logged (s, []) v =
        ⟨(w.walk l s v).result, ((w.walk l s v).state, calls), (w.walk l s v).failure⟩ ∧
      RunsValue [] .root v calls (w.walk l s v).result (w.walk l s v).failure :=
  logs_walkValue [] .root ((Nat.zero_add _).trans_le h) s []

end TreeWalk
end JsonWalk
