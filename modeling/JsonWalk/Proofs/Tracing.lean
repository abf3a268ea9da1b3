import JsonWalk.Proofs.Nodes
import JsonWalk.Proofs.Runs

/-!
# What a tree walk reports

The trace of a document is what a walk reports that nobody interferes with. Whatever a listener
skips and detaches, a walk reports that trace, without what skipping hides: the exit of the skipped
node and everything inside of it. A failing callback cuts the trace off.
-/

namespace JsonWalk

/-- A node of a document. A member has the path of its value, which is inside of it. -/
structure Node where
  path : Path
  isMember : Bool
deriving DecidableEq, Repr

namespace Node

def of (kind : NodeKind) (path : Path) : Node := ⟨path, kind = .member⟩

def Inside (n outer : Node) : Prop :=
  outer.path <+: n.path ∧ (outer.path ≠ n.path ∨ outer.isMember = true ∧ n.isMember = false)

instance (n outer : Node) : Decidable (n.Inside outer) := inferInstanceAs (Decidable (_ ∧ _))

theorem Inside.not_inside {n outer : Node} (h : n.Inside outer) : ¬ outer.Inside n := by
  rintro ⟨hpath, hne⟩
  have heq : outer.path = n.path := h.1.eq_of_length_le hpath.length_le
  obtain hpath' | ⟨hmember, -⟩ := hne
  · exact hpath' heq.symm
  · obtain hpath' | ⟨-, hvalue⟩ := h.2
    · exact hpath' heq
    · rw [hvalue] at hmember
      cases hmember

theorem not_inside_self (n : Node) : ¬ n.Inside n := fun h => h.not_inside h

theorem inside_of_step {n outer : Node} {s : Segment} (h : outer.path ++ [s] <+: n.path) :
    n.Inside outer := by
  have hne : outer.path ≠ n.path := fun heq => Path.not_prefix_of_step h (heq ▸ List.prefix_rfl)
  exact ⟨(List.prefix_append _ _).trans h, .inl hne⟩

end Node

/-- What a call reports, apart from the value shown. -/
inductive Report where
  | entered (kind : NodeKind) (path : Path)
  | left (kind : NodeKind) (path : Path) (property : Option String) (position : Option Nat)
deriving DecidableEq, Repr

def Event.report : Event → Report
  | .entered kind path => .entered kind path
  | .left kind path _ property position => .left kind path property position

namespace Report

def node : Report → Node
  | .entered kind path | .left kind path _ _ => .of kind path

def isExit : Report → Bool
  | .entered _ _ => false
  | .left _ _ _ _ => true

/-- Skipping hides the report: it is the exit of a skipped node, or from inside of one. -/
def Hidden (skipped : List Node) (r : Report) : Prop :=
  ∃ n ∈ skipped, r.node.Inside n ∨ r.isExit = true ∧ r.node = n

instance (skipped : List Node) (r : Report) : Decidable (r.Hidden skipped) :=
  inferInstanceAs (Decidable (∃ n ∈ skipped, _))

/-- Neither report is from inside of what the other is about. -/
def Apart (r r' : Report) : Prop :=
  ¬ r.node.path <+: r'.node.path ∧ ¬ r'.node.path <+: r.node.path

def around (kind : NodeKind) (path : Path) (place : Place) (inner : List Report) : List Report :=
  .entered kind path :: (inner ++ [.left kind path place.property place.position])

end Report

namespace Value

open Report (around)

mutual

/-- The reports on a document, depth first: members in their order, each of them around its value,
and elements by position. -/
def trace (path : Path) (place : Place) : Value → List Report
  | .null => around .null path place []
  | .bool _ => around .boolean path place []
  | .number _ => around .number path place []
  | .string _ => around .string path place []
  | .array items => around .array path place (itemsTrace path 0 items)
  | .object members => around .object path place (membersTrace path members)

def itemsTrace (path : Path) (position : Nat) : List Value → List Report
  | [] => []
  | v :: rest =>
    trace (path ++ [.index position]) (.element position) v ++ itemsTrace path (position + 1) rest

def membersTrace (path : Path) : List (String × Value) → List Report
  | [] => []
  | (name, v) :: rest =>
    around .member (path ++ [.member name]) (.member name)
      (trace (path ++ [.member name]) (.memberValue name) v) ++ membersTrace path rest

end

end Value

namespace Call

def report (c : Call) : Report := c.event.report

def skipped? (c : Call) : Option Node :=
  match c.event with
  | .entered kind path => if c.taken then some (.of kind path) else none
  | .left _ _ _ _ _ => none

end Call

def skips (calls : List Call) : List Node := calls.filterMap Call.skipped?

/-- What is left of a trace where nodes are skipped. -/
def visible (skipped : List Node) (trace : List Report) : List Report :=
  trace.filter fun r => ¬ r.Hidden skipped

/-- The calls report the trace without what skipping hides. If one fails, it is the last one. -/
def FollowsTrace (trace : List Report) (calls : List Call) : Option WalkError → Prop
  | none => calls.map Call.report = visible (skips calls) trace ∧ ∀ c ∈ calls, c.failure = none
  | some e => calls.map Call.report <+: visible (skips calls) trace ∧
    ∃ before c, calls = before ++ [c] ∧ c.failure = some e ∧ ∀ b ∈ before, b.failure = none

def Conduct.Traces {α : Type} (t : List Report) (c : Conduct α) : Prop :=
  ∀ ⦃calls a failure⦄, c calls a failure → FollowsTrace t calls failure

/-! ### What skipping hides -/

theorem Call.node_of_skipped? {c : Call} {n : Node} (h : c.skipped? = some n) :
    c.report.node = n := by
  obtain ⟨⟨kind, path⟩ | _, taken, failure⟩ := c
  · cases taken with
    | false => cases h
    | true => exact Option.some_inj.1 h
  · cases h

theorem skips_append (calls calls' : List Call) :
    skips (calls ++ calls') = skips calls ++ skips calls' :=
  List.filterMap_append

theorem skips_cons_entered (kind : NodeKind) (path : Path) (calls : List Call) :
    skips (⟨.entered kind path, false, none⟩ :: calls) = skips calls := rfl

theorem skips_append_left (calls : List Call) (kind : NodeKind) (path : Path) (shown : Value)
    (property : Option String) (position : Option Nat) (gone : Bool)
    (failure : Option WalkError) :
    skips (calls ++ [⟨.left kind path shown property position, gone, failure⟩]) = skips calls :=
  (skips_append ..).trans (List.append_nil _)

section

variable {skipped skipped' : List Node} {t t' : List Report} {r : Report} {kind : NodeKind}
  {path : Path} {place : Place}

theorem Report.hidden_append :
    r.Hidden (skipped ++ skipped') ↔ r.Hidden skipped ∨ r.Hidden skipped' := by
  simp only [Report.Hidden, List.mem_append, or_and_right, exists_or]

theorem visible_append : visible skipped (t ++ t') = visible skipped t ++ visible skipped t' :=
  List.filter_append _ _

theorem visible_congr (h : ∀ r ∈ t, r.Hidden skipped ↔ r.Hidden skipped') :
    visible skipped t = visible skipped' t :=
  List.filter_congr fun r hr => decide_eq_decide.2 (not_congr (h r hr))

theorem visible_eq_nil (h : ∀ r ∈ t, r.Hidden skipped) : visible skipped t = [] :=
  List.filter_eq_nil_iff.2 fun r hr => by simpa using h r hr

theorem visible_cons_of_not_hidden (h : ¬ r.Hidden skipped) :
    visible skipped (r :: t) = r :: visible skipped t :=
  List.filter_cons_of_pos (by simpa using h)

theorem Report.not_hidden_of_inside (h : ∀ n ∈ skipped, n.Inside r.node) : ¬ r.Hidden skipped := by
  rintro ⟨n, hn, hinside | ⟨-, rfl⟩⟩
  · exact (h n hn).not_inside hinside
  · exact r.node.not_inside_self (h _ hn)

theorem visible_around (h : ∀ n ∈ skipped, n.Inside (.of kind path)) :
    visible skipped (Report.around kind path place t) =
      Report.around kind path place (visible skipped t) := by
  have hentered : ¬ (Report.entered kind path).Hidden skipped := Report.not_hidden_of_inside h
  have hleft : ¬ (Report.left kind path place.property place.position).Hidden skipped :=
    Report.not_hidden_of_inside h
  rw [Report.around, visible_cons_of_not_hidden hentered, visible_append,
    visible_cons_of_not_hidden hleft]
  rfl

theorem visible_around_of_skipped (h : ∀ r ∈ t, r.node.Inside (.of kind path)) :
    visible [.of kind path] (Report.around kind path place t) = [.entered kind path] := by
  have hentered : ¬ (Report.entered kind path).Hidden [.of kind path] := by
    rintro ⟨n, hn, hinside | ⟨hexit, -⟩⟩
    · cases List.mem_singleton.1 hn
      exact Node.not_inside_self _ hinside
    · cases hexit
  have hrest : ∀ r ∈ t ++ [Report.left kind path place.property place.position],
      r.Hidden [.of kind path] := by
    intro r hr
    refine ⟨_, List.mem_singleton_self _, ?_⟩
    obtain hinner | hleft := List.mem_append.1 hr
    · exact .inl (h r hinner)
    · cases List.mem_singleton.1 hleft
      exact .inr ⟨rfl, rfl⟩
  rw [Report.around, visible_cons_of_not_hidden hentered, visible_eq_nil hrest]

end

/-! ### Calls that follow a trace -/

namespace FollowsTrace

variable {t t' : List Report} {calls calls' : List Call} {failure : Option WalkError}
  {e : WalkError}

theorem report_mem (h : FollowsTrace t calls failure) {c : Call} (hc : c ∈ calls) :
    c.report ∈ t := by
  have hreports : calls.map Call.report <+: visible (skips calls) t := by
    cases failure with
    | none => exact h.1 ▸ List.prefix_rfl
    | some e => exact h.1
  exact List.mem_of_mem_filter (hreports.subset (List.mem_map_of_mem hc))

theorem exists_of_mem_filterMap (h : FollowsTrace t calls failure) {pick : Call → Option Node}
    (hpick : ∀ {c n}, pick c = some n → c.report.node = n) {n : Node}
    (hn : n ∈ calls.filterMap pick) : ∃ r ∈ t, r.node = n := by
  obtain ⟨c, hc, hpicked⟩ := List.mem_filterMap.1 hn
  exact ⟨c.report, h.report_mem hc, hpick hpicked⟩

theorem exists_of_mem_skips (h : FollowsTrace t calls failure) {n : Node} (hn : n ∈ skips calls) :
    ∃ r ∈ t, r.node = n :=
  h.exists_of_mem_filterMap Call.node_of_skipped? hn

theorem inside_of_mem_skips (h : FollowsTrace t calls failure) {outer : Node}
    (ht : ∀ r ∈ t, r.node.Inside outer) : ∀ n ∈ skips calls, n.Inside outer := by
  intro n hn
  obtain ⟨r, hr, rfl⟩ := h.exists_of_mem_skips hn
  exact ht r hr

theorem not_hidden_of_apart (h : FollowsTrace t calls failure) {r : Report}
    (hapart : ∀ r' ∈ t, ¬ r'.node.path <+: r.node.path) : ¬ r.Hidden (skips calls) := by
  rintro ⟨n, hn, hhidden⟩
  obtain ⟨r', hr', rfl⟩ := h.exists_of_mem_skips hn
  obtain hinside | ⟨-, heq⟩ := hhidden
  · exact hapart r' hr' hinside.1
  · exact hapart r' hr' (heq ▸ List.prefix_rfl)

theorem append_of_failed (h : FollowsTrace t calls (some e)) (t' : List Report) :
    FollowsTrace (t ++ t') calls (some e) :=
  ⟨h.1.trans (visible_append ▸ List.prefix_append _ _), h.2⟩

theorem append (h : FollowsTrace t calls none) (h' : FollowsTrace t' calls' failure)
    (hapart : ∀ r ∈ t, ∀ r' ∈ t', r.Apart r') :
    FollowsTrace (t ++ t') (calls ++ calls') failure := by
  have hfirst : visible (skips (calls ++ calls')) t = visible (skips calls) t := by
    apply visible_congr
    intro r hr
    rw [skips_append, Report.hidden_append]
    exact or_iff_left (h'.not_hidden_of_apart fun r' hr' => (hapart r hr r' hr').2)
  have hsecond : visible (skips (calls ++ calls')) t' = visible (skips calls') t' := by
    apply visible_congr
    intro r' hr'
    rw [skips_append, Report.hidden_append]
    exact or_iff_right (h.not_hidden_of_apart fun r hr => (hapart r hr r' hr').1)
  cases failure with
  | none =>
    refine ⟨?_, fun c hc => ?_⟩
    · rw [List.map_append, visible_append, hfirst, hsecond, h.1, h'.1]
    · exact (List.mem_append.1 hc).elim (h.2 c) (h'.2 c)
  | some e =>
    obtain ⟨hreports, before, c, rfl, hc, hbefore⟩ := h'
    refine ⟨?_, calls ++ before, c, (List.append_assoc ..).symm, hc, fun b hb => ?_⟩
    · rw [List.map_append, visible_append, hfirst, hsecond, h.1]
      exact (List.prefix_append_right_inj _).2 hreports
    · exact (List.mem_append.1 hb).elim (h.2 b) (hbefore b)

end FollowsTrace

namespace Conduct

open TreeWalk (Visited Sequence VisitedValue ClosedObject)

variable {t t' : List Report}

theorem traces_still {α : Type} (a : α) : Traces [] (still a) := by
  rintro calls b failure ⟨rfl, -, rfl⟩
  exact ⟨rfl, List.forall_mem_nil _⟩

theorem Traces.map {α β : Type} {c : Conduct α} (h : Traces t c) (f : α → β) :
    Traces t (map f c) := by
  rintro calls b failure ⟨a, -, hc⟩
  exact h hc

theorem Traces.closedObject {c : Conduct (List WalkedMember)} (h : Traces t c) :
    Traces t (ClosedObject c) := by
  rintro calls w failure ⟨members, -, hc⟩
  exact h hc

theorem Traces.visited {kind : NodeKind} {path : Path} {inside : Conduct Value}
    (hinside : Traces t inside) (ht : ∀ r ∈ t, r.node.Inside (.of kind path)) (place : Place)
    (v : Value) : Traces (Report.around kind path place t) (Visited kind path place v inside) := by
  intro calls outcome failure h
  cases h with
  | refused taken e =>
    refine ⟨?_, [], _, rfl, rfl, List.forall_mem_nil _⟩
    cases taken with
    | false =>
      rw [show skips [_] = [] from rfl, visible_around (List.forall_mem_nil _)]
      exact List.prefix_append [_] _
    | true =>
      rw [show skips [_] = [.of kind path] from rfl, visible_around_of_skipped ht]
      exact List.prefix_rfl
  | skipped =>
    refine ⟨?_, List.forall_mem_singleton.2 rfl⟩
    rw [show skips [_] = [.of kind path] from rfl, visible_around_of_skipped ht]
    rfl
  | @stopped calls w e hrun =>
    have hskips := (hinside hrun).inside_of_mem_skips ht
    obtain ⟨hreports, before, c, rfl, hc, hbefore⟩ := hinside hrun
    refine ⟨?_, _ :: before, c, rfl, hc, List.forall_mem_cons.2 ⟨rfl, hbefore⟩⟩
    rw [skips_cons_entered, visible_around hskips]
    exact (List.prefix_cons_inj _).2 (hreports.trans (List.prefix_append _ _))
  | @left calls w gone failure hrun =>
    have hskips := (hinside hrun).inside_of_mem_skips ht
    obtain ⟨hreports, hcalls⟩ := hinside hrun
    let all : List Call := ⟨.entered kind path, false, none⟩ :: (calls ++
      [⟨.left kind path w place.property place.position, gone, failure⟩])
    have hall : all.map Call.report = visible (skips all) (Report.around kind path place t) := by
      rw [skips_cons_entered, skips_append_left, visible_around hskips, ← hreports]
      simp [all, Report.around, Call.report, Event.report]
    have hbefore : ∀ c ∈ (⟨.entered kind path, false, none⟩ :: calls : List Call),
        c.failure = none := List.forall_mem_cons.2 ⟨rfl, hcalls⟩
    cases failure with
    | none => exact ⟨hall, List.forall_mem_append.2 ⟨hbefore, List.forall_mem_singleton.2 rfl⟩⟩
    | some e => exact ⟨hall ▸ List.prefix_rfl, _ :: calls, _, rfl, rfl, hbefore⟩

theorem Traces.visitedValue {v : Value} {path : Path} {inside : Conduct Value}
    (hinside : Traces t inside) (ht : ∀ r ∈ t, r.node.Inside (.of v.kind path)) (place : Place) :
    Traces (Report.around v.kind path place t) (VisitedValue path place v inside) :=
  (hinside.visited ht place v).map Prod.fst

theorem Traces.sequence {α β : Type} {first : Conduct α} {second : Conduct β}
    (hfirst : Traces t first) (hsecond : Traces t' second)
    (hapart : ∀ r ∈ t, ∀ r' ∈ t', r.Apart r') (idle : β) :
    Traces (t ++ t') (Sequence first second idle) := by
  intro calls outcome failure h
  cases h with
  | stopped hrun => exact (hfirst hrun).append_of_failed t'
  | passed hrun hrun' => exact (hfirst hrun).append (hsecond hrun') hapart

end Conduct

/-! ### Where a trace reports from -/

namespace Value

theorem node_of_mem_around {kind : NodeKind} {path : Path} {place : Place} {t : List Report}
    {r : Report} (ht : ∀ r ∈ t, r.node.Inside (.of kind path))
    (hr : r ∈ Report.around kind path place t) :
    r.node = .of kind path ∨ r.node.Inside (.of kind path) := by
  obtain hentered | hrest := List.mem_cons.1 hr
  · exact .inl (hentered ▸ rfl)
  · obtain hinner | hleft := List.mem_append.1 hrest
    · exact .inr (ht r hinner)
    · exact .inl (List.mem_singleton.1 hleft ▸ rfl)

theorem path_of_mem_around {kind : NodeKind} {path : Path} {place : Place} {t : List Report}
    {r : Report} (ht : ∀ r ∈ t, r.node.Inside (.of kind path))
    (hr : r ∈ Report.around kind path place t) : path <+: r.node.path := by
  obtain hself | hinside := node_of_mem_around ht hr
  · exact hself ▸ List.prefix_rfl
  · exact hinside.1

theorem inside_member {v : Value} {path : Path} {n : Node}
    (h : n = .of v.kind path ∨ n.Inside (.of v.kind path)) : n.Inside (.of .member path) := by
  have hvalue : Node.of v.kind path = ⟨path, false⟩ := by cases v <;> rfl
  rw [hvalue] at h
  obtain rfl | ⟨hpath, hne | ⟨hmember, -⟩⟩ := h
  · exact ⟨List.prefix_rfl, .inr ⟨rfl, rfl⟩⟩
  · exact ⟨hpath, .inl hne⟩
  · cases hmember

mutual

theorem node_of_mem_trace {path : Path} {place : Place} {r : Report} : ∀ {v : Value},
    r ∈ v.trace path place → r.node = .of v.kind path ∨ r.node.Inside (.of v.kind path)
  | .null, hr | .bool _, hr | .number _, hr | .string _, hr =>
    node_of_mem_around (List.forall_mem_nil _) hr
  | .array items, hr => by
    refine node_of_mem_around (fun r hr => ?_) hr
    obtain ⟨i, -, hpath⟩ := path_of_mem_itemsTrace hr
    exact Node.inside_of_step hpath
  | .object members, hr => by
    refine node_of_mem_around (fun r hr => ?_) hr
    obtain ⟨name, -, hpath⟩ := path_of_mem_membersTrace hr
    exact Node.inside_of_step hpath

theorem path_of_mem_itemsTrace {path : Path} {position : Nat} {r : Report} :
    ∀ {items : List Value}, r ∈ itemsTrace path position items →
      ∃ i, position ≤ i ∧ path ++ [.index i] <+: r.node.path
  | [], hr => absurd hr List.not_mem_nil
  | v :: rest, hr => by
    obtain hfirst | hrest := List.mem_append.1 hr
    · exact ⟨position, Nat.le_refl _, (inside_member (node_of_mem_trace hfirst)).1⟩
    · obtain ⟨i, hi, hpath⟩ := path_of_mem_itemsTrace hrest
      exact ⟨i, Nat.le_of_succ_le hi, hpath⟩

theorem path_of_mem_membersTrace {path : Path} {r : Report} :
    ∀ {members : List (String × Value)}, r ∈ membersTrace path members →
      ∃ name ∈ members.map Prod.fst, path ++ [.member name] <+: r.node.path
  | [], hr => absurd hr List.not_mem_nil
  | (name, v) :: rest, hr => by
    obtain hfirst | hrest := List.mem_append.1 hr
    · exact ⟨name, List.mem_cons_self,
        path_of_mem_around (fun r hr => inside_member (node_of_mem_trace hr)) hfirst⟩
    · obtain ⟨name', hname, hpath⟩ := path_of_mem_membersTrace hrest
      exact ⟨name', List.mem_cons_of_mem _ hname, hpath⟩

end

section

variable {path : Path} {r r' : Report}

theorem inside_of_mem_itemsTrace {position : Nat} {items : List Value} (kind : NodeKind)
    (hr : r ∈ itemsTrace path position items) : r.node.Inside (.of kind path) := by
  obtain ⟨i, -, hpath⟩ := path_of_mem_itemsTrace hr
  exact Node.inside_of_step hpath

theorem inside_of_mem_membersTrace {members : List (String × Value)} (kind : NodeKind)
    (hr : r ∈ membersTrace path members) : r.node.Inside (.of kind path) := by
  obtain ⟨name, -, hpath⟩ := path_of_mem_membersTrace hr
  exact Node.inside_of_step hpath

theorem apart_of_step_ne {step step' : Segment} (h : step ≠ step')
    (hr : path ++ [step] <+: r.node.path) (hr' : path ++ [step'] <+: r'.node.path) : r.Apart r' :=
  ⟨Path.not_prefix_of_step_ne h hr hr', Path.not_prefix_of_step_ne h.symm hr' hr⟩

theorem apart_of_mem_itemsTrace {position : Nat} {place : Place} {v : Value} {rest : List Value}
    (hr : r ∈ v.trace (path ++ [.index position]) place)
    (hr' : r' ∈ itemsTrace path (position + 1) rest) : r.Apart r' := by
  have hpath := (inside_member (node_of_mem_trace hr)).1
  obtain ⟨i, hi, hpath'⟩ := path_of_mem_itemsTrace hr'
  have hne : Segment.index position ≠ .index i := by
    rintro ⟨⟩
    omega
  exact apart_of_step_ne hne hpath hpath'

theorem apart_of_mem_membersTrace {name : String} {place place' : Place} {v : Value}
    {rest : List (String × Value)} (hname : name ∉ rest.map Prod.fst)
    (hr : r ∈ Report.around .member (path ++ [.member name]) place
      (v.trace (path ++ [.member name]) place'))
    (hr' : r' ∈ membersTrace path rest) : r.Apart r' := by
  have hpath := path_of_mem_around (fun r hr => inside_member (node_of_mem_trace hr)) hr
  obtain ⟨name', hname', hpath'⟩ := path_of_mem_membersTrace hr'
  have hne : Segment.member name ≠ .member name' := by
    rintro ⟨⟩
    exact hname hname'
  exact apart_of_step_ne hne hpath hpath'

end

end Value

/-! ### Runs follow the trace -/

namespace TreeWalk

open Conduct
open Value (DistinctNames ItemsDistinct MembersDistinct)

mutual

theorem traces_runsValue (path : Path) (place : Place) : ∀ {v : Value}, v.DistinctNames →
    Traces (v.trace path place) (RunsValue path place v)
  | .null, _ | .bool _, _ | .number _, _ | .string _, _ =>
    (traces_still _).visitedValue (List.forall_mem_nil _) place
  | .array items, hv => by
    rw [DistinctNames] at hv
    have hitems := (traces_runsItems path 0 hv).map Value.array
    exact hitems.visitedValue (fun r => Value.inside_of_mem_itemsTrace _) place
  | .object members, hv => by
    rw [DistinctNames] at hv
    have hmembers := (traces_runsMembers path hv.1 hv.2).closedObject
    exact hmembers.visitedValue (fun r => Value.inside_of_mem_membersTrace _) place

theorem traces_runsItems (path : Path) (position : Nat) : ∀ {items : List Value},
    ItemsDistinct items →
      Traces (Value.itemsTrace path position items) (RunsItems path position items)
  | [], _ => traces_still []
  | v :: rest, hv => by
    rw [ItemsDistinct] at hv
    have hfirst := traces_runsValue (path ++ [.index position]) (.element position) hv.1
    have hrest := traces_runsItems path (position + 1) hv.2
    exact (hfirst.sequence hrest (fun r hr r' => Value.apart_of_mem_itemsTrace hr) rest).map _

theorem traces_runsMembers (path : Path) : ∀ {members : List (String × Value)},
    (members.map Prod.fst).Nodup → MembersDistinct members →
      Traces (Value.membersTrace path members) (RunsMembers path members)
  | [], _, _ => traces_still []
  | (name, v) :: rest, hn, hv => by
    rw [MembersDistinct] at hv
    rw [List.map_cons, List.nodup_cons] at hn
    have hvalue := traces_runsValue (path ++ [.member name]) (.memberValue name) hv.1
    have hfirst := hvalue.visited
      (fun r hr => Value.inside_member (Value.node_of_mem_trace hr)) (.member name) v
    have hrest := traces_runsMembers path hn.2 hv.2
    exact (hfirst.sequence hrest (fun r hr r' => Value.apart_of_mem_membersTrace hn.1 hr) _).map _

end

/-- Whatever a listener skips and detaches, a walk reports the trace of the document, without what
skipping hides, and up to the failure if there is one. -/
theorem walk_follows_trace {σ : Type} (w : TreeWalk) (l : Listener σ) (s : σ) {v : Value}
    (hv : v.DistinctNames) (hn : v.nesting ≤ w.maxDepth) :
    ∃ calls, w.walk l.logged (s, []) v =
        ⟨(w.walk l s v).result, ((w.walk l s v).state, calls), (w.walk l s v).failure⟩ ∧
      FollowsTrace (v.trace [] .root) calls (w.walk l s v).failure := by
  obtain ⟨calls, hwalk, hrun⟩ := exists_run_walk w l s hn
  exact ⟨calls, hwalk, traces_runsValue [] .root hv hrun⟩

/-- A member whose value is skipped is still left, and so are members that are detached. -/
theorem walk_follows_trace_over_skipped_value :
    let v : Value := .object [("a", .array [.null]), ("b", .null)]
    let l : Listener Nat :=
      { onEnter := fun e s => { state := s + 1, taken := e.kind = .array },
        onExit := fun e s => { state := s, taken := e.kind = .member } }
    let w : TreeWalk := { maxDepth := 2 }
    v.DistinctNames ∧ v.nesting ≤ w.maxDepth ∧
      ∃ calls, (w.walk l.logged (0, []) v).state.2 = calls ∧
        FollowsTrace (v.trace [] .root) calls none ∧
        calls.map Call.report =
          [.entered .object [], .entered .member [.member "a"], .entered .array [.member "a"],
            .left .member [.member "a"] (some "a") none, .entered .member [.member "b"],
            .entered .null [.member "b"], .left .null [.member "b"] (some "b") none,
            .left .member [.member "b"] (some "b") none, .left .object [] none none] := by
  intro v l w
  have hv : v.DistinctNames := ⟨by decide, ⟨trivial, trivial⟩, trivial, trivial⟩
  have hn : v.nesting ≤ w.maxDepth := by decide
  obtain ⟨calls, hwalk, htrace⟩ := walk_follows_trace w l 0 hv hn
  have hcalls : (w.walk l.logged (0, []) v).state.2 = calls := by rw [hwalk]
  exact ⟨hv, hn, calls, hcalls, htrace, hcalls ▸ rfl⟩

end TreeWalk
end JsonWalk
