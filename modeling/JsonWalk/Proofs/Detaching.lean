import JsonWalk.Proofs.Tracing

/-!
# What detaching does to a document

A walk detaches a member only when all members of its object have been walked over, and everything
else on the spot. Still each node is left with the value that the document has there without the
nodes that were detached inside of it, taken away one after the other, and the document is given
back without all of them.
-/

namespace JsonWalk

namespace Value

/-- Puts `null` in the place of the value at a path, or takes the member away that has the path. -/
def without (isMember : Bool) : Path → Value → Value
  | [], _ => .null
  | .index i :: rest, .array items => .array (items.modify i (without isMember rest))
  | .member name :: rest, .object members =>
    if isMember = true ∧ rest = [] then .object (members.filter (·.1 ≠ name))
    else .object (members.map fun m =>
      if m.1 = name then (m.1, without isMember rest m.2) else m)
  | _ :: _, v => v

/-- The value at `path` without some nodes inside of it, which have their paths from the root. -/
def detachAll (path : Path) (gone : List Node) (v : Value) : Value :=
  gone.foldl (fun v n => v.without n.isMember (n.path.drop path.length)) v

end Value

def Call.detached? (c : Call) : Option Node :=
  match c.event with
  | .entered _ _ => none
  | .left kind path _ _ _ => if c.taken then some (.of kind path) else none

/-- The nodes that are detached in the course of some calls. -/
def detaches (calls : List Call) : List Node := calls.filterMap Call.detached?

/-- With `v` at `path`, a node is left with its value as it was, without what is gone inside of
it. -/
def Event.Shows (path : Path) (v : Value) (gone : List Node) : Event → Prop
  | .entered _ _ => True
  | .left kind p shown _ _ => ∃ q original, p = path ++ q ∧ v.at? q = some original ∧
      shown = original.detachAll p (gone.filter (·.Inside (.of kind p)))

/-- With `v` at `path`, all calls show what is left of it where the nodes that are gone before them
have been taken away. -/
def Replays (path : Path) (v : Value) (gone : List Node) : List Call → Prop
  | [] => True
  | c :: calls => c.event.Shows path v gone ∧ Replays path v (gone ++ detaches [c]) calls

/-! ### Taking nodes away -/

namespace Value

theorem detachAll_append (path : Path) (gone gone' : List Node) (v : Value) :
    v.detachAll path (gone ++ gone') = (v.detachAll path gone).detachAll path gone' :=
  List.foldl_append

theorem drop_of_step {path p : Path} {s : Segment} (h : path ++ [s] <+: p) :
    p.drop path.length = s :: p.drop (path ++ [s]).length := by
  obtain ⟨rest, rfl⟩ := h
  simp

theorem detachAll_self (kind : NodeKind) (path : Path) (v : Value) :
    v.detachAll path [.of kind path] = .null := by
  rw [detachAll, List.foldl_cons, Node.of, List.drop_length]
  rfl

theorem modify_append_self {α : Type} (before after : List α) (a : α) (f : α → α) :
    (before ++ a :: after).modify before.length f = before ++ f a :: after := by
  induction before with
  | nil => rfl
  | cons b before ih => exact congrArg (b :: ·) ih

theorem detachAll_element {path : Path} {before after : List Value} {gone : List Node}
    (h : ∀ n ∈ gone, path ++ [.index before.length] <+: n.path) (v : Value) :
    (Value.array (before ++ v :: after)).detachAll path gone =
      .array (before ++ v.detachAll (path ++ [.index before.length]) gone :: after) := by
  induction gone generalizing v with
  | nil => rfl
  | cons n gone ih =>
    obtain ⟨hn, hgone⟩ := List.forall_mem_cons.1 h
    rw [detachAll, List.foldl_cons, drop_of_step hn, without, modify_append_self]
    exact ih hgone _

theorem map_ite_of_notMem {members : List (String × Value)} {name : String}
    (h : name ∉ members.map Prod.fst) (f : String × Value → String × Value) :
    (members.map fun m => if m.1 = name then f m else m) = members := by
  have hself : ∀ m ∈ members, (if m.1 = name then f m else m) = m := fun m hm =>
    if_neg fun hname => h (List.mem_map.2 ⟨m, hm, hname⟩)
  rw [List.map_congr_left hself, List.map_id']

theorem filter_ne_of_notMem {members : List (String × Value)} {name : String}
    (h : name ∉ members.map Prod.fst) : members.filter (·.1 ≠ name) = members := by
  refine List.filter_eq_self.2 fun m hm => ?_
  have hname : m.1 ≠ name := fun hname => h (List.mem_map.2 ⟨m, hm, hname⟩)
  exact decide_eq_true hname

theorem nodup_names_middle {before after : List (String × Value)} {name : String} {v : Value} :
    ((before ++ (name, v) :: after).map Prod.fst).Nodup ↔
      (name ∉ before.map Prod.fst ∧ name ∉ after.map Prod.fst) ∧
        ((before ++ after).map Prod.fst).Nodup := by
  rw [List.map_append, List.map_cons, List.nodup_middle, List.nodup_cons, List.mem_append, not_or,
    List.map_append]

section

variable {path : Path} {name : String} {before after : List (String × Value)}
  (hbefore : name ∉ before.map Prod.fst) (hafter : name ∉ after.map Prod.fst)
include hbefore hafter

theorem detachAll_memberValue {gone : List Node}
    (h : ∀ n ∈ gone, n.Inside (.of .member (path ++ [.member name]))) (v : Value) :
    (Value.object (before ++ (name, v) :: after)).detachAll path gone =
      .object (before ++ (name, v.detachAll (path ++ [.member name]) gone) :: after) := by
  induction gone generalizing v with
  | nil => rfl
  | cons n gone ih =>
    obtain ⟨⟨hpath, hstrict⟩, hgone⟩ := List.forall_mem_cons.1 h
    have hkeeps : ¬ (n.isMember = true ∧
        n.path.drop (path ++ [Segment.member name]).length = []) := by
      rintro ⟨hmember, hdrop⟩
      obtain hne | ⟨-, hvalue⟩ := hstrict
      · exact hne (hpath.eq_of_length_le (List.drop_eq_nil_iff.1 hdrop))
      · rw [hmember] at hvalue
        cases hvalue
    rw [detachAll, List.foldl_cons, drop_of_step hpath, without, if_neg hkeeps, List.map_append,
      List.map_cons, map_ite_of_notMem hbefore, map_ite_of_notMem hafter, if_pos rfl]
    exact ih hgone _

theorem detachAll_member (v : Value) :
    (Value.object (before ++ (name, v) :: after)).detachAll path
      [.of .member (path ++ [.member name])] = .object (before ++ after) := by
  rw [detachAll, List.foldl_cons, Node.of, List.drop_left, without, if_pos ⟨rfl, rfl⟩,
    List.filter_append, filter_ne_of_notMem hbefore,
    List.filter_cons_of_neg (by simp), filter_ne_of_notMem hafter]
  rfl

end

theorem at?_element (path : Path) (before after : List Value) (v : Value) :
    (Value.array (before ++ v :: after)).at? (.index before.length :: path) = v.at? path := by
  rw [at?_array, List.getElem?_append_right (Nat.le_refl _), Nat.sub_self]
  rfl

theorem at?_memberValue {name : String} {before : List (String × Value)}
    (h : name ∉ before.map Prod.fst) (path : Path) (after : List (String × Value)) (v : Value) :
    (Value.object (before ++ (name, v) :: after)).at? (.member name :: path) = v.at? path := by
  have hbefore : before.lookup name = none := by
    refine List.lookup_eq_none_iff.2 fun m hm => ?_
    have hne : name ≠ m.1 := fun hname => h (List.mem_map.2 ⟨m, hm, hname.symm⟩)
    exact bne_iff_ne.2 hne
  rw [at?_object, List.lookup_append, hbefore, Option.none_or, List.lookup_cons_self]
  rfl

end Value

/-! ### Replays -/

theorem detaches_append (calls calls' : List Call) :
    detaches (calls ++ calls') = detaches calls ++ detaches calls' :=
  List.filterMap_append

theorem Call.node_of_detached? {c : Call} {n : Node} (h : c.detached? = some n) :
    c.report.node = n := by
  obtain ⟨_ | ⟨kind, path⟩, taken, failure⟩ := c
  · cases h
  · cases taken with
    | false => cases h
    | true => exact Option.some_inj.1 h

theorem FollowsTrace.exists_of_mem_detaches {t : List Report} {calls : List Call}
    {failure : Option WalkError} (h : FollowsTrace t calls failure) {n : Node}
    (hn : n ∈ detaches calls) : ∃ r ∈ t, r.node = n :=
  h.exists_of_mem_filterMap Call.node_of_detached? hn

section

variable {path : Path} {v w : Value} {gone gone' : List Node} {calls calls' : List Call}

theorem replays_append : Replays path v gone (calls ++ calls') ↔
    Replays path v gone calls ∧ Replays path v (gone ++ detaches calls) calls' := by
  induction calls generalizing gone with
  | nil => simp [Replays, detaches]
  | cons c calls ih =>
    have hdetaches : detaches (c :: calls) = detaches [c] ++ detaches calls :=
      detaches_append [c] calls
    rw [List.cons_append, Replays, Replays, ih, hdetaches, List.append_assoc, and_assoc]

theorem Replays.shows {before after : List Call} {c : Call}
    (h : Replays path v gone (before ++ c :: after)) :
    c.event.Shows path v (gone ++ detaches before) :=
  (replays_append.1 h).2.1

theorem Event.Shows.of_apart {e : Event} (h : e.Shows path v gone')
    (hapart : ∀ n ∈ gone, ¬ n.Inside e.report.node) : e.Shows path v (gone ++ gone') := by
  cases e with
  | entered => trivial
  | left kind p shown property position =>
    have hnone : gone.filter (·.Inside (.of kind p)) = [] :=
      List.filter_eq_nil_iff.2 fun n hn => mt of_decide_eq_true (hapart n hn)
    obtain ⟨q, original, hp, hat, hshown⟩ := h
    refine ⟨q, original, hp, hat, ?_⟩
    rw [List.filter_append, hnone, List.nil_append, hshown]

theorem Replays.of_apart (h : Replays path v gone' calls)
    (hapart : ∀ c ∈ calls, ∀ n ∈ gone, ¬ n.Inside c.report.node) :
    Replays path v (gone ++ gone') calls := by
  induction calls generalizing gone' with
  | nil => trivial
  | cons c calls ih =>
    obtain ⟨hc, hcalls⟩ := List.forall_mem_cons.1 hapart
    have hrest := ih h.2 hcalls
    rw [← List.append_assoc] at hrest
    exact ⟨h.1.of_apart hc, hrest⟩

theorem Replays.of_step {s : Segment} (h : Replays (path ++ [s]) v gone calls)
    (hw : ∀ q, w.at? (s :: q) = v.at? q) : Replays path w gone calls := by
  induction calls generalizing gone with
  | nil => trivial
  | cons c calls ih =>
    obtain ⟨hc, hcalls⟩ := h
    refine ⟨?_, ih hcalls⟩
    cases he : c.event with
    | entered => trivial
    | left kind p shown property position =>
      rw [he] at hc
      obtain ⟨q, original, hp, hat, hshown⟩ := hc
      refine ⟨s :: q, original, ?_, (hw q).trans hat, hshown⟩
      rw [hp, List.append_assoc]
      rfl

end

/-! ### Without detaching -/

namespace Conduct

open TreeWalk (closeObject Visited Sequence VisitedValue ClosedObject)

/-- Where nothing is detached, `a` is left as it is. -/
def Keeps {α : Type} (a : α) (c : Conduct α) : Prop :=
  ∀ ⦃calls b failure⦄, c calls b failure → detaches calls = [] → b = a

theorem keeps_still {α : Type} (a : α) : Keeps a (still a) := fun _ _ _ h _ => h.2.1

theorem Keeps.map {α β : Type} {a : α} {c : Conduct α} (h : Keeps a c) (f : α → β) :
    Keeps (f a) (map f c) := by
  rintro calls b failure ⟨a', rfl, hc⟩ hnone
  rw [h hc hnone]

theorem Keeps.closedObject {members : List (String × Value)} {c : Conduct (List WalkedMember)}
    (h : Keeps (members.map (·, false)) c) : Keeps (.object members) (ClosedObject c) := by
  rintro calls w failure ⟨members', rfl, hc⟩ hnone
  rw [h hc hnone]
  cases failure <;> simp [closeObject, Function.comp_def, List.filter_map]

theorem Keeps.visited {v : Value} {inside : Conduct Value} (h : Keeps v inside) (kind : NodeKind)
    (path : Path) (place : Place) : Keeps (v, false) (Visited kind path place v inside) := by
  intro calls outcome failure hvisited hnone
  cases hvisited with
  | refused | skipped => rfl
  | stopped hrun => exact congrArg (·, false) (h hrun hnone)
  | @left calls w gone failure hrun =>
    have hdetaches := detaches_append calls
      [⟨.left kind path w place.property place.position, gone, failure⟩]
    obtain ⟨hcalls, hleft⟩ := List.append_eq_nil_iff.1 (hdetaches.symm.trans hnone)
    cases gone with
    | false => exact congrArg (·, false) (h hrun hcalls)
    | true => cases hleft

theorem Keeps.visitedValue {v : Value} {inside : Conduct Value} (h : Keeps v inside) (path : Path)
    (place : Place) : Keeps v (VisitedValue path place v inside) :=
  (h.visited v.kind path place).map Prod.fst

theorem Keeps.sequence {α β : Type} {first : Conduct α} {second : Conduct β} {a : α} {b : β}
    (hfirst : Keeps a first) (hsecond : Keeps b second) :
    Keeps (a, b) (Sequence first second b) := by
  intro calls outcome failure h hnone
  cases h with
  | stopped hrun => rw [hfirst hrun hnone]
  | passed hrun hrun' =>
    rw [detaches_append, List.append_eq_nil_iff] at hnone
    rw [hfirst hrun hnone.1, hsecond hrun' hnone.2]

end Conduct

namespace TreeWalk

open Conduct
open Value (DistinctNames ItemsDistinct MembersDistinct)

mutual

theorem keeps_runsValue (path : Path) (place : Place) :
    ∀ v : Value, Keeps v (RunsValue path place v)
  | .null | .bool _ | .number _ | .string _ => (keeps_still _).visitedValue path place
  | .array items => ((keeps_runsItems path 0 items).map Value.array).visitedValue path place
  | .object members => (keeps_runsMembers path members).closedObject.visitedValue path place

theorem keeps_runsItems (path : Path) (position : Nat) :
    ∀ items : List Value, Keeps items (RunsItems path position items)
  | [] => keeps_still []
  | v :: rest => by
    have hfirst := keeps_runsValue (path ++ [.index position]) (.element position) v
    have hrest := keeps_runsItems path (position + 1) rest
    exact (hfirst.sequence hrest).map fun parts => parts.1 :: parts.2

theorem keeps_runsMembers (path : Path) : ∀ members : List (String × Value),
    Keeps (members.map (·, false)) (RunsMembers path members)
  | [] => keeps_still []
  | (name, v) :: rest => by
    have hvalue := keeps_runsValue (path ++ [.member name]) (.memberValue name) v
    have hfirst := hvalue.visited .member (path ++ [.member name]) (.member name)
    have hrest := keeps_runsMembers path rest
    exact (hfirst.sequence hrest).map fun parts => ((name, parts.1.1), parts.1.2) :: parts.2

end

end TreeWalk

/-! ### What a run gives back -/

namespace Conduct

open TreeWalk (closeObject Visited Sequence VisitedValue ClosedObject)

/-- All that is detached is inside of `outer`. -/
def StaysInside {α : Type} (outer : Node) (c : Conduct α) : Prop :=
  ∀ ⦃calls a failure⦄, c calls a failure → ∀ n ∈ detaches calls, n.Inside outer

theorem Traces.staysInside {α : Type} {t : List Report} {c : Conduct α} (h : Traces t c)
    {outer : Node} (ht : ∀ r ∈ t, r.node.Inside outer) : StaysInside outer c := by
  intro calls a failure hc n hn
  obtain ⟨r, hr, rfl⟩ := (h hc).exists_of_mem_detaches hn
  exact ht r hr

/-- What happens at `path` leaves the value there without what is detached. -/
def GivesBack (path : Path) (v : Value) (c : Conduct Value) : Prop :=
  ∀ ⦃calls w⦄, c calls w none → w = v.detachAll path (detaches calls)

def GivesBackItems (path : Path) (position : Nat) (items : List Value)
    (c : Conduct (List Value)) : Prop :=
  ∀ ⦃before⦄, before.length = position → ∀ ⦃calls items'⦄, c calls items' none →
    .array (before ++ items') = (Value.array (before ++ items)).detachAll path (detaches calls)

def GivesBackMembers (path : Path) (members : List (String × Value))
    (c : Conduct (List WalkedMember)) : Prop :=
  ∀ ⦃before⦄, ((before ++ members).map Prod.fst).Nodup → ∀ ⦃calls members'⦄,
    c calls members' none → .object (before ++ (members'.filter (!·.2)).map (·.1)) =
      (Value.object (before ++ members)).detachAll path (detaches calls)

theorem givesBack_still (path : Path) (v : Value) : GivesBack path v (still v) := by
  rintro calls w ⟨rfl, rfl, -⟩
  rfl

theorem givesBackItems_nil (path : Path) (position : Nat) :
    GivesBackItems path position [] (still []) := by
  rintro before - calls items' ⟨rfl, rfl, -⟩
  rfl

theorem givesBackMembers_nil (path : Path) : GivesBackMembers path [] (still []) := by
  rintro before - calls members' ⟨rfl, rfl, -⟩
  rfl

section

variable {kind : NodeKind} {path : Path} {place : Place} {v : Value} {inside : Conduct Value}

theorem GivesBackItems.array {items : List Value} {c : Conduct (List Value)}
    (h : GivesBackItems path 0 items c) : GivesBack path (.array items) (map Value.array c) := by
  rintro calls w ⟨items', rfl, hc⟩
  exact h List.length_nil hc

theorem GivesBackMembers.closedObject {members : List (String × Value)}
    {c : Conduct (List WalkedMember)} (h : GivesBackMembers path members c)
    (hn : (members.map Prod.fst).Nodup) : GivesBack path (.object members) (ClosedObject c) := by
  rintro calls w ⟨members', rfl, hc⟩
  have hnames : (([] ++ members).map Prod.fst).Nodup := hn
  exact h hnames hc

/-- At a node all that is inside of it is detached before the node. -/
theorem GivesBack.outcome (h : GivesBack path v inside)
    (hinside : StaysInside (.of kind path) inside) {calls : List Call} {outcome : Value × Bool}
    (hvisited : Visited kind path place v inside calls outcome none) :
    ∃ gone, (∀ n ∈ gone, n.Inside (.of kind path)) ∧
      (outcome = (v.detachAll path gone, false) ∧ detaches calls = gone ∨
        outcome = (.null, true) ∧ detaches calls = gone ++ [.of kind path]) := by
  cases hvisited with
  | skipped => exact ⟨[], List.forall_mem_nil _, .inl ⟨rfl, rfl⟩⟩
  | @left calls w gone failure hrun =>
    refine ⟨detaches calls, hinside hrun, ?_⟩
    have hdetaches := detaches_append calls
      [⟨.left kind path w place.property place.position, gone, none⟩]
    cases gone with
    | false => exact .inl ⟨congrArg (·, false) (h hrun), hdetaches.trans (List.append_nil _)⟩
    | true => exact .inr ⟨rfl, hdetaches⟩

theorem GivesBack.visitedValue (h : GivesBack path v inside)
    (hinside : StaysInside (.of v.kind path) inside) (place : Place) :
    GivesBack path v (VisitedValue path place v inside) := by
  rintro calls w ⟨outcome, rfl, hvisited⟩
  obtain ⟨gone, -, ⟨rfl, hcalls⟩ | ⟨rfl, hcalls⟩⟩ := h.outcome hinside hvisited
  · rw [hcalls]
  · rw [hcalls, Value.detachAll_append, Value.detachAll_self]

theorem GivesBackItems.cons {position : Nat} {rest : List Value} {first : Conduct Value}
    {second : Conduct (List Value)} (hfirst : GivesBack (path ++ [.index position]) v first)
    (hinside : StaysInside (.of .member (path ++ [.index position])) first)
    (hrest : GivesBackItems path (position + 1) rest second) :
    GivesBackItems path position (v :: rest)
      (map (fun parts => parts.1 :: parts.2) (Sequence first second rest)) := by
  rintro before rfl calls items' ⟨⟨w, rest'⟩, rfl, h⟩
  cases h with
  | @passed calls calls' _ _ _ hrun hrun' =>
    have hpaths : ∀ n ∈ detaches calls, path ++ [.index before.length] <+: n.path :=
      fun n hn => (hinside hrun n hn).1
    have hlength : (before ++ [w]).length = before.length + 1 := List.length_append
    calc Value.array (before ++ w :: rest')
      _ = (Value.array (before ++ w :: rest)).detachAll path (detaches calls') := by
        rw [List.append_cons, hrest hlength hrun', ← List.append_cons]
      _ = ((Value.array (before ++ v :: rest)).detachAll path (detaches calls)).detachAll path
          (detaches calls') := by rw [Value.detachAll_element hpaths, hfirst hrun]
      _ = (Value.array (before ++ v :: rest)).detachAll path (detaches (calls ++ calls')) := by
        rw [detaches_append, Value.detachAll_append]

theorem GivesBackMembers.cons {name : String} {rest : List (String × Value)}
    {second : Conduct (List WalkedMember)} (hfirst : GivesBack (path ++ [.member name]) v inside)
    (hinside : StaysInside (.of .member (path ++ [.member name])) inside)
    (hrest : GivesBackMembers path rest second) :
    GivesBackMembers path ((name, v) :: rest)
      (map (fun parts => ((name, parts.1.1), parts.1.2) :: parts.2)
        (Sequence (Visited .member (path ++ [.member name]) place v inside) second
          (rest.map (·, false)))) := by
  rintro before hn calls members' ⟨⟨outcome, rest'⟩, rfl, h⟩
  obtain ⟨⟨hbefore, hafter⟩, hothers⟩ := Value.nodup_names_middle.1 hn
  cases h with
  | @passed calls calls' _ _ _ hrun hrun' =>
    obtain ⟨gone, hgone, ⟨rfl, hcalls⟩ | ⟨rfl, hcalls⟩⟩ := hfirst.outcome hinside hrun
    · let w := v.detachAll (path ++ [.member name]) gone
      have hnames : ((before ++ [(name, w)] ++ rest).map Prod.fst).Nodup := by
        rw [← List.append_cons]
        exact Value.nodup_names_middle.2 ⟨⟨hbefore, hafter⟩, hothers⟩
      have hrest' := hrest hnames hrun'
      rw [← List.append_cons, ← List.append_cons] at hrest'
      rw [detaches_append, hcalls, Value.detachAll_append,
        Value.detachAll_memberValue hbefore hafter hgone]
      exact hrest'
    · have hrest' := hrest hothers hrun'
      rw [detaches_append, hcalls, Value.detachAll_append, Value.detachAll_append,
        Value.detachAll_memberValue hbefore hafter hgone, Value.detachAll_member hbefore hafter]
      exact hrest'

end

end Conduct

namespace TreeWalk

open Conduct
open Value (DistinctNames ItemsDistinct MembersDistinct)

section

variable (path : Path) {items : List Value} {members : List (String × Value)}

theorem staysInside_runsValue (place : Place) {v : Value} (hv : v.DistinctNames) :
    StaysInside (.of .member path) (RunsValue path place v) :=
  (traces_runsValue path place hv).staysInside fun _ hr =>
    Value.inside_member (Value.node_of_mem_trace hr)

theorem staysInside_array (kind : NodeKind) (hv : ItemsDistinct items) :
    StaysInside (.of kind path) (map Value.array (RunsItems path 0 items)) :=
  ((traces_runsItems path 0 hv).map Value.array).staysInside fun _ =>
    Value.inside_of_mem_itemsTrace kind

theorem staysInside_object (kind : NodeKind) (hn : (members.map Prod.fst).Nodup)
    (hv : MembersDistinct members) :
    StaysInside (.of kind path) (ClosedObject (RunsMembers path members)) :=
  (traces_runsMembers path hn hv).closedObject.staysInside fun _ =>
    Value.inside_of_mem_membersTrace kind

end

theorem staysInside_still {α : Type} (outer : Node) (a : α) : StaysInside outer (still a) :=
  (traces_still a).staysInside (List.forall_mem_nil _)

mutual

theorem givesBack_runsValue (path : Path) (place : Place) :
    ∀ {v : Value}, v.DistinctNames → GivesBack path v (RunsValue path place v)
  | .null, _ | .bool _, _ | .number _, _ | .string _, _ =>
    (givesBack_still path _).visitedValue (staysInside_still _ _) place
  | .array items, hv => by
    rw [DistinctNames] at hv
    have hitems := (givesBackItems_runs path 0 hv).array
    exact hitems.visitedValue (staysInside_array path _ hv) place
  | .object members, hv => by
    rw [DistinctNames] at hv
    have hmembers := (givesBackMembers_runs path hv.2).closedObject hv.1
    exact hmembers.visitedValue (staysInside_object path _ hv.1 hv.2) place

theorem givesBackItems_runs (path : Path) (position : Nat) :
    ∀ {items : List Value}, ItemsDistinct items →
      GivesBackItems path position items (RunsItems path position items)
  | [], _ => givesBackItems_nil path position
  | v :: rest, hv => by
    rw [ItemsDistinct] at hv
    exact .cons (givesBack_runsValue _ _ hv.1) (staysInside_runsValue _ _ hv.1)
      (givesBackItems_runs path (position + 1) hv.2)

theorem givesBackMembers_runs (path : Path) :
    ∀ {members : List (String × Value)}, MembersDistinct members →
      GivesBackMembers path members (RunsMembers path members)
  | [], _ => givesBackMembers_nil path
  | (name, v) :: rest, hv => by
    rw [MembersDistinct] at hv
    exact .cons (givesBack_runsValue _ _ hv.1) (staysInside_runsValue _ _ hv.1)
      (givesBackMembers_runs path hv.2)

end

end TreeWalk

/-! ### What a run shows -/

namespace Conduct

open TreeWalk (Visited Sequence VisitedValue ClosedObject)

/-- Whatever happens at `path` shows what is left of the value there. -/
def ShowsReplay {α : Type} (path : Path) (v : Value) (c : Conduct α) : Prop :=
  ∀ ⦃calls a failure⦄, c calls a failure → Replays path v [] calls

theorem showsReplay_still {α : Type} (path : Path) (v : Value) (a : α) :
    ShowsReplay path v (still a) := by
  rintro calls b failure ⟨rfl, -, -⟩
  trivial

theorem ShowsReplay.map {α β : Type} {path : Path} {v : Value} {c : Conduct α}
    (h : ShowsReplay path v c) (f : α → β) : ShowsReplay path v (map f c) := by
  rintro calls b failure ⟨a, -, hc⟩
  exact h hc

theorem ShowsReplay.closedObject {path : Path} {v : Value} {c : Conduct (List WalkedMember)}
    (h : ShowsReplay path v c) : ShowsReplay path v (ClosedObject c) := by
  rintro calls w failure ⟨members, -, hc⟩
  exact h hc

theorem ShowsReplay.visited {kind : NodeKind} {path : Path} {v : Value} {inside : Conduct Value}
    (hinside : ShowsReplay path v inside) (hv : GivesBack path v inside)
    (hn : StaysInside (.of kind path) inside) (place : Place) :
    ShowsReplay path v (Visited kind path place v inside) := by
  intro calls outcome failure h
  cases h with
  | refused | skipped => exact ⟨trivial, trivial⟩
  | stopped hrun => exact ⟨trivial, hinside hrun⟩
  | @left calls w gone failure hrun =>
    have hall : (detaches calls).filter (·.Inside (.of kind path)) = detaches calls :=
      List.filter_eq_self.2 fun n hmem => decide_eq_true (hn hrun n hmem)
    have hshown : w = v.detachAll path ((detaches calls).filter (·.Inside (.of kind path))) := by
      rw [hall, ← hv hrun]
    exact ⟨trivial, replays_append.2 ⟨hinside hrun,
      ⟨[], v, (List.append_nil _).symm, Value.at?_nil v, hshown⟩, trivial⟩⟩

theorem ShowsReplay.visitedValue {path : Path} {v : Value} {inside : Conduct Value}
    (hinside : ShowsReplay path v inside) (hv : GivesBack path v inside)
    (hn : StaysInside (.of v.kind path) inside) (place : Place) :
    ShowsReplay path v (VisitedValue path place v inside) :=
  (hinside.visited hv hn place).map Prod.fst

theorem ShowsReplay.of_step {α : Type} {path : Path} {s : Segment} {v w : Value} {c : Conduct α}
    (h : ShowsReplay (path ++ [s]) v c) (hw : ∀ q, w.at? (s :: q) = v.at? q) :
    ShowsReplay path w c :=
  fun _ _ _ hc => (h hc).of_step hw

theorem ShowsReplay.sequence {α β : Type} {path : Path} {v : Value} {first : Conduct α}
    {second : Conduct β} {t t' : List Report} (hfirst : ShowsReplay path v first)
    (hsecond : ShowsReplay path v second) (ht : Traces t first) (ht' : Traces t' second)
    (hapart : ∀ r ∈ t, ∀ r' ∈ t', r.Apart r') (idle : β) :
    ShowsReplay path v (Sequence first second idle) := by
  intro calls outcome failure h
  cases h with
  | stopped hrun => exact hfirst hrun
  | @passed calls calls' _ _ _ hrun hrun' =>
    have hrest : Replays path v (detaches calls ++ []) calls' := by
      refine (hsecond hrun').of_apart fun c hc n hn hinside => ?_
      obtain ⟨r, hr, rfl⟩ := (ht hrun).exists_of_mem_detaches hn
      exact (hapart r hr c.report ((ht' hrun').report_mem hc)).2 hinside.1
    rw [List.append_nil] at hrest
    exact replays_append.2 ⟨hfirst hrun, hrest⟩

end Conduct

namespace TreeWalk

open Conduct
open Value (DistinctNames ItemsDistinct MembersDistinct)

mutual

theorem showsReplay_runsValue (path : Path) (place : Place) :
    ∀ {v : Value}, v.DistinctNames → ShowsReplay path v (RunsValue path place v)
  | .null, _ | .bool _, _ | .number _, _ | .string _, _ =>
    (showsReplay_still path _ _).visitedValue (givesBack_still path _) (staysInside_still _ _) place
  | .array items, hv => by
    rw [DistinctNames] at hv
    have hitems := (showsReplay_runsItems path List.length_nil hv).map Value.array
    exact hitems.visitedValue (givesBackItems_runs path 0 hv).array (staysInside_array path _ hv)
      place
  | .object members, hv => by
    rw [DistinctNames] at hv
    have hnames : (([] ++ members).map Prod.fst).Nodup := hv.1
    have hmembers := (showsReplay_runsMembers path hnames hv.2).closedObject
    exact hmembers.visitedValue ((givesBackMembers_runs path hv.2).closedObject hv.1)
      (staysInside_object path _ hv.1 hv.2) place

theorem showsReplay_runsItems (path : Path) {position : Nat} :
    ∀ {before items : List Value}, before.length = position → ItemsDistinct items →
      ShowsReplay path (.array (before ++ items)) (RunsItems path position items)
  | before, [], _, _ => showsReplay_still path _ _
  | before, v :: rest, hposition, hv => by
    subst hposition
    rw [ItemsDistinct] at hv
    have hlength : (before ++ [v]).length = before.length + 1 := List.length_append
    have hrest := showsReplay_runsItems path hlength hv.2
    rw [← List.append_cons] at hrest
    have hfirst : ShowsReplay path (.array (before ++ v :: rest))
        (RunsValue (path ++ [.index before.length]) (.element before.length) v) :=
      (showsReplay_runsValue _ _ hv.1).of_step fun q => Value.at?_element q before rest v
    exact (hfirst.sequence hrest (traces_runsValue _ _ hv.1) (traces_runsItems path _ hv.2)
      (fun r hr r' => Value.apart_of_mem_itemsTrace hr) rest).map _

theorem showsReplay_runsMembers (path : Path) :
    ∀ {before members : List (String × Value)}, ((before ++ members).map Prod.fst).Nodup →
      MembersDistinct members →
      ShowsReplay path (.object (before ++ members)) (RunsMembers path members)
  | before, [], _, _ => showsReplay_still path _ _
  | before, (name, v) :: rest, hn, hv => by
    rw [MembersDistinct] at hv
    obtain ⟨⟨hbefore, hafter⟩, hothers⟩ := Value.nodup_names_middle.1 hn
    rw [List.map_append] at hothers
    have hrest := showsReplay_runsMembers path (List.append_cons _ _ _ ▸ hn) hv.2
    rw [← List.append_cons] at hrest
    have hinside : ∀ r ∈ v.trace (path ++ [.member name]) (.memberValue name),
        r.node.Inside (.of .member (path ++ [.member name])) := fun r hr =>
      Value.inside_member (Value.node_of_mem_trace hr)
    have hvisited := (showsReplay_runsValue (path ++ [.member name]) (.memberValue name)
      hv.1).visited (givesBack_runsValue _ _ hv.1) (staysInside_runsValue _ _ hv.1) (.member name)
    have hfirst := hvisited.of_step fun q => Value.at?_memberValue hbefore q rest v
    exact (hfirst.sequence hrest ((traces_runsValue _ _ hv.1).visited hinside _ v)
      (traces_runsMembers path hothers.of_append_right hv.2)
      (fun r hr r' => Value.apart_of_mem_membersTrace hafter hr) _).map _

end

/-- A walk leaves every node with the value that the document has there, without what has been
detached inside of it so far. When it ends well it gives the document back without all that was
detached, and where nothing was, it gives it back as it is even when it fails. -/
theorem walk_replays_detaches {σ : Type} (w : TreeWalk) (l : Listener σ) (s : σ) {v : Value}
    (hv : v.DistinctNames) (hn : v.nesting ≤ w.maxDepth) :
    ∃ calls, w.walk l.logged (s, []) v =
        ⟨(w.walk l s v).result, ((w.walk l s v).state, calls), (w.walk l s v).failure⟩ ∧
      (∀ before c after, calls = before ++ c :: after →
        ∀ kind path shown property position, c.event = .left kind path shown property position →
          ∃ original, v.at? path = some original ∧
            shown = original.detachAll path ((detaches before).filter (·.Inside (.of kind path)))) ∧
      ((w.walk l s v).failure = none → (w.walk l s v).result = v.detachAll [] (detaches calls)) ∧
      (detaches calls = [] → (w.walk l s v).result = v) := by
  obtain ⟨calls, hwalk, hrun⟩ := exists_run_walk w l s hn
  refine ⟨calls, hwalk, ?_, fun hok => ?_, keeps_runsValue [] .root v hrun⟩
  · rintro before c after rfl kind path shown property position he
    have hshows := (showsReplay_runsValue [] .root hv hrun).shows
    rw [he] at hshows
    obtain ⟨q, original, rfl, hat, hshown⟩ := hshows
    exact ⟨original, hat, hshown⟩
  · rw [hok] at hrun
    exact givesBack_runsValue [] .root hv hrun

/-- The array of a member is left with `null` for its element, before the other member goes. -/
theorem walk_replays_detaches_of_element_and_member :
    let v : Value := .object [("a", .array [.bool true]), ("b", .null)]
    let l : Listener Nat :=
      { onEnter := fun _ s => { state := s },
        onExit := fun e s =>
          { state := s + 1, taken := e.kind = .boolean ∨ e.path = [.member "b"] } }
    let w : TreeWalk := { maxDepth := 2 }
    v.DistinctNames ∧ v.nesting ≤ w.maxDepth ∧ (w.walk l 0 v).failure = none ∧
      ∃ calls, (w.walk l.logged (0, []) v).state.2 = calls ∧
        detaches calls =
          [⟨[.member "a", .index 0], false⟩, ⟨[.member "b"], false⟩, ⟨[.member "b"], true⟩] ∧
        (w.walk l 0 v).result = v.detachAll [] (detaches calls) ∧
        v.detachAll [] (detaches calls) = .object [("a", .array [.null])] := by
  intro v l w
  have hv : v.DistinctNames := ⟨by decide, ⟨trivial, trivial⟩, trivial, trivial⟩
  have hn : v.nesting ≤ w.maxDepth := by decide
  have hok : (w.walk l 0 v).failure = none := by decide
  obtain ⟨calls, hwalk, -, hresult, -⟩ := walk_replays_detaches w l 0 hv hn
  have hcalls : (w.walk l.logged (0, []) v).state.2 = calls := by rw [hwalk]
  have hdetaches : detaches calls =
      [⟨[.member "a", .index 0], false⟩, ⟨[.member "b"], false⟩, ⟨[.member "b"], true⟩] := by
    rw [← hcalls]
    decide
  exact ⟨hv, hn, hok, calls, hcalls, hdetaches, hresult hok, hdetaches ▸ rfl⟩

end TreeWalk
end JsonWalk
