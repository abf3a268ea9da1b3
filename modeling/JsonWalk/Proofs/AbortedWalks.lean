import JsonWalk.Proofs.Detaching

/-!
# Walks that a failure ends

What was detached before a failure stays detached, with one exception. A member leaves its object
when all members have been walked over, so a failure inside of an object keeps the members there
that were detached from it: they stand with `null`.
-/

namespace JsonWalk

/-! ### Walks at any depth -/

namespace TreeWalk

open Conduct (map)

/-- What can happen if walks do not go into arrays and objects with `limit` others around them: what
can happen anyway, or what can happen if the listener refuses one of these, without that call. -/
inductive Limited {α : Type} (limit : Nat) (c : Conduct α) : Conduct α
  | within {calls : List Call} {a : α} {failure : Option WalkError} : c calls a failure →
    Limited limit c calls a failure
  | tooDeep {calls : List Call} {a : α} (kind : NodeKind) (path : Path) : kind.isContainer →
    limit ≤ path.length →
    c (calls ++ [⟨.entered kind path, false, some (.tooDeep limit)⟩]) a (some (.tooDeep limit)) →
    Limited limit c calls a (some (.tooDeep limit))

section

variable {σ α β : Type} {limit : Nat} {c : Conduct α}
  {logged : σ × List Call → Walked (σ × List Call) α} {plain : σ → Walked σ α}

theorem Logs.mono {c' : Conduct α} (h : Logs logged plain c)
    (hmono : ∀ calls a failure, c calls a failure → c' calls a failure) : Logs logged plain c' := by
  intro s log
  obtain ⟨calls, heq, hrun⟩ := h s log
  exact ⟨calls, heq, hmono _ _ _ hrun⟩

theorem Limited.map (f : α → β) {calls : List Call} {b : β} {failure : Option WalkError}
    (h : map f (Limited limit c) calls b failure) : Limited limit (map f c) calls b failure := by
  obtain ⟨a, rfl, h⟩ := h
  cases h with
  | within h => exact .within ⟨a, rfl, h⟩
  | tooDeep kind path hkind hdeep h => exact .tooDeep kind path hkind hdeep ⟨a, rfl, h⟩

theorem Limited.closedObject {c : Conduct (List WalkedMember)} {calls : List Call} {w : Value}
    {failure : Option WalkError} (h : ClosedObject (Limited limit c) calls w failure) :
    Limited limit (ClosedObject c) calls w failure := by
  obtain ⟨members, rfl, h⟩ := h
  cases h with
  | within h => exact .within ⟨members, rfl, h⟩
  | tooDeep kind path hkind hdeep h => exact .tooDeep kind path hkind hdeep ⟨members, rfl, h⟩

theorem Limited.visited {kind : NodeKind} {path : Path} {place : Place} {v : Value}
    {inside : Conduct Value} {calls : List Call} {outcome : Value × Bool}
    {failure : Option WalkError}
    (h : Visited kind path place v (Limited limit inside) calls outcome failure) :
    Limited limit (Visited kind path place v inside) calls outcome failure := by
  cases h with
  | refused taken e => exact .within (.refused taken e)
  | skipped => exact .within .skipped
  | stopped h =>
    cases h with
    | within h => exact .within (.stopped h)
    | tooDeep kind path hkind hdeep h => exact .tooDeep kind path hkind hdeep (.stopped h)
  | left gone failure h =>
    cases h with
    | within h => exact .within (.left gone failure h)

theorem Limited.sequence {first first' : Conduct α} {second : Conduct β} {idle : β}
    {calls : List Call} {parts : α × β} {failure : Option WalkError}
    (hfirst : ∀ calls a failure, first' calls a failure → Limited limit first calls a failure)
    (h : Sequence first' (Limited limit second) idle calls parts failure) :
    Limited limit (Sequence first second idle) calls parts failure := by
  cases h with
  | stopped hrun =>
    cases hfirst _ _ _ hrun with
    | within h => exact .within (.stopped h)
    | tooDeep kind path hkind hdeep h => exact .tooDeep kind path hkind hdeep (.stopped h)
  | passed hrun hrun' =>
    cases hfirst _ _ _ hrun with
    | within h =>
      cases hrun' with
      | within h' => exact .within (.passed h h')
      | tooDeep kind path hkind hdeep h' =>
        refine .tooDeep kind path hkind hdeep ?_
        rw [List.append_assoc]
        exact .passed h h'

theorem Limited.visitedValue {path : Path} {place : Place} {v : Value} {inside : Conduct Value}
    {calls : List Call} {w : Value} {failure : Option WalkError}
    (h : VisitedValue path place v (Limited limit inside) calls w failure) :
    Limited limit (VisitedValue path place v inside) calls w failure := by
  obtain ⟨outcome, rfl, h⟩ := h
  exact .map Prod.fst ⟨outcome, rfl, .visited h⟩

end

section

variable {σ : Type} {l : Listener σ} {limit : Nat}

theorem logs_visitContainer {path : Path} {depth : Nat} {v : Value} {inside : Conduct Value}
    {logged : σ × List Call → Walked (σ × List Call) Value} {plain : σ → Walked σ Value}
    (hpath : path.length = depth) (hv : v.kind.isContainer) (place : Place)
    (h : depth + 1 ≤ limit → Logs logged plain (Limited limit inside)) :
    Logs (visitValue l.logged limit path place (depth + 1) v logged)
      (visitValue l limit path place (depth + 1) v plain)
      (Limited limit (VisitedValue path place v inside)) := by
  by_cases hdepth : depth + 1 ≤ limit
  · exact (logs_visitValue path place v hdepth (h hdepth)).mono fun _ _ _ => .visitedValue
  · have hdeep : limit < depth + 1 := Nat.not_le.1 hdepth
    intro s log
    rw [visitValue, visitValue, if_pos hdeep, if_pos hdeep]
    have hlong : limit ≤ path.length := hpath ▸ Nat.le_of_lt_succ hdeep
    refine ⟨[], by rw [List.append_nil], .tooDeep v.kind path hv hlong ?_⟩
    exact ⟨(v, false), rfl, .refused false _⟩

mutual

/-- Every walk is a run, up to the first array or object that lies too deep. -/
theorem logs_walkValue_limited (path : Path) (place : Place) {depth : Nat}
    (hpath : path.length = depth) (hdepth : depth ≤ limit) : ∀ v : Value,
      Logs (walkValue l.logged limit path place depth · v) (walkValue l limit path place depth · v)
        (Limited limit (RunsValue path place v))
  | .null | .bool _ | .number _ | .string _ =>
    (logs_visitValue path place _ hdepth (logs_still _)).mono fun _ _ _ => .within
  | .array items =>
    logs_visitContainer hpath rfl place fun hdepth =>
      ((logs_walkItems_limited path 0 (hpath ▸ rfl) hdepth items).map Value.array).mono
        fun _ _ _ => .map Value.array
  | .object members =>
    logs_visitContainer hpath rfl place fun hdepth =>
      (logs_closeObject (logs_walkMembers_limited path (hpath ▸ rfl) hdepth members)).mono
        fun _ _ _ => .closedObject

theorem logs_walkItems_limited (path : Path) {depth : Nat} (position : Nat)
    (hpath : path.length + 1 = depth) (hdepth : depth ≤ limit) : ∀ items : List Value,
      Logs (walkItems l.logged limit path depth position · items)
        (walkItems l limit path depth position · items)
        (Limited limit (RunsItems path position items))
  | [] => (logs_still []).mono fun _ _ _ => .within
  | v :: rest => by
    have hv := logs_walkValue_limited (path ++ [.index position]) (.element position)
      (List.length_append.trans hpath) hdepth v
    have hrest := logs_walkItems_limited path (position + 1) hpath hdepth rest
    refine (logs_walkItems_cons hv hrest).mono ?_
    rintro calls _ failure ⟨parts, rfl, h⟩
    exact .map _ ⟨parts, rfl, .sequence (fun _ _ _ h => h) h⟩

theorem logs_walkMembers_limited (path : Path) {depth : Nat} (hpath : path.length + 1 = depth)
    (hdepth : depth ≤ limit) : ∀ members : List (String × Value),
      Logs (walkMembers l.logged limit path depth · members)
        (walkMembers l limit path depth · members) (Limited limit (RunsMembers path members))
  | [] => (logs_still []).mono fun _ _ _ => .within
  | (name, v) :: rest => by
    have hv := logs_walkValue_limited (path ++ [.member name]) (.memberValue name)
      (List.length_append.trans hpath) hdepth v
    have hrest := logs_walkMembers_limited path hpath hdepth rest
    refine (logs_walkMembers_cons hv hrest).mono ?_
    rintro calls _ failure ⟨parts, rfl, h⟩
    exact .map _ ⟨parts, rfl, .sequence (fun _ _ _ => .visited) h⟩

end

theorem exists_limited_walk (w : TreeWalk) (l : Listener σ) (s : σ) (v : Value) :
    ∃ calls, w.walk l.logged (s, []) v =
        ⟨(w.walk l s v).result, ((w.walk l s v).state, calls), (w.walk l s v).failure⟩ ∧
      Limited w.maxDepth (RunsValue [] .root v) calls (w.walk l s v).result
        (w.walk l s v).failure :=
  logs_walkValue_limited [] .root rfl (Nat.zero_le w.maxDepth) v s []

end

end TreeWalk

/-! ### Members that cannot leave -/

namespace Node

variable {p path : Path} {n outer : Node} {gone : List Node}

/-- A member of an object inside of which `p` is. -/
def Pending (p : Path) (n : Node) : Prop :=
  n.isMember = true ∧ n.path.dropLast <+: p ∧ n.path.dropLast ≠ p

instance (p : Path) (n : Node) : Decidable (n.Pending p) := inferInstanceAs (Decidable (_ ∧ _))

/-- What a failure at `p` lets be taken away: of a member that cannot leave only the value. -/
def settled (p : Path) (n : Node) : Node := if n.Pending p then ⟨n.path, false⟩ else n

theorem settled_of_not_pending (h : ¬ n.Pending p) : n.settled p = n := if_neg h

theorem settled_path : (n.settled p).path = n.path := by
  rw [settled]
  split <;> rfl

theorem Inside.settled (h : n.Inside outer) (p : Path) : (n.settled p).Inside outer := by
  rw [Node.settled]
  split
  · exact ⟨h.1, h.2.imp_right fun hvalue => ⟨hvalue.1, rfl⟩⟩
  · exact h

/-- A member is kept only by an object that is open. -/
theorem Inside.not_pending (h : n.Inside outer) (hp : outer.path <+: p → outer.path = p) :
    ¬ n.Pending p := by
  rintro ⟨hmember, hprefix, hne⟩
  have hlonger : outer.path ≠ n.path := by
    obtain hlonger | ⟨-, hvalue⟩ := h.2
    · exact hlonger
    · rw [hmember] at hvalue
      cases hvalue
  have hobject : outer.path <+: n.path.dropLast := by
    obtain ⟨rest, hrest⟩ := h.1
    have hne : rest ≠ [] := fun hnil => hlonger (by rw [← hrest, hnil, List.append_nil])
    rw [← hrest, List.dropLast_append_of_ne_nil hne]
    exact List.prefix_append _ _
  have heq : outer.path = p := hp (hobject.trans hprefix)
  exact hne (List.IsPrefix.eq_of_length_le hprefix (heq ▸ hobject.length_le))

theorem not_pending_of_step_ne {kind : NodeKind} {step step' : Segment} (hstep : step ≠ step')
    (h : n.Inside (.of kind (path ++ [step]))) (hp : path ++ [step'] <+: p) : ¬ n.Pending p :=
  h.not_pending fun hprefix =>
    absurd hprefix (Path.not_prefix_of_step_ne hstep List.prefix_rfl hp)

theorem settled_member {name : String} (hp : path <+: p) (hne : path ≠ p) :
    (Node.of .member (path ++ [.member name])).settled p = ⟨path ++ [.member name], false⟩ := by
  have hobject : (path ++ [Segment.member name]).dropLast = path := List.dropLast_concat
  exact if_pos ⟨rfl, hobject.symm ▸ hp, hobject.symm ▸ hne⟩

theorem map_settled (h : ∀ n ∈ gone, ¬ n.Pending p) : gone.map (settled p) = gone :=
  (List.map_congr_left fun n hn => settled_of_not_pending (h n hn)).trans (List.map_id' gone)

end Node

/-- Where the last of some calls was made. -/
def stop (calls : List Call) : Path := (calls.getLast?.map (·.report.node.path)).getD []

/-- What some calls leave of the value `v` at `path` if the last of them fails: `w`, which is `v`
without what was detached, but with `null` for the members that cannot leave. -/
structure Leaves (path : Path) (v w : Value) (calls : List Call) : Prop where
  given : w = v.detachAll path ((detaches calls).map (Node.settled (stop calls)))
  stands : ∀ n ∈ detaches calls, n.Pending (stop calls) → ∃ q name,
    n.path = path ++ (q ++ [.member name]) ∧ w.at? (q ++ [.member name]) = some .null

section

variable {path : Path} {u v w : Value} {calls calls' : List Call} {c : Call}

theorem stop_concat (calls : List Call) (c : Call) :
    stop (calls ++ [c]) = c.report.node.path := by
  rw [stop, List.getLast?_concat]
  rfl

theorem stop_append (h : calls' ≠ []) : stop (calls ++ calls') = stop calls' := by
  rw [stop, List.getLast?_append_of_ne_nil _ h]
  rfl

theorem FollowsTrace.exists_stop {t : List Report} {e : WalkError}
    (h : FollowsTrace t calls (some e)) : calls ≠ [] ∧ ∃ r ∈ t, stop calls = r.node.path := by
  obtain ⟨before, c, rfl, -⟩ := h.2
  refine ⟨List.append_ne_nil_of_right_ne_nil _ (List.cons_ne_nil _ _), c.report, ?_, ?_⟩
  · exact h.report_mem (List.mem_append_right _ (List.mem_singleton_self c))
  · exact stop_concat before c

namespace Leaves

theorem of_not_pending (hw : w = v.detachAll path (detaches calls))
    (h : ∀ n ∈ detaches calls, ¬ n.Pending (stop calls)) : Leaves path v w calls where
  given := by rw [hw, Node.map_settled h]
  stands n hn hpending := absurd hpending (h n hn)

theorem entered (h : Leaves path v w calls) (hne : calls ≠ []) (kind : NodeKind) (p : Path) :
    Leaves path v w (⟨.entered kind p, false, none⟩ :: calls) := by
  have hstop : stop ([⟨.entered kind p, false, none⟩] ++ calls) = stop calls := stop_append hne
  exact ⟨hstop ▸ h.given, hstop ▸ h.stands⟩

theorem append (h : Leaves path v w calls') (hne : calls' ≠ [])
    (hv : v = u.detachAll path ((detaches calls).map (Node.settled (stop calls'))))
    (hstands : ∀ n ∈ detaches calls, n.Pending (stop calls') → ∃ q name,
      n.path = path ++ (q ++ [.member name]) ∧ w.at? (q ++ [.member name]) = some .null) :
    Leaves path u w (calls ++ calls') where
  given := by
    rw [h.given, hv, detaches_append, stop_append hne, List.map_append, Value.detachAll_append]
  stands n hn := by
    rw [stop_append hne]
    rw [detaches_append, List.mem_append] at hn
    exact hn.elim (hstands n) (h.stands n)

theorem element {before after : List Value}
    (h : Leaves (path ++ [.index before.length]) v w calls)
    (hinside : ∀ n ∈ detaches calls, path ++ [.index before.length] <+: n.path) :
    Leaves path (.array (before ++ v :: after)) (.array (before ++ w :: after)) calls where
  given := by
    have hpaths : ∀ n ∈ (detaches calls).map (Node.settled (stop calls)),
        path ++ [.index before.length] <+: n.path :=
      List.forall_mem_map.2 fun n hn => Node.settled_path.symm ▸ hinside n hn
    rw [Value.detachAll_element hpaths, ← h.given]
  stands n hn hpending := by
    obtain ⟨q, name, hpath, hw⟩ := h.stands n hn hpending
    refine ⟨.index before.length :: q, name, ?_, ?_⟩
    · rw [hpath, List.append_assoc]
      rfl
    · rw [List.cons_append, Value.at?_element, hw]

theorem memberValue {name : String} {before after : List (String × Value)}
    (hbefore : name ∉ before.map Prod.fst) (hafter : name ∉ after.map Prod.fst)
    (h : Leaves (path ++ [.member name]) v w calls)
    (hinside : ∀ n ∈ detaches calls, n.Inside (.of .member (path ++ [.member name]))) :
    Leaves path (.object (before ++ (name, v) :: after)) (.object (before ++ (name, w) :: after))
      calls where
  given := by
    have hsettled : ∀ n ∈ (detaches calls).map (Node.settled (stop calls)),
        n.Inside (.of .member (path ++ [.member name])) :=
      List.forall_mem_map.2 fun n hn => (hinside n hn).settled _
    rw [Value.detachAll_memberValue hbefore hafter hsettled, ← h.given]
  stands n hn hpending := by
    obtain ⟨q, name', hpath, hw⟩ := h.stands n hn hpending
    refine ⟨.member name :: q, name', ?_, ?_⟩
    · rw [hpath, List.append_assoc]
      rfl
    · rw [List.cons_append, Value.at?_memberValue hbefore, hw]

end Leaves

end

section

variable {path p : Path} {name : String} {before after : List (String × Value)}
  {gone : List Node} {n : Node}

theorem Value.detachAll_pending (hbefore : name ∉ before.map Prod.fst)
    (hafter : name ∉ after.map Prod.fst)
    (hinside : ∀ n ∈ gone, n.Inside (.of .member (path ++ [.member name])))
    (hgone : ∀ n ∈ gone, ¬ n.Pending p) (hp : path <+: p) (hne : path ≠ p) (v : Value) :
    (Value.object (before ++ (name, v) :: after)).detachAll path
        ((gone ++ [Node.of .member (path ++ [.member name])]).map (Node.settled p)) =
      .object (before ++ (name, .null) :: after) := by
  have hvalue : ∀ n ∈ [(⟨path ++ [.member name], false⟩ : Node)],
      n.Inside (.of .member (path ++ [.member name])) :=
    List.forall_mem_singleton.2 ⟨List.prefix_rfl, .inr ⟨rfl, rfl⟩⟩
  rw [List.map_append, Node.map_settled hgone, List.map_singleton, Node.settled_member hp hne,
    Value.detachAll_append, Value.detachAll_memberValue hbefore hafter hinside,
    Value.detachAll_memberValue hbefore hafter hvalue]
  exact congrArg (fun w => Value.object (before ++ (name, w) :: after))
    (Value.detachAll_self .null _ _)

theorem Value.exists_of_pending (hbefore : name ∉ before.map Prod.fst)
    (hgone : ∀ n ∈ gone, ¬ n.Pending p) (hn : n ∈ gone ++ [.of .member (path ++ [.member name])])
    (hpending : n.Pending p) : ∃ q name', n.path = path ++ (q ++ [.member name']) ∧
      (Value.object (before ++ (name, .null) :: after)).at? (q ++ [.member name']) =
        some .null := by
  obtain hmem | hself := List.mem_append.1 hn
  · exact absurd hpending (hgone n hmem)
  · cases List.mem_singleton.1 hself
    exact ⟨[], name, rfl, Value.at?_memberValue hbefore [] after .null⟩

end

/-! ### What a run leaves -/

namespace Conduct

open TreeWalk (closeObject Visited Sequence VisitedValue ClosedObject)

/-- A failure at or inside of `path` leaves of the value there what can be left. -/
def LeavesValue (path : Path) (v : Value) (c : Conduct Value) : Prop :=
  ∀ ⦃calls w e⦄, c calls w (some e) → Leaves path v w calls

def LeavesItems (path : Path) (position : Nat) (items : List Value)
    (c : Conduct (List Value)) : Prop :=
  ∀ ⦃before⦄, before.length = position → ∀ ⦃calls items' e⦄, c calls items' (some e) →
    Leaves path (.array (before ++ items)) (.array (before ++ items')) calls

def LeavesMembers (path : Path) (members : List (String × Value))
    (c : Conduct (List WalkedMember)) : Prop :=
  ∀ ⦃before⦄, ((before ++ members).map Prod.fst).Nodup → ∀ ⦃calls members' e⦄,
    c calls members' (some e) →
      Leaves path (.object (before ++ members)) (.object (before ++ members'.map (·.1))) calls

theorem leavesValue_still (path : Path) (v : Value) : LeavesValue path v (still v) := by
  rintro calls w e ⟨-, -, hfailure⟩
  cases hfailure

section

variable {kind : NodeKind} {path : Path} {place : Place} {v : Value} {inside : Conduct Value}
  {t : List Report}

theorem LeavesItems.array {items : List Value} {c : Conduct (List Value)}
    (h : LeavesItems path 0 items c) : LeavesValue path (.array items) (map Value.array c) := by
  rintro calls w e ⟨items', rfl, hc⟩
  exact h List.length_nil hc

theorem LeavesMembers.closedObject {members : List (String × Value)}
    {c : Conduct (List WalkedMember)} (h : LeavesMembers path members c)
    (hn : (members.map Prod.fst).Nodup) : LeavesValue path (.object members) (ClosedObject c) := by
  rintro calls w e ⟨members', rfl, hc⟩
  have hnames : (([] ++ members).map Prod.fst).Nodup := hn
  exact h hnames hc

/-- A failure at a node or inside of it leaves the node, or it is the listener's after it has
detached the node. -/
theorem LeavesValue.outcome (h : LeavesValue path v inside) (hv : GivesBack path v inside)
    (hn : StaysInside (.of kind path) inside) (ht : Traces t inside) {calls : List Call}
    {outcome : Value × Bool} {e : WalkError}
    (hvisited : Visited kind path place v inside calls outcome (some e)) :
    (∃ w, outcome = (w, false) ∧ (∀ n ∈ detaches calls, n.Inside (.of kind path)) ∧
        Leaves path v w calls) ∨
      outcome = (.null, true) ∧ stop calls = path ∧
        ∃ gone, (∀ n ∈ gone, n.Inside (.of kind path)) ∧
          detaches calls = gone ++ [.of kind path] := by
  cases hvisited with
  | refused taken e =>
    exact .inl ⟨v, rfl, List.forall_mem_nil _, .of_not_pending rfl (List.forall_mem_nil _)⟩
  | @stopped calls w e hrun =>
    have hcalls : ∀ n ∈ detaches calls, n.Inside (.of kind path) := hn hrun
    exact .inl ⟨w, rfl, hcalls, (h hrun).entered (ht hrun).exists_stop.1 kind path⟩
  | @left calls w gone failure hrun =>
    let last : Call := ⟨.left kind path w place.property place.position, gone, some e⟩
    have hstop : stop (⟨.entered kind path, false, none⟩ :: (calls ++ [last])) = path :=
      stop_concat (⟨.entered kind path, false, none⟩ :: calls) last
    have hdetaches : detaches (⟨.entered kind path, false, none⟩ :: (calls ++ [last])) =
        detaches calls ++ detaches [last] := detaches_append calls [last]
    cases gone with
    | false =>
      rw [show detaches [last] = [] from rfl, List.append_nil] at hdetaches
      refine .inl ⟨w, rfl, hdetaches ▸ hn hrun, .of_not_pending (hdetaches ▸ hv hrun) ?_⟩
      rw [hdetaches, hstop]
      exact fun n hmem => (hn hrun n hmem).not_pending fun _ => rfl
    | true => exact .inr ⟨rfl, hstop, detaches calls, hn hrun, hdetaches⟩

theorem LeavesValue.visitedValue (h : LeavesValue path v inside) (hv : GivesBack path v inside)
    (hn : StaysInside (.of v.kind path) inside) (ht : Traces t inside) (place : Place) :
    LeavesValue path v (VisitedValue path place v inside) := by
  rintro calls w e ⟨outcome, rfl, hvisited⟩
  obtain ⟨w, rfl, -, hw⟩ | ⟨rfl, hstop, gone, hgone, hdetaches⟩ := h.outcome hv hn ht hvisited
  · exact hw
  · refine .of_not_pending ?_ ?_
    · rw [hdetaches, Value.detachAll_append, Value.detachAll_self]
    · rw [hdetaches, hstop, List.forall_mem_append, List.forall_mem_singleton]
      refine ⟨fun n hmem => (hgone n hmem).not_pending fun _ => rfl, fun hpending => ?_⟩
      have hvalue : (Node.of v.kind path).isMember = false := by cases v <;> rfl
      exact Bool.false_ne_true (hvalue.symm.trans hpending.1)

theorem LeavesItems.cons {position : Nat} {rest : List Value} {first : Conduct Value}
    {second : Conduct (List Value)} (hfirst : LeavesValue (path ++ [.index position]) v first)
    (hv : GivesBack (path ++ [.index position]) v first)
    (hinside : StaysInside (.of .member (path ++ [.index position])) first)
    (hrest : LeavesItems path (position + 1) rest second)
    (ht : Traces (Value.itemsTrace path (position + 1) rest) second) :
    LeavesItems path position (v :: rest)
      (map (fun parts => parts.1 :: parts.2) (Sequence first second rest)) := by
  rintro before rfl calls items' e ⟨⟨w, rest'⟩, rfl, h⟩
  cases h with
  | stopped hrun => exact (hfirst hrun).element fun n hn => (hinside hrun n hn).1
  | @passed calls calls' _ _ _ hrun hrun' =>
    have hpaths : ∀ n ∈ detaches calls, path ++ [.index before.length] <+: n.path :=
      fun n hn => (hinside hrun n hn).1
    have hlength : (before ++ [w]).length = before.length + 1 := List.length_append
    obtain ⟨hne, r, hr, hstop⟩ := (ht hrun').exists_stop
    -- the failure is in a later element
    have hnone : ∀ n ∈ detaches calls, ¬ n.Pending (stop calls') := by
      obtain ⟨i, hi, hpath⟩ := Value.path_of_mem_itemsTrace hr
      have hstep : Segment.index before.length ≠ .index i := by
        rintro ⟨⟩
        omega
      rw [hstop]
      exact fun n hn => Node.not_pending_of_step_ne hstep (hinside hrun n hn) hpath
    have hleaves := hrest hlength hrun'
    rw [← List.append_cons, ← List.append_cons] at hleaves
    refine hleaves.append hne ?_ fun n hn hpending => absurd hpending (hnone n hn)
    rw [Node.map_settled hnone, Value.detachAll_element hpaths, hv hrun]

theorem LeavesMembers.cons {name : String} {rest : List (String × Value)}
    {second : Conduct (List WalkedMember)} (hfirst : LeavesValue (path ++ [.member name]) v inside)
    (hv : GivesBack (path ++ [.member name]) v inside)
    (hinside : StaysInside (.of .member (path ++ [.member name])) inside) (ht : Traces t inside)
    (hrest : LeavesMembers path rest second)
    (ht' : Traces (Value.membersTrace path rest) second) :
    LeavesMembers path ((name, v) :: rest)
      (map (fun parts => ((name, parts.1.1), parts.1.2) :: parts.2)
        (Sequence (Visited .member (path ++ [.member name]) place v inside) second
          (rest.map (·, false)))) := by
  rintro before hn calls members' e ⟨⟨outcome, rest'⟩, rfl, h⟩
  obtain ⟨⟨hbefore, hafter⟩, hothers⟩ := Value.nodup_names_middle.1 hn
  cases h with
  | stopped hrun =>
    have hidle : (rest.map (·, false)).map Prod.fst = rest := by
      simp [Function.comp_def]
    rw [List.map_cons, hidle]
    obtain ⟨w, rfl, hcalls, hw⟩ | ⟨rfl, hstop, gone, hgone, hdetaches⟩ :=
      hfirst.outcome hv hinside ht hrun
    · exact hw.memberValue hbefore hafter hcalls
    · -- the listener has failed after it detached the member
      have hnone : ∀ n ∈ gone, ¬ n.Pending (path ++ [.member name]) :=
        fun n hn => (hgone n hn).not_pending fun _ => rfl
      refine ⟨?_, fun n hn hpending => ?_⟩
      · rw [hdetaches, hstop]
        have hobject : path ≠ path ++ [.member name] := by simp
        exact (Value.detachAll_pending hbefore hafter hgone hnone (List.prefix_append _ _)
          hobject v).symm
      · rw [hstop] at hpending
        exact Value.exists_of_pending hbefore hnone (hdetaches ▸ hn) hpending
  | @passed calls calls' _ _ _ hrun hrun' =>
    obtain ⟨hne, r, hr, hstop⟩ := (ht' hrun').exists_stop
    obtain ⟨name', hname', hpath⟩ := Value.path_of_mem_membersTrace hr
    have hstep : Segment.member name ≠ .member name' := by
      rintro ⟨⟩
      exact hafter hname'
    have hnone {gone : List Node}
        (h : ∀ n ∈ gone, n.Inside (.of .member (path ++ [.member name]))) :
        ∀ n ∈ gone, ¬ n.Pending (stop calls') :=
      fun n hn => Node.not_pending_of_step_ne hstep (h n hn) (hstop ▸ hpath)
    have hleaves (w : Value) : Leaves path (.object (before ++ (name, w) :: rest))
        (.object (before ++ (name, w) :: rest'.map (·.1))) calls' := by
      have hnames : ((before ++ [(name, w)] ++ rest).map Prod.fst).Nodup := by
        rw [← List.append_cons]
        exact Value.nodup_names_middle.2 ⟨⟨hbefore, hafter⟩, hothers⟩
      have hrest' := hrest hnames hrun'
      rwa [← List.append_cons, ← List.append_cons] at hrest'
    obtain ⟨gone, hgone, ⟨rfl, hcalls⟩ | ⟨rfl, hcalls⟩⟩ := hv.outcome hinside hrun
    · refine (hleaves _).append hne ?_ fun n hn hpending => ?_
      · rw [hcalls, Node.map_settled (hnone hgone),
          Value.detachAll_memberValue hbefore hafter hgone]
      · exact absurd hpending (hnone hgone n (hcalls ▸ hn))
    · refine (hleaves _).append hne ?_ fun n hn hpending => ?_
      · have hobject : path ≠ stop calls' := fun heq =>
          Path.not_prefix_of_step hpath (hstop ▸ heq ▸ List.prefix_rfl)
        rw [hcalls]
        exact (Value.detachAll_pending hbefore hafter hgone (hnone hgone)
          (hstop ▸ (List.prefix_append _ _).trans hpath) hobject v).symm
      · exact Value.exists_of_pending hbefore (hnone hgone) (hcalls ▸ hn) hpending

end

end Conduct

namespace TreeWalk

open Conduct
open Value (DistinctNames ItemsDistinct MembersDistinct)

mutual

theorem leaves_runsValue (path : Path) (place : Place) :
    ∀ {v : Value}, v.DistinctNames → LeavesValue path v (RunsValue path place v)
  | .null, _ | .bool _, _ | .number _, _ | .string _, _ =>
    (leavesValue_still path _).visitedValue (givesBack_still path _) (staysInside_still _ _)
      (traces_still _) place
  | .array items, hv => by
    rw [DistinctNames] at hv
    exact (leaves_runsItems path 0 hv).array.visitedValue (givesBackItems_runs path 0 hv).array
      (staysInside_array path _ hv) ((traces_runsItems path 0 hv).map Value.array) place
  | .object members, hv => by
    rw [DistinctNames] at hv
    have hmembers := (leaves_runsMembers path hv.1 hv.2).closedObject hv.1
    exact hmembers.visitedValue ((givesBackMembers_runs path hv.2).closedObject hv.1)
      (staysInside_object path _ hv.1 hv.2) (traces_runsMembers path hv.1 hv.2).closedObject place

theorem leaves_runsItems (path : Path) (position : Nat) :
    ∀ {items : List Value}, ItemsDistinct items →
      LeavesItems path position items (RunsItems path position items)
  | [], _ => by
    rintro before - calls items' e ⟨-, -, hfailure⟩
    cases hfailure
  | v :: rest, hv => by
    rw [ItemsDistinct] at hv
    exact .cons (leaves_runsValue _ _ hv.1) (givesBack_runsValue _ _ hv.1)
      (staysInside_runsValue _ _ hv.1) (leaves_runsItems path (position + 1) hv.2)
      (traces_runsItems path (position + 1) hv.2)

theorem leaves_runsMembers (path : Path) :
    ∀ {members : List (String × Value)}, (members.map Prod.fst).Nodup → MembersDistinct members →
      LeavesMembers path members (RunsMembers path members)
  | [], _, _ => by
    rintro before - calls members' e ⟨-, -, hfailure⟩
    cases hfailure
  | (name, v) :: rest, hn, hv => by
    rw [MembersDistinct] at hv
    rw [List.map_cons, List.nodup_cons] at hn
    exact .cons (leaves_runsValue _ _ hv.1) (givesBack_runsValue _ _ hv.1)
      (staysInside_runsValue _ _ hv.1) (traces_runsValue _ _ hv.1)
      (leaves_runsMembers path hn.2 hv.2) (traces_runsMembers path hn.2 hv.2)

end

end TreeWalk

/-! ### What is taken away stays away -/

namespace Value

section

variable {members : List (String × Value)} {name k : String}

theorem lookup_filter_ne :
    (members.filter (·.1 ≠ name)).lookup k = if k = name then none else members.lookup k := by
  induction members with
  | nil => simp
  | cons m members ih =>
    obtain ⟨name', v⟩ := m
    by_cases hname : name' = name
    · subst hname
      rw [List.filter_cons_of_neg (by simp), ih]
      split
      · rfl
      · next hk => rw [lookup_cons_of_ne hk]
    · rw [List.filter_cons_of_pos (by simpa using hname)]
      by_cases hk : k = name'
      · subst hk
        rw [List.lookup_cons_self, List.lookup_cons_self, if_neg hname]
      · rw [lookup_cons_of_ne hk, lookup_cons_of_ne hk, ih]

theorem lookup_map_ite (f : Value → Value) :
    (members.map fun m => if m.1 = name then (m.1, f m.2) else m).lookup k =
      (members.lookup k).map fun v => if k = name then f v else v := by
  induction members with
  | nil => rfl
  | cons m members ih =>
    obtain ⟨name', v⟩ := m
    rw [List.map_cons, ← apply_ite (Prod.mk name')]
    by_cases hk : k = name'
    · subst hk
      rw [List.lookup_cons_self, List.lookup_cons_self, Option.map_some]
    · rw [lookup_cons_of_ne hk, lookup_cons_of_ne hk, ih]

end

theorem at?_cons (s : Segment) (q : Path) (v : Value) :
    v.at? (s :: q) = (v.at? [s]).bind (at? q) := by
  cases v with
  | array items =>
    cases s with
    | index i =>
      rw [at?_array, at?_array]
      cases items[i]? <;> simp
    | member k => rfl
  | object members =>
    cases s with
    | index i => rfl
    | member k =>
      rw [at?_object, at?_object]
      cases members.lookup k <;> simp
  | _ => rw [at?_cons_of_scalar rfl, at?_cons_of_scalar rfl, Option.bind_none]

section

variable {s t : Segment} {r : Path} {isMember : Bool}

theorem at?_without_of_ne (hne : s ≠ t) (v : Value) :
    (v.without isMember (t :: r)).at? [s] = v.at? [s] := by
  cases t with
  | index i =>
    cases v with
    | array items =>
      cases s with
      | index j =>
        have hij : i ≠ j := fun heq => hne (heq ▸ rfl)
        simp only [without, at?_array, List.getElem?_modify, if_neg hij, Option.map_eq_map,
          Option.map_id']
      | member k => rfl
    | _ => rfl
  | member name =>
    cases v with
    | object members =>
      cases s with
      | index j =>
        rw [without]
        split <;> rfl
      | member k =>
        have hk : k ≠ name := fun heq => hne (heq ▸ rfl)
        rw [without]
        split
        · rw [at?_object, at?_object, lookup_filter_ne, if_neg hk]
        · simp only [at?_object, lookup_map_ite, if_neg hk, Option.map_id']
    | _ => rfl

theorem at?_without_inside (h : ∀ name, isMember = true → r = [] → t ≠ .member name) (v : Value) :
    (v.without isMember (t :: r)).at? [t] = (v.at? [t]).map (without isMember r) := by
  cases t with
  | index i =>
    cases v with
    | array items =>
      rw [without, at?_array, at?_array, List.getElem?_modify_eq]
      cases items[i]? <;> rfl
    | _ => rfl
  | member name =>
    cases v with
    | object members =>
      rw [without, if_neg fun hgone => h name hgone.1 hgone.2 rfl]
      simp only [at?_object, lookup_map_ite, if_true]
      cases members.lookup name <;> rfl
    | _ => rfl

theorem at?_without_member (name : String) (v : Value) :
    (v.without true [.member name]).at? [.member name] = none := by
  cases v with
  | object members =>
    rw [without, if_pos ⟨rfl, rfl⟩, at?_object, lookup_filter_ne, if_pos rfl]
    rfl
  | _ => rfl

end

theorem at?_without_of_none {q r : Path} {v : Value} (isMember : Bool) (h : v.at? q = none) :
    (v.without isMember r).at? q = none := by
  induction r generalizing v q with
  | nil =>
    cases q with
    | nil => cases h.symm.trans (at?_nil v)
    | cons s q => exact at?_cons_of_scalar rfl s q
  | cons t r ih =>
    cases q with
    | nil => cases h.symm.trans (at?_nil v)
    | cons s q =>
      rw [at?_cons] at h ⊢
      by_cases hs : s = t
      · subst hs
        by_cases hgone : ∃ name, isMember = true ∧ r = [] ∧ s = .member name
        · obtain ⟨name, rfl, rfl, rfl⟩ := hgone
          rw [at?_without_member, Option.bind_none]
        · rw [at?_without_inside fun name hm hr hs => hgone ⟨name, hm, hr, hs⟩]
          cases hat : v.at? [s] with
          | none => rfl
          | some a => exact ih (by rwa [hat] at h)
      · rw [at?_without_of_ne hs, h]

theorem at?_detachAll_of_none {path q : Path} {v : Value} (h : v.at? q = none)
    (gone : List Node) : (v.detachAll path gone).at? q = none := by
  induction gone generalizing v with
  | nil => exact h
  | cons n gone ih => exact ih (at?_without_of_none _ h)

theorem at?_without_self (q : Path) (name : String) (v : Value) :
    (v.without true (q ++ [.member name])).at? (q ++ [.member name]) = none := by
  induction q generalizing v with
  | nil => exact at?_without_member name v
  | cons s q ih =>
    rw [List.cons_append, at?_cons, at?_without_inside fun _ _ hr => absurd hr (by simp)]
    cases v.at? [s] with
    | none => rfl
    | some a => exact ih a

theorem at?_detachAll_of_mem {q : Path} {name : String} {gone : List Node}
    (h : ⟨q ++ [.member name], true⟩ ∈ gone) (v : Value) :
    (v.detachAll [] gone).at? (q ++ [.member name]) = none := by
  obtain ⟨before, after, rfl⟩ := List.append_of_mem h
  rw [detachAll_append]
  exact at?_detachAll_of_none (at?_without_self q name _) after

end Value

namespace TreeWalk

/-- A walk over a document that has made these calls has failed with this error at this path: the
last call has failed there, or a limit has kept the walk from entering what lies there. -/
inductive FailsAt (maxDepth : Nat) (document : Value) : List Call → WalkError → Path → Prop
  | listener {before : List Call} {c : Call} {e : WalkError} :
    FollowsTrace (document.trace [] .root) (before ++ [c]) (some e) → c.failure = some e →
    FailsAt maxDepth document (before ++ [c]) e c.report.node.path
  | tooDeep {calls : List Call} {kind : NodeKind} {path : Path} : kind.isContainer →
    maxDepth ≤ path.length →
    FollowsTrace (document.trace [] .root)
      (calls ++ [⟨.entered kind path, false, some (.tooDeep maxDepth)⟩])
      (some (.tooDeep maxDepth)) →
    FailsAt maxDepth document calls (.tooDeep maxDepth) path

/-- A run that fails has come to a path that tells what it leaves. -/
theorem Limited.exists_failsAt {maxDepth : Nat} {v w : Value} {calls : List Call} {e : WalkError}
    (hv : v.DistinctNames) (h : Limited maxDepth (RunsValue [] .root v) calls w (some e)) :
    ∃ p, FailsAt maxDepth v calls e p ∧
      w = v.detachAll [] ((detaches calls).map (Node.settled p)) ∧
      ∀ n ∈ detaches calls, n.Pending p → ∃ q name,
        n.path = q ++ [.member name] ∧ w.at? (q ++ [.member name]) = some .null := by
  cases h with
  | within hrun =>
    have htrace := traces_runsValue [] .root hv hrun
    have hleaves := leaves_runsValue [] .root hv hrun
    obtain ⟨before, c, rfl, hc, -⟩ := htrace.2
    exact ⟨stop (before ++ [c]), stop_concat before c ▸ .listener htrace hc, hleaves.given,
      hleaves.stands⟩
  | tooDeep kind path hkind hdeep hrun =>
    let last : Call := ⟨.entered kind path, false, some (.tooDeep maxDepth)⟩
    have hleaves := leaves_runsValue [] .root hv hrun
    have hstop : stop (calls ++ [last]) = path := stop_concat calls last
    have hdetaches : detaches (calls ++ [last]) = detaches calls :=
      (detaches_append calls [last]).trans (List.append_nil _)
    have hgiven := hleaves.given
    have hstands := hleaves.stands
    rw [hstop, hdetaches] at hgiven hstands
    exact ⟨path, .tooDeep hkind hdeep (traces_runsValue [] .root hv hrun), hgiven, hstands⟩

/-- A walk that fails leaves the document without what was detached before, but with `null` for each
detached member of an object that the failure is inside of. If there is one, the document is not
what it is without all that was detached. -/
theorem walk_leaves_pending_members {σ : Type} (w : TreeWalk) (l : Listener σ) (s : σ) {v : Value}
    (hv : v.DistinctNames) {e : WalkError} (he : (w.walk l s v).failure = some e) :
    ∃ calls p, w.walk l.logged (s, []) v =
        ⟨(w.walk l s v).result, ((w.walk l s v).state, calls), some e⟩ ∧
      FailsAt w.maxDepth v calls e p ∧
      (w.walk l s v).result = v.detachAll [] ((detaches calls).map (Node.settled p)) ∧
      (∀ n ∈ detaches calls, n.Pending p → (w.walk l s v).result.at? n.path = some .null) ∧
      ((w.walk l s v).result = v.detachAll [] (detaches calls) ↔
        ∀ n ∈ detaches calls, ¬ n.Pending p) := by
  obtain ⟨calls, hwalk, hrun⟩ := exists_limited_walk w l s v
  rw [he] at hwalk hrun
  obtain ⟨p, hp, hgiven, hstands⟩ := hrun.exists_failsAt hv
  refine ⟨calls, p, hwalk, hp, hgiven, fun n hn hpending => ?_, fun hresult n hn hpending => ?_,
    fun hnone => ?_⟩
  · obtain ⟨q, name, hpath, hat⟩ := hstands n hn hpending
    exact hpath ▸ hat
  · -- what is pending stands with `null`, and all that is taken away does not stand
    obtain ⟨q, name, hpath, hat⟩ := hstands n hn hpending
    have hself : n = ⟨q ++ [.member name], true⟩ := by rw [← hpath, ← hpending.1]
    rw [hresult, Value.at?_detachAll_of_mem (hself ▸ hn)] at hat
    cases hat
  · rw [hgiven, Node.map_settled hnone]

/-- A limit of the depth keeps a detached member with `null` in its object, where another one has
left an object that was done before. -/
theorem walk_leaves_pending_members_before_deep_array :
    let v : Value := .object [("a", .object [("b", .bool true)]), ("c", .bool true),
      ("d", .array [.array []])]
    let l : Listener Nat :=
      { onEnter := fun _ s => { state := s },
        onExit := fun e s => { state := s, taken := e.path = [.member "a", .member "b"] ∨
          e.kind = .member ∧ e.path = [.member "c"] } }
    let w : TreeWalk := { maxDepth := 2 }
    v.DistinctNames ∧ (w.walk l 0 v).failure = some (.tooDeep 2) ∧
      (∃ calls p, FailsAt 2 v calls (.tooDeep 2) p ∧
        (w.walk l 0 v).result = v.detachAll [] ((detaches calls).map (Node.settled p))) ∧
      (w.walk l 0 v).result =
        .object [("a", .object []), ("c", .null), ("d", .array [.array []])] := by
  intro v l w
  have hv : v.DistinctNames := by
    simp [v, Value.DistinctNames, Value.MembersDistinct, Value.ItemsDistinct]
  have he : (w.walk l 0 v).failure = some (.tooDeep 2) := by decide
  obtain ⟨calls, p, -, hp, hresult, -⟩ := walk_leaves_pending_members w l 0 hv he
  exact ⟨hv, he, ⟨calls, p, hp, hresult⟩, rfl⟩

/-- A listener that fails on the second member leaves the first one, which it has detached, with
`null` in the object. -/
theorem walk_keeps_detached_member :
    let v : Value := .object [("a", .number (.int 1)), ("b", .number (.int 2))]
    let l : Listener (List Node) :=
      { onEnter := fun e gone => { state := gone, failure :=
          if e.path = [.member "b"] then some (.aborted "stop") else none },
        onExit := fun e gone =>
          if e.kind = .member then { state := gone ++ [.of e.kind e.path], taken := true }
          else { state := gone } }
    let walked := TreeWalk.walk {} l [] v
    walked.failure = some (.aborted "stop") ∧ walked.state = [.of .member [.member "a"]] ∧
      walked.result = .object [("a", .null), ("b", .number (.int 2))] ∧
      v.detachAll [] walked.state = .object [("b", .number (.int 2))] := by
  intro v l walked
  exact ⟨by decide, by decide, rfl, rfl⟩

end TreeWalk
end JsonWalk
