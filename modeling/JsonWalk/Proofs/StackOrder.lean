import JsonWalk.Proofs.OpenNodes

/-!
# The stack of a walk is in order

What `Sound` says of a stack holds whenever the loop of a walk takes the next token, for every
source and every listener. So it makes no difference what there were to do where a node is not what
it has to be: it is never done.
-/

namespace JsonWalk

variable {σ τ : Type}

namespace NodeStack

/-- The stack is in order after these tokens. -/
structure Sound (limit : Nat) (ts : List Token) (k : NodeStack) : Prop where
  depth_eq : k.depth = k.nodes.countP (·.kind.isContainer)
  depth_le : k.depth ≤ limit
  /-- The path has the steps of the nodes, outermost first. -/
  path_eq : k.path = k.nodes.reverse.filterMap OpenNode.segment?
  nested : k.nodes.IsChain OpenNode.LiesIn
  not_scalar : ∀ n ∈ k.nodes, n.kind.isContainer ∨ n.kind = .member
  array : ∀ n ∈ k.nodes, n.kind = .array → ∃ items, n.value = .array items
  object : ∀ n ∈ k.nodes, n.kind = .object →
    ∃ members, n.value = .object members ∧ members.map Prod.fst ⊆ n.names
  /-- Objects have had the members that the tokens have begun in them, and arrays the elements that
  have ended. -/
  tally_eq : k.nodes.filterMap OpenNode.tally? = Tally.count ts
  /-- A node in an array is counted by the elements before it. -/
  positioned : k.nodes.IsChain fun inner outer =>
    outer.kind = .array → inner.position = some outer.value.itemCount
  /-- So is the next one. -/
  nextPosition : ∀ i ∈ k.nextPosition?, (Tally.count ts).head? = some (.elements i)
  skipped : k.nodes.IsChain fun inner outer => outer.skipped → inner.skipped
  finished : k.root ≠ none → k.nodes = []

end NodeStack

/-! ### Nodes of an ordered assembly -/

section

variable {frames outer : List Frame} {f : Frame}

theorem Frame.Fits.segment?_node (h : f.Fits outer) : f.node.segment? = f.place.segment? := by
  obtain ⟨contents, place, skipped⟩ := f
  have hvalue
      (hplace : place = .root ∨ (∃ i, place = .element i) ∨ ∃ name, place = .memberValue name)
      (hkind : contents.kind ≠ .member) :
      (Frame.node ⟨contents, place, skipped⟩).segment? = place.segment? := by
    cases contents with
    | member name => exact absurd rfl hkind
    | array items | object members names =>
      obtain rfl | ⟨i, rfl⟩ | ⟨name, rfl⟩ := hplace <;> rfl
  cases outer with
  | nil => exact hvalue (.inl h.1) h.2
  | cons around rest =>
    obtain ⟨gathered, place', skipped'⟩ := around
    cases gathered with
    | array items => exact hvalue (.inr (.inl ⟨_, h.1⟩)) h.2.1
    | member name => exact hvalue (.inr (.inr ⟨_, h.1⟩)) h.2.1
    | object members names =>
      obtain ⟨name, seen, hcontents, hplace, -⟩ := h
      cases hcontents
      cases hplace
      rfl

theorem Stacked.forall_mem (h : Stacked frames) :
    ∀ f ∈ frames, f.node.segment? = f.place.segment? ∧ f.contents.Tidy := by
  induction h with
  | nil => exact nofun
  | cons hfits htidy _ ih => exact List.forall_mem_cons.2 ⟨⟨hfits.segment?_node, htidy⟩, ih⟩

theorem Stacked.isChain_node {R : OpenNode → OpenNode → Prop}
    (hR : ∀ (f around : Frame) (rest : List Frame), f.Fits (around :: rest) →
      R f.node around.node) (h : Stacked frames) :
    (frames.map Frame.node).IsChain R := by
  induction h with
  | nil => exact .nil
  | @cons f outer hfits _ _ ih =>
    cases outer with
    | nil => exact .singleton _
    | cons around rest => exact .cons_cons (hR f around rest hfits) ih

theorem Frame.Fits.liesIn {around : Frame} (h : f.Fits (around :: outer)) :
    f.node.LiesIn around.node := by
  obtain ⟨gathered, place, skipped⟩ := around
  cases gathered with
  | array items => exact .inr ⟨h.2.1, .inl rfl⟩
  | member name => exact .inr ⟨h.2.1, .inr rfl⟩
  | object members names =>
    obtain ⟨name, seen, hcontents, -⟩ := h
    exact .inl ⟨congrArg Contents.kind hcontents, rfl⟩

theorem Frame.Fits.position_eq {around : Frame} (h : f.Fits (around :: outer))
    (harray : around.node.kind = .array) : f.node.position = some around.node.value.itemCount := by
  obtain ⟨gathered, place, skipped⟩ := around
  cases gathered with
  | array items => exact congrArg Place.position h.1
  | member name => cases harray
  | object members names => cases harray

theorem Frame.Fits.skipped_of_skipped {around : Frame} (h : f.Fits (around :: outer))
    (hskipped : around.node.skipped) : f.node.skipped := by
  obtain ⟨gathered, place, skipped⟩ := around
  cases gathered with
  | array items | member name => exact h.2.2 hskipped
  | object members names =>
    obtain ⟨_, _, -, -, -, -, hbelow⟩ := h
    exact hbelow hskipped

theorem Frame.tally?_node (f : Frame) : f.node.tally? = f.contents.tally? := by
  obtain ⟨contents, place, skipped⟩ := f
  cases contents <;> rfl

end

variable {limit : Nat} {ts : List Token} {a : Assembly}

theorem Assembly.Ordered.sound (h : a.Ordered limit (Tally.count ts)) : a.stack.Sound limit ts where
  depth_eq := by
    rw [stack, h.depth_eq, List.countP_map]
    rfl
  depth_le := h.depth_le
  path_eq := by
    rw [stack, h.path_eq, ← List.map_reverse, List.filterMap_map]
    apply List.filterMap_congr
    intro f hf
    exact (h.stacked.forall_mem f (List.mem_reverse.1 hf)).1.symm
  nested := h.stacked.isChain_node fun _ _ _ => Frame.Fits.liesIn
  not_scalar := by
    rw [stack, List.forall_mem_map]
    rintro ⟨contents, place, skipped⟩ -
    cases contents with
    | array items | object members names => exact .inl rfl
    | member name => exact .inr rfl
  array := by
    rw [stack, List.forall_mem_map]
    rintro ⟨contents, place, skipped⟩ - hkind
    cases contents with
    | array items => exact ⟨_, rfl⟩
    | object members names | member name => cases hkind
  object := by
    rw [stack, List.forall_mem_map]
    rintro ⟨contents, place, skipped⟩ hf hkind
    cases contents with
    | array items | member name => cases hkind
    | object members names => exact ⟨_, rfl, (h.stacked.forall_mem _ hf).2.1⟩
  tally_eq := by
    rw [stack, List.filterMap_map, ← h.tally_eq]
    exact List.filterMap_congr fun f _ => f.tally?_node
  positioned := h.stacked.isChain_node fun _ _ _ => Frame.Fits.position_eq
  nextPosition := by
    intro i hi
    obtain ⟨frames, path, depth, document⟩ := a
    rw [← h.tally_eq]
    cases frames with
    | nil => cases hi
    | cons f outer =>
      obtain ⟨contents, place, skipped⟩ := f
      cases contents with
      | array items =>
        cases hi
        rfl
      | object members names | member name => cases hi
  skipped := h.stacked.isChain_node fun _ _ _ => Frame.Fits.skipped_of_skipped
  finished := by
    intro hroot
    by_contra hnodes
    exact hroot (h.document_eq (mt (congrArg (List.map Frame.node)) hnodes))

/-! ### Runs -/

theorem map_of_ok {ε α β : Type} {m : EStateM ε σ α} {f : α → β} {s t : σ} {b : α}
    (h : m s = .ok b t) : (f <$> m) s = .ok (f b) t := by
  simp only [Functor.map, EStateM.map, h]

theorem map_of_error {ε α β : Type} {m : EStateM ε σ α} {f : α → β} {s t : σ} {e : ε}
    (h : m s = .error e t) : (f <$> m) s = .error e t := by
  simp only [Functor.map, EStateM.map, h]

namespace NodeStack

variable {stray : Gap → NodeStack → EStateM WalkError σ NodeStack} {l : Listener σ} [TokenSource τ]

theorem finish_stack : a.stack.finish = a.finish := by
  obtain ⟨frames, path, depth, document⟩ := a
  cases frames with
  | nil => cases document <;> rfl
  | cons f outer => rfl

/-- The stack is that of an ordered assembly, with the same state of the listener. -/
def IsStackOf (limit : Nat) (k : NodeStack × σ) (k' : Assembly × σ) : Prop :=
  k = (k'.1.stack, k'.2) ∧ ∃ tallies, k'.1.Ordered limit tallies

theorem alike_step (t : Token) (k : NodeStack × σ) (k' : Assembly × σ) (h : IsStackOf limit k k') :
    TokenSource.Alike (IsStackOf limit) (fun k k' => k.2 = k'.2) (step stray l limit t k)
      (AssemblyM.feed l limit t k') := by
  obtain ⟨a, s⟩ := k'
  obtain ⟨rfl, tallies, ha⟩ := h
  have hfeed : feed stray l limit t a.stack s =
      (Assembly.stack <$> (AssemblyM.feed l limit t).on a : EStateM _ _ _) s :=
    congrFun (feed_stack ha t) s
  cases hm : (AssemblyM.feed l limit t).on a s with
  | ok b u =>
    have hb := ((AssemblyM.ordered_feed l.behaves t ha).of_ok hm).2
    rw [map_of_ok hm] at hfeed
    rw [step, hfeed, AssemblyM.on_eq_ok_iff.1 hm]
    exact .ok () ⟨rfl, _, hb⟩
  | error e u =>
    obtain ⟨left, hleft⟩ := AssemblyM.on_eq_error_iff.1 hm
    rw [map_of_error hm] at hfeed
    rw [step, hfeed, hleft]
    exact .error e rfl

theorem run_stack {tallies : List Tally} (h : a.Ordered limit tallies) (s : σ) (x : τ) :
    run stray l limit a.stack s x =
      ((Assembly.run l limit a s x).result, (Assembly.run l limit a s x).state,
        (Assembly.run l limit a s x).source) := by
  have hstep (t : Token) (k : NodeStack × σ) (k' : Assembly × σ) (h : IsStackOf limit k k') :
      TokenSource.Alike (IsStackOf limit) (fun k k' => k.2 = k'.2) (step stray l limit t k)
        (AssemblyM.feed l limit t k') := alike_step t k k' h
  have hfinish (k : NodeStack × σ) (k' : Assembly × σ) (h : IsStackOf limit k k') :
      k.1.finish.map id = k'.1.finish.map id := by
    rw [h.1, finish_stack]
  have hstack : IsStackOf limit (a.stack, s) (a, s) := ⟨rfl, tallies, h⟩
  obtain ⟨hresult, hstate, hsource⟩ := TokenSource.run_alike TokenSource.alike_next hstep hfinish
    (fun _ _ h => congrArg Prod.snd h.1) hstack (rfl : x = x)
  rw [Except.map_id, id, id] at hresult
  exact Prod.ext hresult (Prod.ext hstate hsource)

/-- Each turn of the loop begins with an ordered assembly as its stack. -/
theorem AtHead.exists_assembly {s u : σ} {x y : τ} {k : NodeStack}
    (h : AtHead stray l limit s x ts k u y) :
    ∃ a : Assembly, k = a.stack ∧ a.Ordered limit (Tally.count ts) := by
  induction h with
  | start => exact ⟨{}, rfl, Assembly.ordered_empty limit⟩
  | @turn ts k k' u u' y z t _ hnext hend hfeed ih =>
    obtain ⟨a, rfl, ha⟩ := ih
    rw [feed_stack ha] at hfeed
    cases hm : (AssemblyM.feed l limit t).on a u with
    | ok b w =>
      rw [map_of_ok hm] at hfeed
      cases hfeed
      rw [Tally.count_append_singleton]
      exact ⟨b, rfl, ((AssemblyM.ordered_feed l.behaves t ha).of_ok hm).2⟩
    | error e w =>
      rw [map_of_error hm] at hfeed
      cases hfeed

/-- What an assembly comes to from a turn of the loop is the stack of a later turn. -/
theorem AtHead.of_feedAll {s u w : σ} {x y z : τ} {us : List Token} {b : Assembly}
    (h : AtHead stray l limit s x ts a.stack u y) (ha : a.Ordered limit (Tally.count ts))
    (hus : TokenSource.Hands y us z) (hfeed : AssemblyM.feedAll l limit us a u = .ok b w) :
    AtHead stray l limit s x (ts ++ us) b.stack w z := by
  induction hus generalizing ts a u with
  | nil =>
    cases hfeed
    rw [List.append_nil]
    exact h
  | cons hnext hend _ ih =>
    rw [AssemblyM.feedAll_cons] at hfeed
    obtain ⟨c, v, hc, hfeed⟩ := bind_eq_ok_iff.1 hfeed
    have hturn := h.turn _ hnext hend ((congrFun (feed_stack ha _) u).trans (map_of_ok hc))
    have hordered := ((AssemblyM.ordered_feed l.behaves _ ha).of_ok hc).2
    rw [← Tally.count_append_singleton] at hordered
    rw [List.append_cons]
    exact ih hturn hordered hfeed

theorem AtHead.run_eq {s u : σ} {x y : τ} {k : NodeStack} (h : AtHead stray l limit s x ts k u y) :
    run stray l limit k u y = run stray l limit {} s x := by
  induction h with
  | start => rfl
  | @turn ts k k' u u' y z t _ hnext hend hfeed ih =>
    have hstep : step stray l limit t (k, u) = .ok () (k', u') := by rw [step, hfeed]
    rw [← ih, run, run, TokenSource.run_of_fed hnext hend hstep]

/-- A walk over a stack of plain nodes comes to the end that a walk comes to, whatever is done where
a node is not what it has to be. What the assembly of the walk is after some tokens, that is the
stack then; each turn of the loop begins with the stack in order, and comes to no such place. -/
theorem walk_keeps_stack_sound (w : StreamWalk) (l : Listener σ) (s : σ) (x : τ)
    (stray : Gap → NodeStack → EStateM WalkError σ NodeStack) :
    let limit := w.limits.maxDepth
    run stray l limit {} s x =
        ((w.walk l s x).result, (w.walk l s x).state, (w.walk l s x).source) ∧
      (∀ ts y a u, TokenSource.Hands x ts y → AssemblyM.feedAll l limit ts {} s = .ok a u →
        AtHead stray l limit s x ts a.stack u y) ∧
      ∀ ts k u y, AtHead stray l limit s x ts k u y →
        k.Sound limit ts ∧ run stray l limit k u y = run stray l limit {} s x ∧
          ∀ stray' t, feed stray' l limit t k = feed stray l limit t k := by
  have hempty := Assembly.ordered_empty w.limits.maxDepth
  refine ⟨run_stack hempty s x, fun ts y a u hts hfeed => ?_, fun ts k u y hhead => ?_⟩
  · exact AtHead.start.of_feedAll hempty hts hfeed
  · obtain ⟨a, rfl, ha⟩ := hhead.exists_assembly
    exact ⟨ha.sound, hhead.run_eq, fun stray' t => (feed_stack ha t).trans (feed_stack ha t).symm⟩

/-- The second member of an object has begun in an array, and the first one was detached. -/
theorem walk_keeps_stack_sound_behind_detached :
    let w : StreamWalk := { limits := { maxDepth := 2 } }
    let l : Listener Nat :=
      { onEnter := fun _ n => { state := n + 1 }
        onExit := fun e n => { state := n, taken := e.kind = .member } }
    let stray : Gap → NodeStack → EStateM WalkError Nat NodeStack := fun _ _ => throw .undecodable
    let ts : List Token := [.beginArray, .beginObject, .name "a", .null, .name "b"]
    let array : OpenNode := ⟨.array, .array [], none, none, false, false, []⟩
    let object : OpenNode := ⟨.object, .object [], none, some 0, true, false, ["b", "a"]⟩
    let member : OpenNode := ⟨.member, .null, some "b", none, true, false, []⟩
    let k : NodeStack := ⟨[member, object, array], [.index 0, .member "b"], 2, none⟩
    AtHead stray l w.limits.maxDepth 0 ts ts k 5 [] ∧ k.Sound w.limits.maxDepth ts := by
  intro w l stray ts array object member k
  have hts : TokenSource.Hands ts ts [] :=
    .cons rfl nofun (.cons rfl nofun (.cons rfl nofun (.cons rfl nofun (.cons rfl nofun (.nil _)))))
  obtain ⟨-, hhead, hsound⟩ := walk_keeps_stack_sound w l 0 ts stray
  have hk : AtHead stray l w.limits.maxDepth 0 ts ts k 5 [] := hhead ts [] _ 5 hts rfl
  exact ⟨hk, (hsound ts k 5 [] hk).1⟩

end NodeStack
end JsonWalk
