import JsonWalk.Proofs.Nesting

/-!
# Walks over a stack of plain nodes

A walk can keep its open nodes as plain records that may have a name and a position or not, and any
value, whatever kind the node is of. It then needs a branch for everything that may not be as it has
to be, a `Gap`. A stack of such nodes takes each token as the assembly does, from which it follows
that none of these branches is ever taken.
-/

namespace JsonWalk

structure OpenNode where
  kind : NodeKind
  /-- What has been built of it; the value of a member, when it has one. -/
  value : Value
  property : Option String
  position : Option Nat
  /-- Whether the path has a step for it. -/
  pushedSegment : Bool
  skipped : Bool
  /-- The names of the members so far, detached ones too. -/
  names : List String := []

/-- The nodes are listed innermost first. -/
structure NodeStack where
  nodes : List OpenNode := []
  path : Path := []
  depth : Nat := 0
  root : Option Value := none

/-- What a walk cannot go on from as usual. -/
inductive Gap where
  /-- A node is to end, and none is open. -/
  | nothingOpen
  /-- A container ends, and none is counted. -/
  | depthZero
  /-- A value ends in a node that holds neither an array nor an object. -/
  | noContainer
  /-- A value that has no name ends in an object. -/
  | noName
  /-- A member begins, and no node is open. -/
  | noObject

namespace Value

def itemCount : Value → Nat
  | .array items => items.length
  | _ => 0

/-- Gives a name this value, behind all other names if it is new. -/
def insertMember (name : String) (v : Value) : List (String × Value) → List (String × Value)
  | [] => [(name, v)]
  | (n, w) :: rest => if n = name then (n, v) :: rest else (n, w) :: insertMember name v rest

theorem insertMember_of_notMem {name : String} {v : Value} {members : List (String × Value)}
    (h : name ∉ members.map Prod.fst) : insertMember name v members = members ++ [(name, v)] := by
  induction members with
  | nil => rfl
  | cons m rest ih =>
    rw [List.map_cons, List.mem_cons, not_or] at h
    rw [insertMember, if_neg (Ne.symm h.1), ih h.2, List.cons_append]

end Value

variable {σ τ : Type}

namespace OpenNode

def segment? (n : OpenNode) : Option Segment :=
  if n.pushedSegment then
    match n.kind with
    | .member => n.property.map .member
    | _ => n.position.map .index
  else none

def tally? (n : OpenNode) : Option Tally :=
  match n.kind with
  | .array => some (.elements n.value.itemCount)
  | .object => some (.names n.names)
  | _ => none

def leave (l : Listener σ) (path : Path) (n : OpenNode) : EStateM WalkError σ (Option Value) :=
  if n.skipped then pure (some n.value)
  else fun s =>
    let reply := l.onExit
      { kind := n.kind, path, value := n.value, property := n.property, position := n.position } s
    match reply.failure with
    | some e => .error e reply.state
    | none => .ok (if reply.taken then none else some n.value) reply.state

/-- A member right inside an object, or anything else right inside an array or a member. -/
def LiesIn (inner outer : OpenNode) : Prop :=
  inner.kind = .member ∧ outer.kind = .object ∨
    inner.kind ≠ .member ∧ (outer.kind = .array ∨ outer.kind = .member)

end OpenNode

namespace NodeStack

def topKind? (k : NodeStack) : Option NodeKind := k.nodes.head?.map (·.kind)

def isSkipping (k : NodeStack) : Bool := k.nodes.head?.any (·.skipped)

def unexpected (found : TokenKind) (k : NodeStack) : WalkError :=
  .structural (.token found) k.topKind?

def expectsValue (k : NodeStack) : Bool :=
  match k.topKind? with
  | none => k.root.isNone
  | some kind => kind = .array || kind = .member

def nextPosition? (k : NodeStack) : Option Nat :=
  match k.nodes.head? with
  | none => none
  | some parent => if parent.kind = .array then some parent.value.itemCount else none

def nextProperty? (k : NodeStack) : Option String :=
  match k.nodes.head? with
  | none => none
  | some parent => if parent.kind = .array then none else parent.property

/-- A node has been taken off, and these are around it. -/
def without (n : OpenNode) (outer : List OpenNode) (k : NodeStack) : NodeStack :=
  { k with
    nodes := outer
    path := if n.pushedSegment then k.path.dropLast else k.path
    depth := if n.kind.isContainer then k.depth - 1 else k.depth }

section

variable (stray : Gap → NodeStack → EStateM WalkError σ NodeStack) (l : Listener σ) (limit : Nat)

def openValue (kind : NodeKind) (v : Value) (k : NodeStack) : EStateM WalkError σ NodeStack :=
  let depth := if kind.isContainer then k.depth + 1 else k.depth
  if kind.isContainer ∧ limit < depth then throw (.tooDeep limit)
  else do
    let position := k.nextPosition?
    let path := k.path ++ (position.map Segment.index).toList
    let skipped ← l.enterUnless k.isSkipping kind path
    let n : OpenNode :=
      { kind, value := v, property := k.nextProperty?, position,
        pushedSegment := position.isSome, skipped }
    return { k with nodes := n :: k.nodes, path, depth }

def openMember (name : String) (k : NodeStack) : EStateM WalkError σ NodeStack :=
  match k.nodes with
  | [] => stray .noObject k
  | parent :: outer =>
    if name ∈ parent.names then throw (.structural .repeatedName (some parent.kind))
    else do
      let path := k.path ++ [.member name]
      let skipped ← l.enterUnless parent.skipped .member path
      let n : OpenNode :=
        { kind := .member, value := .null, property := some name, position := none,
          pushedSegment := true, skipped }
      return { k with nodes := n :: { parent with names := name :: parent.names } :: outer, path }

/-- Ends a node that has been taken off the stack, and hands its value to the one around it. A
member ends with its value. -/
def endNode (outer : List OpenNode) (n : OpenNode) (k : NodeStack) :
    EStateM WalkError σ NodeStack :=
  if n.kind.isContainer ∧ k.depth = 0 then stray .depthZero k
  else do
    let left ← n.leave l k.path
    let k := k.without n outer
    match outer with
    | [] => return { k with root := some (left.getD .null) }
    | parent :: rest =>
      if parent.kind = .member then endNode rest { parent with value := left.getD .null } k
      else
        match parent.value with
        | .array items =>
          let value := .array (items ++ [left.getD .null])
          return { k with nodes := { parent with value } :: rest }
        | .object members =>
          match left, n.property with
          | none, _ => return k
          | some v, some name =>
            let value := .object (Value.insertMember name v members)
            return { k with nodes := { parent with value } :: rest }
          | some _, none => stray .noName k
        | _ => stray .noContainer k

def close (k : NodeStack) : EStateM WalkError σ NodeStack :=
  match k.nodes with
  | [] => stray .nothingOpen k
  | n :: outer => endNode stray l outer n k

def container (found : TokenKind) (kind : NodeKind) (v : Value) (k : NodeStack) :
    EStateM WalkError σ NodeStack :=
  if k.expectsValue then openValue l limit kind v k else throw (k.unexpected found)

def scalar (found : TokenKind) (v : Value) (k : NodeStack) : EStateM WalkError σ NodeStack :=
  if k.expectsValue then openValue l limit v.kind v k >>= close stray l
  else throw (k.unexpected found)

def feed (t : Token) (k : NodeStack) : EStateM WalkError σ NodeStack :=
  match t with
  | .beginObject => container l limit .beginObject .object (.object []) k
  | .beginArray => container l limit .beginArray .array (.array []) k
  | .endObject =>
    if k.topKind? = some .object then close stray l k else throw (k.unexpected .endObject)
  | .endArray =>
    if k.topKind? = some .array then close stray l k else throw (k.unexpected .endArray)
  | .name name =>
    if k.topKind? = some .object then openMember stray l name k else throw (k.unexpected .name)
  | .string s => scalar stray l limit .string (.string s) k
  | .number n => scalar stray l limit .number (.number n) k
  | .bool b => scalar stray l limit .bool (.bool b) k
  | .null => scalar stray l limit .null .null k
  | .endOfInput => throw (k.unexpected .endOfInput)

def finish (k : NodeStack) : Except WalkError Value :=
  match k.nodes, k.root with
  | [], some v => .ok v
  | _, _ => .error (k.unexpected .endOfInput)

def step (t : Token) : EStateM WalkError (NodeStack × σ) Unit := fun (k, s) =>
  match feed stray l limit t k s with
  | .error e s => .error e (k, s)
  | .ok k s => .ok () (k, s)

/-- Goes on with the tokens of `x`. Gives the result, the listener's state and the source behind the
last token taken. -/
def run [TokenSource τ] (k : NodeStack) (s : σ) (x : τ) : Except WalkError Value × σ × τ :=
  let (result, (_, state), source) := TokenSource.run (step stray l limit) (·.1.finish) (k, s) x
  (result, state, source)

/-- The loop, begun with the listener in the state `s` in front of the source `x`, comes to a turn
after these tokens, with this stack, this state of the listener and this source. -/
inductive AtHead [TokenSource τ] (s : σ) (x : τ) : List Token → NodeStack → σ → τ → Prop
  | start : AtHead s x [] {} s x
  | turn (ts : List Token) {k k' : NodeStack} {u u' : σ} {y z : τ} {t : Token} :
    AtHead s x ts k u y → TokenSource.next y = .ok t z → t ≠ .endOfInput →
    feed stray l limit t k u = .ok k' u' → AtHead s x (ts ++ [t]) k' u' z

end

end NodeStack

/-! ### An assembly as a stack -/

namespace Contents

def value : Contents → Value
  | .array items => .array items.toList
  | .object members _ => .object members.toList
  | .member _ => .null

def names : Contents → List String
  | .object _ names => names
  | .array _ | .member _ => []

end Contents

def OpenNode.placed (kind : NodeKind) (v : Value) (place : Place) (skipped : Bool)
    (names : List String) : OpenNode :=
  ⟨kind, v, place.property, place.position, place.segment?.isSome, skipped, names⟩

def Frame.node (f : Frame) : OpenNode :=
  .placed f.contents.kind f.contents.value f.place f.skipped f.contents.names

def Assembly.stack (a : Assembly) : NodeStack :=
  ⟨a.frames.map Frame.node, a.path, a.depth, a.document⟩

namespace NodeStack

variable {stray : Gap → NodeStack → EStateM WalkError σ NodeStack} {l : Listener σ} {limit : Nat}
  {tallies : List Tally} {a : Assembly} {place : Place}

theorem leave_placed {kind : NodeKind} {v : Value} {skipped : Bool} {names : List String}
    {path : Path} : (OpenNode.placed kind v place skipped names).leave l path =
      l.leaveUnless skipped kind path place v := rfl

/-! ### What comes next -/

theorem topKind?_stack : a.stack.topKind? = a.innermost? := by
  obtain ⟨frames, path, depth, document⟩ := a
  cases frames <;> rfl

theorem unexpected_stack {found : TokenKind} : a.stack.unexpected found = a.unexpected found := by
  rw [unexpected, topKind?_stack]
  rfl

theorem isSkipping_stack : a.stack.isSkipping = a.isSkipping := by
  obtain ⟨frames, path, depth, document⟩ := a
  cases frames <;> rfl

theorem expectsValue_stack : a.stack.expectsValue = a.nextPlace?.isSome := by
  obtain ⟨frames, path, depth, document⟩ := a
  cases frames with
  | nil => cases document <;> rfl
  | cons f outer =>
    obtain ⟨contents, place, skipped⟩ := f
    cases contents <;> rfl

/-- The stack finds a name and a position for the next value where the assembly finds a place. -/
theorem next_stack (h : a.Ordered limit tallies) (hplace : a.nextPlace? = some place) :
    a.stack.nextProperty? = place.property ∧ a.stack.nextPosition? = place.position ∧
      place.segment? = place.position.map .index := by
  obtain ⟨frames, path, depth, document⟩ := a
  cases frames with
  | nil =>
    cases document with
    | none =>
      cases hplace
      exact ⟨rfl, rfl, rfl⟩
    | some v => cases hplace
  | cons f outer =>
    obtain ⟨contents, place', skipped⟩ := f
    cases contents with
    | array items =>
      cases hplace
      exact ⟨rfl, rfl, rfl⟩
    | object members names => cases hplace
    | member name =>
      cases hplace
      obtain ⟨rfl, -⟩ := h.stacked.exists_object
      exact ⟨rfl, rfl, rfl⟩

theorem innermost_ne_object (hplace : a.nextPlace? = some place) :
    a.innermost? ≠ some .object := by
  obtain ⟨frames, path, depth, document⟩ := a
  cases frames with
  | nil => exact nofun
  | cons f outer =>
    obtain ⟨contents, place', skipped⟩ := f
    cases contents with
    | array items | member name => exact nofun
    | object members names => cases hplace

/-! ### Opening -/

theorem openValue_stack {kind : NodeKind} {v : Value} (h : a.Ordered limit tallies)
    (hplace : a.nextPlace? = some place) :
    openValue l limit kind v a.stack =
      let depth := if kind.isContainer then a.depth + 1 else a.depth
      if kind.isContainer ∧ limit < depth then throw (.tooDeep limit)
      else do
        let skipped ← l.enterUnless a.isSkipping kind (a.descend place).path
        return ⟨.placed kind v place skipped [] :: a.frames.map Frame.node, (a.descend place).path,
          depth, a.document⟩ := by
  obtain ⟨hproperty, hposition, hsegment⟩ := next_stack h hplace
  have hpath : a.path ++ (place.position.map Segment.index).toList = (a.descend place).path := by
    rw [Assembly.path_descend, hsegment]
  have hnode (skipped : Bool) : OpenNode.placed kind v place skipped [] =
      { kind, value := v, property := place.property, position := place.position,
        pushedSegment := place.position.isSome, skipped } := by
    rw [OpenNode.placed, hsegment, Option.isSome_map]
  simp only [openValue, hproperty, hposition, isSkipping_stack, hnode]
  rw [← hpath]
  rfl

theorem container_stack {found : TokenKind} (contents : Contents) (h : a.Ordered limit tallies)
    (hkind : contents.kind.isContainer) (hnames : contents.names = []) :
    container l limit found contents.kind contents.value a.stack =
      Assembly.stack <$> (AssemblyM.openContainer l limit found contents).on a := by
  rw [container, expectsValue_stack, unexpected_stack, AssemblyM.on_openContainer_eq]
  cases hplace : a.nextPlace? with
  | none =>
    simp only [Assembly.opening, hplace]
    rfl
  | some place =>
    rw [Option.isSome_some, if_pos rfl, openValue_stack h hplace]
    simp only [Assembly.opening, hplace, hkind, if_true, true_and]
    split
    · rfl
    · simp only [AssemblyM.onMove, Move.perform, map_bind, map_pure]
      apply bind_congr
      intro skipped
      rw [← hnames]
      rfl

theorem openMember_stack {name : String} (hkind : a.innermost? = some .object) :
    openMember stray l name a.stack = Assembly.stack <$> (AssemblyM.openMember l name).on a := by
  rw [AssemblyM.on_openMember_eq]
  obtain ⟨frames, path, depth, document⟩ := a
  cases frames with
  | nil => cases hkind
  | cons f outer =>
    obtain ⟨contents, place, skipped⟩ := f
    cases contents with
    | array items => cases hkind
    | member name' => cases hkind
    | object members names =>
      by_cases hname : name ∈ names
      · have hnode : name ∈ (Frame.node ⟨.object members names, place, skipped⟩).names := hname
        simp only [openMember, Assembly.stack, List.map_cons, if_pos hnode, Assembly.beginning,
          if_pos hname]
        rfl
      · have hnode : name ∉ (Frame.node ⟨.object members names, place, skipped⟩).names := hname
        simp only [openMember, Assembly.stack, List.map_cons, if_neg hnode, Assembly.beginning,
          if_neg hname, AssemblyM.onMove, Move.perform, map_bind, map_pure]
        rfl

/-! ### Ending -/

theorem endNode_member {name : String} {skipped : Bool} {outer : List Frame} {v : Value}
    {nodes : List OpenNode} (h : a.Ordered limit tallies)
    (hframes : a.frames = ⟨.member name, place, skipped⟩ :: outer) :
    endNode stray l (outer.map Frame.node) (.placed .member v place skipped [])
        ⟨nodes, a.path, a.depth, a.document⟩ =
      Assembly.stack <$> (AssemblyM.deliver l v).on a := by
  have hstacked := h.stacked
  rw [hframes] at hstacked
  obtain ⟨rfl, members, seen, place', skipped', rest, rfl, hseen, hname⟩ := hstacked.exists_object
  have hnew : name ∉ members.toList.map Prod.fst := fun hmem => hname (hseen hmem)
  rw [AssemblyM.on_deliver_member hframes, endNode, if_neg (fun hgap => Bool.false_ne_true hgap.1),
    leave_placed, map_bind]
  apply bind_congr
  intro left
  cases left with
  | none => rfl
  | some w =>
    have hmembers : Value.insertMember name w members.toList = (members.push (name, w)).toList := by
      rw [Value.insertMember_of_notMem hnew, Array.toList_push]
    let object (gathered : List (String × Value)) : OpenNode :=
      .placed .object (.object gathered) place' skipped' (name :: seen)
    exact congrArg (fun gathered => (pure ⟨object gathered :: rest.map Frame.node,
      a.path.dropLast, a.depth, a.document⟩ : EStateM WalkError σ NodeStack)) hmembers

theorem endNode_value {n : OpenNode} {k : NodeStack} (h : a.Ordered limit tallies)
    (hobject : a.innermost? ≠ some .object) (hcount : ¬ (n.kind.isContainer ∧ k.depth = 0))
    (hwithout : k.without n a.stack.nodes = a.stack) :
    endNode stray l a.stack.nodes n k =
      n.leave l k.path >>= fun left =>
        Assembly.stack <$> (AssemblyM.deliver l (left.getD .null)).on a := by
  rw [endNode, if_neg hcount, hwithout]
  apply bind_congr
  intro left
  obtain ⟨frames, path, depth, document⟩ := a
  cases frames with
  | nil =>
    rw [AssemblyM.on_deliver_nil rfl]
    rfl
  | cons f outer =>
    obtain ⟨contents, place', skipped'⟩ := f
    cases contents with
    | object members names => exact absurd rfl hobject
    | array items =>
      rw [AssemblyM.on_deliver_array rfl]
      have hitems : items.toList ++ [left.getD .null] = (items.push (left.getD .null)).toList :=
        Array.toList_push.symm
      let array (gathered : List Value) : OpenNode :=
        .placed .array (.array gathered) place' skipped' []
      exact congrArg (fun gathered => (pure ⟨array gathered :: outer.map Frame.node, path, depth,
        document⟩ : EStateM WalkError σ NodeStack)) hitems
    | member name => exact endNode_member h rfl

theorem close_stack {contents : Contents} {skipped : Bool} {outer : List Frame}
    (h : a.Ordered limit tallies) (hframes : a.frames = ⟨contents, place, skipped⟩ :: outer)
    (hkind : contents.kind.isContainer) :
    close stray l a.stack =
      Assembly.stack <$>
        (AssemblyM.closeContainer l contents.kind place skipped outer contents.value).on a := by
  have hdepth := h.depth_eq
  rw [hframes, List.countP_cons, if_pos hkind] at hdepth
  have hpop := Assembly.Ordered.pop (a.depth - 1) h hframes (by rw [if_pos hkind])
  have hnodes : a.stack.nodes = Frame.node ⟨contents, place, skipped⟩ :: outer.map Frame.node := by
    rw [Assembly.stack, hframes, List.map_cons]
  have hwithout : a.stack.without (Frame.node ⟨contents, place, skipped⟩) (outer.map Frame.node) =
      (({ a with frames := outer, depth := a.depth - 1 } : Assembly).ascend place).stack := by
    have hsub : (if contents.kind.isContainer then a.depth - 1 else a.depth) = a.depth - 1 :=
      if_pos hkind
    exact congrArg (NodeStack.mk _ _ · _) hsub
  have hstacked := h.stacked
  rw [hframes] at hstacked
  rw [AssemblyM.on_closeContainer, map_bind, close, hnodes]
  apply endNode_value hpop
  · exact (stacked_cons_iff.1 hstacked).1.kind_ne_object (ne_member_of_isContainer hkind)
  · exact fun hgap => Nat.succ_ne_zero _ (hdepth.symm.trans hgap.2)
  · exact hwithout

theorem scalar_stack {found : TokenKind} {v : Value} (h : a.Ordered limit tallies)
    (hkind : v.kind.isContainer = false) :
    scalar stray l limit found v a.stack =
      Assembly.stack <$> (AssemblyM.scalar l found v).on a := by
  rw [scalar, expectsValue_stack, unexpected_stack]
  cases hplace : a.nextPlace? with
  | none =>
    rw [AssemblyM.on_scalar_eq]
    simp only [Assembly.holding, hplace]
    rfl
  | some place =>
    rw [Option.isSome_some, if_pos rfl, openValue_stack h hplace, AssemblyM.on_scalar hplace]
    simp only [hkind, Bool.false_eq_true, false_and, if_false, bind_assoc, pure_bind, map_bind]
    apply bind_congr
    intro skipped
    rw [close]
    apply endNode_value h (innermost_ne_object hplace)
    · exact fun hgap => Bool.false_ne_true (hkind.symm.trans hgap.1)
    · have hpath : ((a.descend place).ascend place).path = a.path := by
        rw [Assembly.ascend_descend]
      have hdepth : (if v.kind.isContainer then a.depth - 1 else a.depth) = a.depth := by
        rw [hkind]
        rfl
      exact congrArg₂ (NodeStack.mk a.stack.nodes · · a.document) hpath hdepth

/-- A stack takes a token as the assembly does that it is, whatever there is to do at a gap. -/
theorem feed_stack (h : a.Ordered limit tallies) (t : Token) :
    feed stray l limit t a.stack = Assembly.stack <$> (AssemblyM.feed l limit t).on a := by
  cases t with
  | beginObject => exact container_stack (.object #[] []) h rfl rfl
  | beginArray => exact container_stack (.array #[]) h rfl rfl
  | string | number | bool | null => exact scalar_stack h rfl
  | endOfInput =>
    rw [feed, unexpected_stack]
    rfl
  | name name =>
    rw [feed, topKind?_stack, unexpected_stack]
    by_cases hobject : a.innermost? = some .object
    · rw [if_pos hobject]
      exact openMember_stack hobject
    · rw [if_neg hobject]
      obtain ⟨frames, path, depth, document⟩ := a
      cases frames with
      | nil => rfl
      | cons f outer =>
        obtain ⟨contents, place, skipped⟩ := f
        cases contents with
        | array items | member name => rfl
        | object members names => exact absurd rfl hobject
  | endObject | endArray =>
    rw [feed, topKind?_stack, unexpected_stack]
    obtain ⟨frames, path, depth, document⟩ := a
    cases frames with
    | nil => rfl
    | cons f outer =>
      obtain ⟨contents, place, skipped⟩ := f
      cases contents with
      | array items | object members names =>
        first
        | rfl
        | exact close_stack h rfl rfl
      | member name => rfl

end NodeStack

end JsonWalk
