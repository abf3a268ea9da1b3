import JsonWalk.Proofs.Documents
import JsonWalk.Proofs.Feeding
import Mathlib.Data.List.Nodup

/-!
# Feeding the tokens of a document

What an assembly does with the tokens of a document can be said on the document itself: `passValue`
is a recursion over it that reports nodes as a tree walk does, but goes through skipped parts in
silence, where too much nesting still counts. The main statement, `feedAll_tokens`, ties the stack
of frames to that recursion.
-/

namespace JsonWalk

variable {σ : Type}

namespace Listener

def enter (l : Listener σ) (kind : NodeKind) (path : Path) : EStateM WalkError σ Bool := fun s =>
  let reply := l.onEnter { kind, path } s
  match reply.failure with
  | some e => .error e reply.state
  | none => .ok reply.taken reply.state

def leave (l : Listener σ) (kind : NodeKind) (path : Path) (place : Place) (v : Value) :
    EStateM WalkError σ (Option Value) := fun s =>
  let reply := l.onExit
    { kind, path, value := v, property := place.property, position := place.position } s
  match reply.failure with
  | some e => .error e reply.state
  | none => .ok (if reply.taken then none else some v) reply.state

def enterUnless (skipped : Bool) (l : Listener σ) (kind : NodeKind) (path : Path) :
    EStateM WalkError σ Bool :=
  if skipped then pure true else l.enter kind path

def leaveUnless (skipped : Bool) (l : Listener σ) (kind : NodeKind) (path : Path) (place : Place)
    (v : Value) : EStateM WalkError σ (Option Value) :=
  if skipped then pure (some v) else l.leave kind path place v

end Listener

/-! ### The walk said on the document -/

section

variable (l : Listener σ) (limit : Nat)

/-- Gives `a` if `n` arrays and objects may be open. -/
def within {α : Type} (n : Nat) (a : α) : EStateM WalkError σ α :=
  if limit < n then throw (.tooDeep limit) else pure a

def passOver (depth : Nat) (v : Value) : EStateM WalkError σ Value :=
  within limit (depth + v.nesting) v

def passScalar (path : Path) (place : Place) (v : Value) : EStateM WalkError σ Value := do
  let skipped ← l.enter v.kind path
  return (← l.leaveUnless skipped v.kind path place v).getD .null

mutual

def passValue (path : Path) (place : Place) (depth : Nat) : Value → EStateM WalkError σ Value
  | .null => passScalar l path place .null
  | .bool b => passScalar l path place (.bool b)
  | .number n => passScalar l path place (.number n)
  | .string s => passScalar l path place (.string s)
  | .array items =>
    if limit < depth + 1 then throw (.tooDeep limit)
    else do
      if ← l.enter .array path then passOver limit depth (.array items)
      else
        let items ← passItems path (depth + 1) 0 items
        return (← l.leave .array path place (.array items)).getD .null
  | .object members =>
    if limit < depth + 1 then throw (.tooDeep limit)
    else do
      if ← l.enter .object path then passOver limit depth (.object members)
      else
        let members ← passMembers path (depth + 1) members
        return (← l.leave .object path place (.object members)).getD .null

def passItems (path : Path) (depth position : Nat) : List Value → EStateM WalkError σ (List Value)
  | [] => pure []
  | v :: rest => do
    let v ← passValue (path ++ [.index position]) (.element position) depth v
    let rest ← passItems path depth (position + 1) rest
    return v :: rest

def passMembers (path : Path) (depth : Nat) :
    List (String × Value) → EStateM WalkError σ (List (String × Value))
  | [] => pure []
  | (name, v) :: rest => do
    let kept ←
      if ← l.enter .member (path ++ [.member name]) then some <$> passOver limit depth v
      else
        let v ← passValue (path ++ [.member name]) (.memberValue name) depth v
        l.leave .member (path ++ [.member name]) (.member name) v
    let rest ← passMembers path depth rest
    return (kept.map (name, ·)).toList ++ rest

end

end

section

variable {α β : Type} {limit m n : Nat} {a : α}

theorem within_of_le (h : n ≤ limit) : (within limit n a : EStateM WalkError σ α) = pure a :=
  if_neg (Nat.not_lt.2 h)

theorem within_of_lt (h : limit < n) :
    (within limit n a : EStateM WalkError σ α) = throw (.tooDeep limit) :=
  if_pos h

theorem within_bind_pure (f : α → β) :
    (within limit n a >>= fun a => pure (f a) : EStateM WalkError σ β) = within limit n (f a) := by
  by_cases h : limit < n
  · rw [within_of_lt h, within_of_lt h]
    rfl
  · rw [within_of_le (Nat.not_lt.1 h), within_of_le (Nat.not_lt.1 h), pure_bind]

/-- What lies side by side is within the limit if its deepest part is. -/
theorem within_bind_within (f : α → β) :
    (within limit m a >>= fun a => within limit n (f a) : EStateM WalkError σ β) =
      within limit (max m n) (f a) := by
  by_cases hm : limit < m
  · rw [within_of_lt hm, within_of_lt (by omega)]
    rfl
  · rw [within_of_le (Nat.not_lt.1 hm), pure_bind]
    by_cases hn : limit < n
    · rw [within_of_lt hn, within_of_lt (by omega)]
    · rw [within_of_le (by omega), within_of_le (by omega)]

theorem passOver_array {depth : Nat} {items : List Value} :
    (passOver limit depth (.array items) : EStateM WalkError σ Value) =
      within limit (depth + 1 + Value.itemsNesting items) (.array items) := by
  rw [passOver, Value.add_nesting_array]

theorem passOver_object {depth : Nat} {members : List (String × Value)} :
    (passOver limit depth (.object members) : EStateM WalkError σ Value) =
      within limit (depth + 1 + Value.membersNesting members) (.object members) := by
  rw [passOver, Value.add_nesting_object]

theorem passMembers_cons {l : Listener σ} {path : Path} {depth : Nat} {name : String} {v : Value}
    {rest : List (String × Value)} :
    passMembers l limit path depth ((name, v) :: rest) =
      (l.enter .member (path ++ [.member name]) >>= fun skipped =>
        if skipped then some <$> passOver limit depth v
        else passValue l limit (path ++ [.member name]) (.memberValue name) depth v >>= fun v =>
          l.leave .member (path ++ [.member name]) (.member name) v) >>= fun kept =>
      passMembers l limit path depth rest >>= fun rest =>
        pure ((kept.map (name, ·)).toList ++ rest) := by
  rw [passMembers, bind_assoc]
  apply bind_congr
  intro skipped
  cases skipped with
  | true => rfl
  | false => simp only [Bool.false_eq_true, if_false, bind_assoc]

end

/-! ### Steps of an assembly -/

namespace Assembly

@[simp] theorem ascend_descend (place : Place) (a : Assembly) :
    (a.descend place).ascend place = a := by
  cases place <;> simp [descend, ascend, Place.segment?]

def inside (contents : Contents) (place : Place) (skipped : Bool) (a : Assembly) : Assembly :=
  pushFrame ⟨contents, place, skipped⟩ { a.descend place with depth := a.depth + 1 }

def inMember (name : String) (skipped : Bool) (a : Assembly) : Assembly :=
  pushFrame ⟨.member name, .member name, skipped⟩ (a.descend (.member name))

@[simp] theorem depth_inside (contents : Contents) (place : Place) (skipped : Bool) (a : Assembly) :
    (a.inside contents place skipped).depth = a.depth + 1 := rfl

@[simp] theorem path_inside (contents : Contents) (place : Place) (skipped : Bool) (a : Assembly) :
    (a.inside contents place skipped).path = (a.descend place).path := rfl

@[simp] theorem isSkipping_inside (contents : Contents) (place : Place) (skipped : Bool)
    (a : Assembly) : (a.inside contents place skipped).isSkipping = skipped := by
  simp [inside, pushFrame, isSkipping]

@[simp] theorem depth_inMember (name : String) (skipped : Bool) (a : Assembly) :
    (a.inMember name skipped).depth = a.depth := rfl

@[simp] theorem path_inMember (name : String) (skipped : Bool) (a : Assembly) :
    (a.inMember name skipped).path = a.path ++ [.member name] := rfl

@[simp] theorem isSkipping_inMember (name : String) (skipped : Bool) (a : Assembly) :
    (a.inMember name skipped).isSkipping = skipped := by
  simp [inMember, pushFrame, isSkipping]

@[simp] theorem path_descend (place : Place) (a : Assembly) :
    (a.descend place).path = a.path ++ place.segment?.toList := rfl

end Assembly

namespace AssemblyM

section

variable {α : Type} {x y : Assembly × σ}

theorem get_bind_apply (f : Assembly × σ → AssemblyM σ α) : (get >>= f : AssemblyM σ α) x = f x x :=
  rfl

theorem set_bind_apply (f : PUnit → AssemblyM σ α) : (set y >>= f : AssemblyM σ α) x = f ⟨⟩ y :=
  rfl

theorem modify_bind_apply (g : Assembly × σ → Assembly × σ) (f : PUnit → AssemblyM σ α) :
    (modify g >>= f : AssemblyM σ α) x = f ⟨⟩ (g x) :=
  rfl

end

variable {l : Listener σ} {a : Assembly} {place : Place}

theorem on_enter_bind {kind : NodeKind} {f : Bool → AssemblyM σ Unit} :
    (enter l kind place >>= f).on a =
      l.enterUnless a.isSkipping kind (a.descend place).path >>= fun skipped =>
        (f skipped).on (a.descend place) := by
  funext s
  have hs : (a.descend place).isSkipping = a.isSkipping := rfl
  simp only [on, bind, EStateM.bind, enter, hs, Listener.enterUnless]
  cases a.isSkipping with
  | true => rfl
  | false =>
    simp only [Bool.false_eq_true, if_false, Listener.enter]
    cases (l.onEnter { kind, path := (a.descend place).path } s).failure <;> rfl

theorem on_leave_bind {kind : NodeKind} {skipped : Bool} {v : Value}
    {f : Option Value → AssemblyM σ Unit} :
    (leave l kind place skipped v >>= f).on a =
      l.leaveUnless skipped kind a.path place v >>= fun left => (f left).on (a.ascend place) := by
  funext s
  simp only [on, bind, EStateM.bind, leave, Listener.leaveUnless]
  cases skipped with
  | true => rfl
  | false =>
    simp only [Bool.false_eq_true, if_false, Listener.leave]
    generalize l.onExit _ s = reply
    cases reply.failure <;> rfl

theorem on_openContainer {limit : Nat} {found : TokenKind} {contents : Contents}
    (h : a.nextPlace? = some place) :
    (openContainer l limit found contents).on a =
      (if limit < a.depth + 1 then throw (.tooDeep limit)
      else do
        let skipped ← l.enterUnless a.isSkipping contents.kind (a.descend place).path
        return a.inside contents place skipped) := by
  funext s
  simp only [on, openContainer, get_bind_apply, h]
  by_cases hd : limit < a.depth + 1
  · simp only [if_pos hd]
    rfl
  · simp only [if_neg hd, set_bind_apply]
    exact congrFun (on_enter_bind (a := { a with depth := a.depth + 1 })) s

theorem on_closeContainer {kind : NodeKind} {skipped : Bool} {outer : List Frame} {v : Value} :
    (closeContainer l kind place skipped outer v).on a =
      l.leaveUnless skipped kind a.path place v >>= fun left =>
        (deliver l (left.getD .null)).on
          (({ a with frames := outer, depth := a.depth - 1 } : Assembly).ascend place) := by
  funext s
  simp only [on, closeContainer, modify_bind_apply]
  exact congrFun (on_leave_bind (a := { a with frames := outer, depth := a.depth - 1 })) s

theorem on_scalar {found : TokenKind} {v : Value} (h : a.nextPlace? = some place) :
    (scalar l found v).on a =
      l.enterUnless a.isSkipping v.kind (a.descend place).path >>= fun skipped =>
        l.leaveUnless skipped v.kind (a.descend place).path place v >>= fun left =>
          (deliver l (left.getD .null)).on a := by
  funext s
  simp only [on, scalar, get_bind_apply, h]
  refine (congrFun (on_enter_bind (a := a)) s).trans ?_
  simp only [on_leave_bind, Assembly.ascend_descend]

theorem on_openMember {members : Array (String × Value)} {names : List String} {skipped : Bool}
    {outer : List Frame} {name : String}
    (h : a.frames = ⟨.object members names, place, skipped⟩ :: outer) (hn : name ∉ names) :
    (openMember l name).on a = do
      let below ← l.enterUnless skipped .member (a.path ++ [.member name])
      return { a with
        frames := ⟨.member name, .member name, below⟩ ::
          ⟨.object members (name :: names), place, skipped⟩ :: outer
        path := a.path ++ [.member name] } := by
  funext s
  simp only [on, openMember, get_bind_apply, h, if_neg hn, set_bind_apply]
  exact congrFun (on_enter_bind
    (a := { a with frames := ⟨.object members (name :: names), place, skipped⟩ :: outer })) s

theorem on_deliver_nil {v : Value} (h : a.frames = []) :
    (deliver l v).on a = pure { a with document := some v } := by
  funext s
  simp only [on, deliver, get_bind_apply, h]
  rfl

theorem on_deliver_array {v : Value} {items : Array Value} {skipped : Bool} {outer : List Frame}
    (h : a.frames = ⟨.array items, place, skipped⟩ :: outer) :
    (deliver l v).on a =
      pure { a with frames := ⟨.array (items.push v), place, skipped⟩ :: outer } := by
  funext s
  simp only [on, deliver, get_bind_apply, h]
  rfl

theorem on_deliver_member {v : Value} {name : String} {skipped : Bool} {outer : List Frame}
    (h : a.frames = ⟨.member name, place, skipped⟩ :: outer) :
    (deliver l v).on a = do
      let left ← l.leaveUnless skipped .member a.path place v
      let b := ({ a with frames := outer } : Assembly).ascend place
      match left with
      | some v => return b.addMember name v
      | none => return b := by
  funext s
  simp only [on, deliver, get_bind_apply, h, set_bind_apply]
  refine (congrFun (on_leave_bind (a := { a with frames := outer })) s).trans ?_
  refine congrFun (bind_congr fun left => ?_) s
  cases left <;> rfl

/-! ### Containers -/

variable {limit : Nat}

theorem on_close_inside (kind : NodeKind) (contents : Contents) {skipped : Bool} {v : Value} :
    (closeContainer l kind place skipped a.frames v).on (a.inside contents place skipped) =
      l.leaveUnless skipped kind (a.descend place).path place v >>= fun left =>
        (deliver l (left.getD .null)).on a := by
  rw [on_closeContainer]
  exact bind_congr fun left => congrArg (deliver l (left.getD .null)).on (a.ascend_descend place)

theorem feedAll_array {items : List Value} (h : a.nextPlace? = some place) :
    feedAll l limit (Value.array items).tokens a =
      (if limit < a.depth + 1 then throw (.tooDeep limit)
      else do
        let skipped ← l.enterUnless a.isSkipping .array (a.descend place).path
        let b ← feedAll l limit (Value.itemTokens items) (a.inside (.array #[]) place skipped)
        (feed l limit .endArray).on b) := by
  have ho : (feed l limit .beginArray).on a =
      (openContainer l limit .beginArray (.array #[])).on a :=
    rfl
  rw [Value.tokens, feedAll_cons, ho, on_openContainer h]
  split
  · rfl
  · simp only [bind_assoc, pure_bind, feedAll_append, feedAll_singleton]
    rfl

theorem feedAll_object {members : List (String × Value)} (h : a.nextPlace? = some place) :
    feedAll l limit (Value.object members).tokens a =
      (if limit < a.depth + 1 then throw (.tooDeep limit)
      else do
        let skipped ← l.enterUnless a.isSkipping .object (a.descend place).path
        let b ← feedAll l limit (Value.memberTokens members)
          (a.inside (.object #[] []) place skipped)
        (feed l limit .endObject).on b) := by
  have ho : (feed l limit .beginObject).on a =
    (openContainer l limit .beginObject (.object #[] [])).on a := rfl
  rw [Value.tokens, feedAll_cons, ho, on_openContainer h]
  split
  · rfl
  · simp only [bind_assoc, pure_bind, feedAll_append, feedAll_singleton]
    rfl

theorem on_endArray {items : Array Value} {skipped : Bool} :
    (feed l limit .endArray).on (a.inside (.array items) place skipped) =
      l.leaveUnless skipped .array (a.descend place).path place (.array items.toList) >>=
        fun left => (deliver l (left.getD .null)).on a :=
  on_close_inside .array (.array items)

theorem on_endObject {members : Array (String × Value)} {names : List String} {skipped : Bool} :
    (feed l limit .endObject).on (a.inside (.object members names) place skipped) =
      l.leaveUnless skipped .object (a.descend place).path place (.object members.toList) >>=
        fun left => (deliver l (left.getD .null)).on a :=
  on_close_inside .object (.object members names)

theorem feedAll_memberTokens_cons {members : Array (String × Value)} {names : List String}
    {skipped : Bool} {name : String} {v : Value} {rest : List (String × Value)}
    (hn : name ∉ names) :
    feedAll l limit (Value.memberTokens ((name, v) :: rest))
        (a.inside (.object members names) place skipped) =
      l.enterUnless skipped .member ((a.descend place).path ++ [.member name]) >>= fun below =>
        feedAll l limit v.tokens
          ((a.inside (.object members (name :: names)) place skipped).inMember name below) >>=
        feedAll l limit (Value.memberTokens rest) := by
  have ho : (feed l limit (.name name)).on (a.inside (.object members names) place skipped) =
    (openMember l name).on (a.inside (.object members names) place skipped) := rfl
  rw [Value.memberTokens, feedAll_cons, ho, on_openMember rfl hn]
  simp only [bind_assoc, pure_bind, feedAll_append]
  rfl

theorem on_deliver_inside {items : Array Value} {skipped : Bool} {v : Value} :
    (deliver l v).on (a.inside (.array items) place skipped) =
      pure (a.inside (.array (items.push v)) place skipped) :=
  on_deliver_array rfl

theorem on_deliver_inMember {members : Array (String × Value)} {names : List String}
    {skipped below : Bool} {name : String} {v : Value} :
    (deliver l v).on ((a.inside (.object members names) place skipped).inMember name below) =
      l.leaveUnless below .member ((a.descend place).path ++ [.member name]) (.member name) v >>=
        fun left => pure (a.inside
          (.object (members ++ (left.map (name, ·)).toList.toArray) names) place skipped) := by
  rw [on_deliver_member rfl]
  apply bind_congr
  intro left
  have hascend : (({ (a.inside (.object members names) place skipped).inMember name below with
      frames := (a.inside (.object members names) place skipped).frames } : Assembly).ascend
        (.member name)) = a.inside (.object members names) place skipped :=
    Assembly.ascend_descend _ _
  cases left with
  | none =>
    simp only [Option.map_none, Option.toList_none, Array.append_empty]
    exact congrArg pure hascend
  | some v => exact congrArg (fun b => pure (Assembly.addMember name v b)) hascend

/-! ### Skipped values -/

/-- The end of a skipped array whose elements have been gone through. -/
theorem on_endArray_of_skipped {items : List Value}
    (h : feedAll l limit (Value.itemTokens items) (a.inside (.array #[]) place true) =
      within limit (a.depth + 1 + Value.itemsNesting items)
        (a.inside (.array items.toArray) place true)) :
    feedAll l limit (Value.itemTokens items) (a.inside (.array #[]) place true) >>=
        (feed l limit .endArray).on =
      passOver limit a.depth (.array items) >>= fun v => (deliver l v).on a := by
  rw [h, passOver_array]
  by_cases hd : limit < a.depth + 1 + Value.itemsNesting items
  · rw [within_of_lt hd, within_of_lt hd]
    rfl
  · rw [within_of_le (Nat.not_lt.1 hd), within_of_le (Nat.not_lt.1 hd), pure_bind, pure_bind,
      on_endArray]
    rfl

theorem on_endObject_of_skipped {members : List (String × Value)} {names : List String}
    (h : feedAll l limit (Value.memberTokens members) (a.inside (.object #[] []) place true) =
      within limit (a.depth + 1 + Value.membersNesting members)
        (a.inside (.object members.toArray names) place true)) :
    feedAll l limit (Value.memberTokens members) (a.inside (.object #[] []) place true) >>=
        (feed l limit .endObject).on =
      passOver limit a.depth (.object members) >>= fun v => (deliver l v).on a := by
  rw [h, passOver_object]
  by_cases hd : limit < a.depth + 1 + Value.membersNesting members
  · rw [within_of_lt hd, within_of_lt hd]
    rfl
  · rw [within_of_le (Nat.not_lt.1 hd), within_of_le (Nat.not_lt.1 hd), pure_bind, pure_bind,
      on_endObject]
    rfl

mutual

/-- A value below a skipped node is built in silence, unless it is nested too deep. -/
theorem feedAll_tokens_of_isSkipping {a : Assembly} {place : Place} (hskip : a.isSkipping = true)
    (hdepth : a.depth ≤ limit) (h : a.nextPlace? = some place) :
    ∀ {v : Value}, v.DistinctNames →
      feedAll l limit v.tokens a = passOver limit a.depth v >>= fun v => (deliver l v).on a
  | .null, _ | .bool _, _ | .number _, _ | .string _, _ => by
    rw [Value.tokens, feedAll_singleton, passOver, Value.nesting, Nat.add_zero, within_of_le hdepth]
    refine (on_scalar h).trans ?_
    rw [hskip]
    rfl
  | .array items, hv => by
    rw [Value.DistinctNames] at hv
    rw [feedAll_array h, hskip]
    by_cases hd : limit < a.depth + 1
    · rw [if_pos hd, passOver_array, within_of_lt (by omega)]
      rfl
    · have hitems := feedAll_itemTokens_of_skipped place (Nat.not_lt.1 hd) #[] hv
      rw [if_neg hd, ← on_endArray_of_skipped (by simpa using hitems)]
      rfl
  | .object members, hv => by
    rw [Value.DistinctNames] at hv
    rw [feedAll_object h, hskip]
    by_cases hd : limit < a.depth + 1
    · rw [if_pos hd, passOver_object, within_of_lt (by omega)]
      rfl
    · have hmembers := feedAll_memberTokens_of_skipped place (Nat.not_lt.1 hd) #[] [] hv.2
        (by simpa using List.nodup_reverse.2 hv.1)
      rw [if_neg hd, ← on_endObject_of_skipped (by simpa using hmembers)]
      rfl

theorem feedAll_itemTokens_of_skipped {a : Assembly} (place : Place) (hdepth : a.depth < limit)
    (done : Array Value) : ∀ {items : List Value}, Value.ItemsDistinct items →
      feedAll l limit (Value.itemTokens items) (a.inside (.array done) place true) =
        within limit (a.depth + 1 + Value.itemsNesting items)
          (a.inside (.array (done ++ items.toArray)) place true)
  | [], _ => by
    rw [Value.itemsNesting, within_of_le (by omega)]
    simp [Value.itemTokens]
  | v :: rest, hv => by
    rw [Value.ItemsDistinct] at hv
    have hrest (w : Value) := feedAll_itemTokens_of_skipped place hdepth (done.push w) hv.2
    rw [Value.itemTokens, feedAll_append, feedAll_tokens_of_isSkipping
      (a := a.inside (.array done) place true) rfl hdepth rfl hv.1, passOver]
    simp only [bind_assoc, on_deliver_inside, pure_bind, hrest, within_bind_within]
    simp [Value.itemsNesting, Nat.add_max_add_left]

theorem feedAll_memberTokens_of_skipped {a : Assembly} (place : Place) (hdepth : a.depth < limit)
    (done : Array (String × Value)) (names : List String) :
    ∀ {members : List (String × Value)},
      Value.MembersDistinct members → ((members.map Prod.fst).reverse ++ names).Nodup →
      feedAll l limit (Value.memberTokens members) (a.inside (.object done names) place true) =
        within limit (a.depth + 1 + Value.membersNesting members)
          (a.inside (.object (done ++ members.toArray)
            ((members.map Prod.fst).reverse ++ names)) place true)
  | [], _, _ => by
    rw [Value.membersNesting, within_of_le (by omega)]
    simp [Value.memberTokens]
  | (name, v) :: rest, hv, hn => by
    rw [Value.MembersDistinct] at hv
    have hn' : ((rest.map Prod.fst).reverse ++ name :: names).Nodup := by simpa using hn
    have hname : name ∉ names := (List.nodup_cons.1 hn'.of_append_right).1
    have hrest (done : Array (String × Value)) :=
      feedAll_memberTokens_of_skipped place hdepth done (name :: names) hv.2 hn'
    rw [feedAll_memberTokens_cons hname]
    simp only [Listener.enterUnless, if_true, pure_bind]
    rw [feedAll_tokens_of_isSkipping
      (a := (a.inside (.object done (name :: names)) place true).inMember name true)
      rfl hdepth rfl hv.1, passOver]
    simp only [on_deliver_inMember, Listener.leaveUnless, if_true, bind_assoc, pure_bind, hrest,
      within_bind_within]
    simp [Value.membersNesting, Nat.add_max_add_left]

end

/-! ### Reported values -/

mutual

/-- Feeding the tokens of a document is the recursion over the document, whose result is handed to
the innermost open node. -/
theorem feedAll_tokens {a : Assembly} (place : Place) (hskip : a.isSkipping = false)
    (h : a.nextPlace? = some place) :
    ∀ {v : Value}, v.DistinctNames → feedAll l limit v.tokens a =
      passValue l limit (a.descend place).path place a.depth v >>= fun v => (deliver l v).on a
  | .null, _ | .bool _, _ | .number _, _ | .string _, _ => by
    rw [Value.tokens, feedAll_singleton]
    refine (on_scalar h).trans ?_
    rw [hskip, passValue, passScalar]
    simp only [bind_assoc, pure_bind]
    rfl
  | .array items, hv => by
    rw [Value.DistinctNames] at hv
    rw [feedAll_array h, hskip, passValue]
    by_cases hd : limit < a.depth + 1
    · rw [if_pos hd, if_pos hd]
      rfl
    · have hd' : a.depth < limit := Nat.not_lt.1 hd
      rw [if_neg hd, if_neg hd, bind_assoc]
      apply bind_congr
      intro skipped
      cases skipped with
      | true =>
        have hitems := feedAll_itemTokens_of_skipped (l := l) place hd' #[] hv
        exact on_endArray_of_skipped (by simpa using hitems)
      | false =>
        rw [feedAll_itemTokens place hd' #[] hv]
        simp only [bind_assoc, pure_bind, on_endArray, Array.empty_append, Bool.false_eq_true,
          if_false]
        rfl
  | .object members, hv => by
    rw [Value.DistinctNames] at hv
    have hn : ((members.map Prod.fst).reverse ++ []).Nodup := by
      simpa using List.nodup_reverse.2 hv.1
    rw [feedAll_object h, hskip, passValue]
    by_cases hd : limit < a.depth + 1
    · rw [if_pos hd, if_pos hd]
      rfl
    · have hd' : a.depth < limit := Nat.not_lt.1 hd
      rw [if_neg hd, if_neg hd, bind_assoc]
      apply bind_congr
      intro skipped
      cases skipped with
      | true =>
        have hmembers := feedAll_memberTokens_of_skipped (l := l) place hd' #[] [] hv.2 hn
        exact on_endObject_of_skipped (by simpa using hmembers)
      | false =>
        rw [feedAll_memberTokens place hd' #[] [] hv.2 hn]
        simp only [bind_assoc, pure_bind, on_endObject, Array.empty_append, Bool.false_eq_true,
          if_false]
        rfl

theorem feedAll_itemTokens {a : Assembly} (place : Place) (hdepth : a.depth < limit)
    (done : Array Value) : ∀ {items : List Value}, Value.ItemsDistinct items →
      feedAll l limit (Value.itemTokens items) (a.inside (.array done) place false) =
        passItems l limit (a.descend place).path (a.depth + 1) done.size items >>= fun items =>
          pure (a.inside (.array (done ++ items.toArray)) place false)
  | [], _ => by
    rw [Value.itemTokens, passItems, pure_bind]
    simp
  | v :: rest, hv => by
    rw [Value.ItemsDistinct] at hv
    rw [Value.itemTokens, feedAll_append, passItems, feedAll_tokens
      (a := a.inside (.array done) place false) (.element done.size) rfl rfl hv.1]
    simp only [bind_assoc, pure_bind]
    apply bind_congr
    intro w
    rw [on_deliver_inside, pure_bind, feedAll_itemTokens place hdepth (done.push w) hv.2]
    simp

theorem feedAll_memberTokens {a : Assembly} (place : Place) (hdepth : a.depth < limit)
    (done : Array (String × Value)) (names : List String) :
    ∀ {members : List (String × Value)},
      Value.MembersDistinct members → ((members.map Prod.fst).reverse ++ names).Nodup →
      feedAll l limit (Value.memberTokens members) (a.inside (.object done names) place false) =
        passMembers l limit (a.descend place).path (a.depth + 1) members >>= fun kept =>
          pure (a.inside (.object (done ++ kept.toArray)
            ((members.map Prod.fst).reverse ++ names)) place false)
  | [], _, _ => by
    rw [Value.memberTokens, passMembers, pure_bind]
    simp
  | (name, v) :: rest, hv, hn => by
    rw [Value.MembersDistinct] at hv
    have hn' : ((rest.map Prod.fst).reverse ++ name :: names).Nodup := by simpa using hn
    have hname : name ∉ names := (List.nodup_cons.1 hn'.of_append_right).1
    rw [feedAll_memberTokens_cons hname, passMembers]
    simp only [bind_assoc]
    apply bind_congr
    intro skipped
    have hrest (left : Option Value) :
        feedAll l limit (Value.memberTokens rest)
            (a.inside (.object (done ++ (left.map (name, ·)).toList.toArray) (name :: names))
              place false) =
          passMembers l limit (a.descend place).path (a.depth + 1) rest >>= fun kept =>
            pure (a.inside (.object (done ++ ((left.map (name, ·)).toList ++ kept).toArray)
              ((((name, v) :: rest).map Prod.fst).reverse ++ names)) place false) := by
      rw [feedAll_memberTokens place hdepth _ (name :: names) hv.2 hn']
      apply bind_congr
      intro kept
      cases left <;> simp
    cases skipped with
    | true =>
      rw [feedAll_tokens_of_isSkipping
        (a := (a.inside (.object done (name :: names)) place false).inMember name true)
        rfl hdepth rfl hv.1]
      simp only [on_deliver_inMember, Listener.leaveUnless, if_true, bind_assoc, pure_bind, hrest,
        map_eq_pure_bind]
      rfl
    | false =>
      rw [feedAll_tokens
        (a := (a.inside (.object done (name :: names)) place false).inMember name false)
        (.memberValue name) rfl rfl hv.1]
      simp only [on_deliver_inMember, bind_assoc, pure_bind, hrest, Bool.false_eq_true, if_false]
      simp [Listener.leaveUnless, Place.segment?]

end

end AssemblyM

theorem Assembly.outcome_run_of_spells {τ : Type} [TokenSource τ] {l : Listener σ} {limit : Nat}
    {v : Value} {x z : τ} (s : σ) (hv : v.DistinctNames) (h : TokenSource.Spells x v z) :
    (run l limit {} s x).outcome = match passValue l limit [] .root 0 v s with
      | .ok v s => (.ok v, s)
      | .error e s => (.error e, s) := by
  obtain ⟨y, hy, hz⟩ := h
  rw [outcome_run_of_hands hy hz, AssemblyM.feedAll_tokens .root rfl rfl hv]
  have hpath : (({} : Assembly).descend .root).path = [] := rfl
  have hdepth : ({} : Assembly).depth = 0 := rfl
  rw [hpath, hdepth]
  cases hpass : passValue l limit [] .root 0 v s with
  | error e s' => simp only [bind, EStateM.bind, hpass]
  | ok v' s' =>
    rw [bind_of_ok hpass, AssemblyM.on_deliver_nil rfl]
    rfl

end JsonWalk
