import JsonWalk.Proofs.Passage
import JsonWalk.TreeWalk

/-!
# Tree walks as recursions on the document

Within the depth a tree walk is the recursion that a walk over the document's tokens amounts to: it
reports the same nodes in the same order, and what it takes out of an object afterwards is what the
recursion never puts in.
-/

namespace JsonWalk

variable {σ : Type}

/-- A walk over a part of a document as an action on the listener's state. What became of the part
is left out on a failure. -/
def Walked.action {α : Type} (w : σ → Walked σ α) : EStateM WalkError σ α := fun s =>
  match w s with
  | ⟨_, s, some e⟩ => .error e s
  | ⟨a, s, none⟩ => .ok a s

theorem Walked.action_map {α β : Type} (w : σ → Walked σ α) (f : α → β) :
    action (fun s => (w s).map f) = f <$> action w := by
  funext s
  simp only [action, Walked.map, Functor.map, EStateM.map]
  rcases w s with ⟨a, s, _ | e⟩ <;> rfl

structure Listener.NeverSkips (l : Listener σ) : Prop where
  onEnter (e : Entry) (s : σ) : (l.onEnter e s).taken = false

/-- Of what follows an entry, only what follows a node that is not skipped counts for a listener
that never skips. -/
theorem Listener.enter_bind_congr {α : Type} {l : Listener σ} {kind : NodeKind} {path : Path}
    {f g : Bool → EStateM WalkError σ α} (hskipped : l.NeverSkips ∨ f true = g true)
    (h : f false = g false) : l.enter kind path >>= f = l.enter kind path >>= g := by
  obtain hskips | htrue := hskipped
  · funext s
    have htaken := hskips.onEnter { kind, path } s
    simp only [enter, bind, EStateM.bind]
    generalize l.onEnter { kind, path } s = reply at htaken ⊢
    obtain ⟨t, taken, _ | e⟩ := reply
    · cases htaken
      exact congrFun h t
    · rfl
  · apply bind_congr
    intro skipped
    cases skipped with
    | true => exact htrue
    | false => exact h

namespace TreeWalk

open Walked (action action_map)

variable {l : Listener σ} {limit : Nat}

theorem action_leave (kind : NodeKind) (path : Path) (place : Place) (v : Value) :
    action (leave l kind path place v) =
      l.leave kind path place v >>= fun left => pure (left.getD .null, left.isNone) := by
  funext s
  simp only [action, leave, Listener.leave, bind, EStateM.bind]
  rcases l.onExit _ s with ⟨s, _ | _, _ | e⟩ <;> rfl

theorem action_visit (kind : NodeKind) (path : Path) (place : Place) (v : Value)
    (inside : σ → Walked σ Value) :
    action (visit l kind path place v inside) =
      l.enter kind path >>= fun skipped =>
        if skipped then pure (v, false)
        else action inside >>= fun w => action (leave l kind path place w) := by
  funext s
  simp only [action, visit, Listener.enter, bind, EStateM.bind]
  rcases l.onEnter _ s with ⟨s, _ | _, _ | e⟩
  case false.none =>
    simp only [Bool.false_eq_true, if_false, EStateM.bind, action]
    rcases inside s with ⟨w, s, _ | e⟩ <;> rfl
  all_goals rfl

theorem action_visitValue (path : Path) (place : Place) (depth : Nat) (v : Value)
    (inside : σ → Walked σ Value) :
    action (visitValue l limit path place depth v inside) =
      if limit < depth then throw (.tooDeep limit)
      else l.enter v.kind path >>= fun skipped =>
        if skipped then pure v
        else action inside >>= fun w => l.leave v.kind path place w >>= fun left =>
          pure (left.getD .null) := by
  by_cases h : limit < depth
  · rw [if_pos h]
    funext s
    simp only [action, visitValue, if_pos h]
    rfl
  · have hv : visitValue l limit path place depth v inside =
        fun s => (visit l v.kind path place v inside s).map (·.1) := by
      funext s
      rw [visitValue, if_neg h]
    rw [if_neg h, hv, action_map, action_visit, map_eq_pure_bind, bind_assoc]
    apply bind_congr
    intro skipped
    cases skipped with
    | true => rfl
    | false => simp only [action_leave, Bool.false_eq_true, if_false, bind_assoc, pure_bind]

theorem action_walkItems_cons (path : Path) (depth position : Nat) (v : Value)
    (rest : List Value) :
    action (walkItems l limit path depth position · (v :: rest)) =
      action (walkValue l limit (path ++ [.index position]) (.element position) depth · v) >>=
        fun v => action (walkItems l limit path depth (position + 1) · rest) >>=
          fun rest => pure (v :: rest) := by
  funext s
  simp only [action, walkItems, bind, EStateM.bind]
  rcases walkValue l limit _ _ depth s v with ⟨w, s, _ | e⟩
  · simp only [Walked.map]
    rcases walkItems l limit path depth (position + 1) s rest with ⟨ws, s, _ | e⟩ <;> rfl
  · rfl

theorem action_walkMembers_cons (path : Path) (depth : Nat) (name : String) (v : Value)
    (rest : List (String × Value)) :
    action (walkMembers l limit path depth · ((name, v) :: rest)) =
      action (visit l .member (path ++ [.member name]) (.member name) v
        (walkValue l limit (path ++ [.member name]) (.memberValue name) depth · v)) >>=
        fun (v, gone) => action (walkMembers l limit path depth · rest) >>=
          fun rest => pure (((name, v), gone) :: rest) := by
  funext s
  simp only [action, walkMembers, bind, EStateM.bind]
  rcases visit l .member _ _ v _ s with ⟨⟨w, gone⟩, s, _ | e⟩
  · simp only [Walked.map]
    rcases walkMembers l limit path depth s rest with ⟨ws, s, _ | e⟩ <;> rfl
  · rfl

def kept (members : List WalkedMember) : List (String × Value) :=
  (members.filter (!·.2)).map (·.1)

theorem kept_cons (name : String) (left : Option Value) (rest : List WalkedMember) :
    kept (((name, left.getD .null), left.isNone) :: rest) =
      (left.map (name, ·)).toList ++ kept rest := by
  cases left <;> rfl

theorem action_closeObject (w : σ → Walked σ (List WalkedMember)) :
    action (fun s => closeObject (w s)) = action w >>= fun members =>
      pure (.object (kept members)) := by
  funext s
  simp only [action, bind, EStateM.bind]
  rcases w s with ⟨ws, s, _ | e⟩ <;> rfl

mutual

/-- Going through a skipped value never fails within the depth, and without skipping there is none
to go through. -/
theorem passValue_eq_action (path : Path) (place : Place) {depth : Nat} (hdepth : depth ≤ limit) :
    ∀ {v : Value}, (l.NeverSkips ∨ depth + v.nesting ≤ limit) →
      passValue l limit path place depth v = action (walkValue l limit path place depth · v)
  | .null, h | .bool _, h | .number _, h | .string _, h => by
    simp only [passValue, passScalar, walkValue]
    rw [action_visitValue, if_neg (Nat.not_lt.2 hdepth)]
    exact Listener.enter_bind_congr (.inr rfl) rfl
  | .array items, h => by
    simp only [passValue, walkValue]
    rw [action_visitValue]
    by_cases hd : limit < depth + 1
    · rw [if_pos hd, if_pos hd]
    · rw [if_neg hd, if_neg hd, action_map, ← passItems_eq_action path 0 (Nat.not_lt.1 hd)
        (h.imp_right fun h => by rw [Value.nesting] at h; omega)]
      apply Listener.enter_bind_congr
      · exact h.imp_right within_of_le
      · simp [Value.kind]
  | .object members, h => by
    simp only [passValue, walkValue]
    rw [action_visitValue]
    by_cases hd : limit < depth + 1
    · rw [if_pos hd, if_pos hd]
    · rw [if_neg hd, if_neg hd, action_closeObject, passMembers_eq_action path (Nat.not_lt.1 hd)
        (h.imp_right fun h => by rw [Value.nesting] at h; omega)]
      apply Listener.enter_bind_congr
      · exact h.imp_right within_of_le
      · simp [Value.kind]

theorem passItems_eq_action (path : Path) {depth : Nat} (position : Nat) (hdepth : depth ≤ limit) :
    ∀ {items : List Value}, (l.NeverSkips ∨ depth + Value.itemsNesting items ≤ limit) →
      passItems l limit path depth position items =
        action (walkItems l limit path depth position · items)
  | [], _ => rfl
  | v :: rest, h => by
    rw [Value.itemsNesting] at h
    rw [passItems, action_walkItems_cons,
      passValue_eq_action _ _ hdepth (h.imp_right fun h => by omega),
      passItems_eq_action path (position + 1) hdepth (h.imp_right fun h => by omega)]

theorem passMembers_eq_action (path : Path) {depth : Nat} (hdepth : depth ≤ limit) :
    ∀ {members : List (String × Value)},
      (l.NeverSkips ∨ depth + Value.membersNesting members ≤ limit) →
      passMembers l limit path depth members =
        kept <$> action (walkMembers l limit path depth · members)
  | [], _ => rfl
  | (name, v) :: rest, h => by
    rw [Value.membersNesting] at h
    have hv : l.NeverSkips ∨ depth + v.nesting ≤ limit := h.imp_right fun h => by omega
    rw [passMembers, action_walkMembers_cons, action_visit, passValue_eq_action _ _ hdepth hv,
      passMembers_eq_action path hdepth (h.imp_right fun h => by omega)]
    simp only [map_eq_pure_bind, bind_assoc]
    apply Listener.enter_bind_congr
    · refine hv.imp_right fun hv => ?_
      simp only [if_true, passOver, within_of_le hv, pure_bind]
      rfl
    · simp only [Bool.false_eq_true, if_false, action_leave, pure_bind, bind_assoc, kept_cons]

end

end TreeWalk
end JsonWalk
