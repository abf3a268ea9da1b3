import JsonWalk.Proofs.Moves

/-!
# What acceptance depends on

The outline of an assembly tells what kinds of nodes are open and which names their objects have
had. Whether a token is taken, and what the outline is then, depends on nothing else, so no listener
that never fails has a say in it.
-/

namespace JsonWalk

/-- What an open node has to do with acceptance. -/
inductive Shape where
  | array
  | object (names : List String)
  | member
deriving DecidableEq, Repr

def Shape.kind : Shape → NodeKind
  | .array => .array
  | .object _ => .object
  | .member => .member

def Contents.shape : Contents → Shape
  | .array _ => .array
  | .object _ names => .object names
  | .member _ => .member

structure Outline where
  /-- The open nodes, innermost first. -/
  shapes : List Shape := []
  depth : Nat := 0
  /-- Whether there is a document. -/
  done : Bool := false
deriving DecidableEq, Repr

def Assembly.outline (a : Assembly) : Outline :=
  ⟨a.frames.map (·.contents.shape), a.depth, a.document.isSome⟩

namespace Outline

def unexpected (found : TokenKind) (o : Outline) : WalkError :=
  .structural (.token found) (o.shapes.head?.map Shape.kind)

def takesValue (o : Outline) : Bool :=
  match o.shapes with
  | [] => !o.done
  | .array :: _ | .member :: _ => true
  | .object _ :: _ => false

def receive (o : Outline) : Outline :=
  match o.shapes with
  | [] => { o with done := true }
  | .member :: outer => { o with shapes := outer }
  | .array :: _ | .object _ :: _ => o

def opening (limit : Nat) (found : TokenKind) (shape : Shape) (o : Outline) :
    Except WalkError Outline :=
  if o.takesValue then
    if limit < o.depth + 1 then .error (.tooDeep limit)
    else .ok { o with shapes := shape :: o.shapes, depth := o.depth + 1 }
  else .error (o.unexpected found)

def holding (found : TokenKind) (o : Outline) : Except WalkError Outline :=
  if o.takesValue then .ok o.receive else .error (o.unexpected found)

def beginning (name : String) (o : Outline) : Except WalkError Outline :=
  match o.shapes with
  | .object names :: outer =>
    if name ∈ names then .error (.structural .repeatedName (some .object))
    else .ok { o with shapes := .member :: .object (name :: names) :: outer }
  | _ => .error (o.unexpected .name)

def feed (limit : Nat) (t : Token) (o : Outline) : Except WalkError Outline :=
  match t with
  | .beginObject => o.opening limit .beginObject (.object [])
  | .beginArray => o.opening limit .beginArray .array
  | .endObject =>
    match o.shapes with
    | .object _ :: outer => .ok { o with shapes := outer, depth := o.depth - 1 }.receive
    | _ => .error (o.unexpected .endObject)
  | .endArray =>
    match o.shapes with
    | .array :: outer => .ok { o with shapes := outer, depth := o.depth - 1 }.receive
    | _ => .error (o.unexpected .endArray)
  | .name name => o.beginning name
  | .string _ => o.holding .string
  | .number _ => o.holding .number
  | .bool _ => o.holding .bool
  | .null => o.holding .null
  | .endOfInput => .error (o.unexpected .endOfInput)

def feedAll (limit : Nat) : List Token → Outline → Except WalkError Outline
  | [], o => .ok o
  | t :: ts, o => o.feed limit t >>= feedAll limit ts

theorem feedAll_append (limit : Nat) (ts us : List Token) (o : Outline) :
    o.feedAll limit (ts ++ us) = o.feedAll limit ts >>= feedAll limit us := by
  induction ts generalizing o with
  | nil => rfl
  | cons t ts ih =>
    rw [List.cons_append, feedAll, feedAll, bind_assoc]
    exact bind_congr ih

def finish (o : Outline) : Except WalkError Unit :=
  if o.shapes = [] ∧ o.done then .ok () else .error (o.unexpected .endOfInput)

end Outline

variable {σ : Type}

/-! ### Listeners -/

/-- Every callback takes the state along `r`, and fails with none but the errors in `F`. -/
structure Listener.Behaves (l : Listener σ) (r : σ → σ → Prop) (F : WalkError → Prop) : Prop where
  refl (s : σ) : r s s
  trans (s t u : σ) : r s t → r t u → r s u
  onEnter (e : Entry) (s : σ) : r s (l.onEnter e s).state ∧ ∀ x ∈ (l.onEnter e s).failure, F x
  onExit (e : Exit) (s : σ) : r s (l.onExit e s).state ∧ ∀ x ∈ (l.onExit e s).failure, F x

/-- No callback fails, whatever the state. -/
structure Listener.NeverFails (l : Listener σ) : Prop where
  onEnter (e : Entry) (s : σ) : (l.onEnter e s).failure = none
  onExit (e : Exit) (s : σ) : (l.onExit e s).failure = none

theorem Listener.neverFails_silent : silent.NeverFails where
  onEnter _ _ := rfl
  onExit _ _ := rfl

theorem Listener.NeverFails.behaves {l : Listener σ} (hl : l.NeverFails) :
    l.Behaves (fun _ _ => True) (fun _ => False) where
  refl _ := trivial
  trans _ _ _ _ _ := trivial
  onEnter e s := ⟨trivial, by rw [hl.onEnter]; exact nofun⟩
  onExit e s := ⟨trivial, by rw [hl.onExit]; exact nofun⟩

/-- The action takes the state along `r`. It ends with a result that has the property, or in an
error in `F`. -/
def Ends {ε α : Type} (r : σ → σ → Prop) (F : ε → Prop) (m : EStateM ε σ α) (P : α → Prop) : Prop :=
  ∀ s, match m s with
    | .ok a s' => r s s' ∧ P a
    | .error e s' => r s s' ∧ F e

namespace Ends

variable {ε α β : Type} {r : σ → σ → Prop} {F F' : ε → Prop} {m : EStateM ε σ α}
  {f : α → EStateM ε σ β} {P P' : α → Prop} {Q : β → Prop}

theorem of_ok {a : α} {s t : σ} (h : Ends r F m P) (hm : m s = .ok a t) : r s t ∧ P a := by
  have hs := h s
  rwa [hm] at hs

theorem of_error {e : ε} {s t : σ} (h : Ends r F m P) (hm : m s = .error e t) : r s t ∧ F e := by
  have hs := h s
  rwa [hm] at hs

theorem pure {a : α} (hrefl : ∀ s, r s s) (h : P a) : Ends r F (pure a : EStateM ε σ α) P :=
  fun s => ⟨hrefl s, h⟩

theorem throw {e : ε} (hrefl : ∀ s, r s s) (h : F e) : Ends r F (throw e : EStateM ε σ α) P :=
  fun s => ⟨hrefl s, h⟩

theorem bind (htrans : ∀ s t u, r s t → r t u → r s u) (hm : Ends r F m P)
    (hf : ∀ a, P a → Ends r F (f a) Q) : Ends r F (m >>= f) Q := by
  intro s
  cases h : m s with
  | error e t =>
    rw [bind_of_error h]
    exact hm.of_error h
  | ok a t =>
    rw [bind_of_ok h]
    obtain ⟨hst, ha⟩ := hm.of_ok h
    have ht := hf a ha t
    split at ht
    · exact ⟨htrans s t _ hst ht.1, ht.2⟩
    · exact ⟨htrans s t _ hst ht.1, ht.2⟩

theorem mono (h : Ends r F m P) (hF : ∀ e, F e → F' e) (hP : ∀ a, P a → P' a) :
    Ends r F' m P' := by
  intro s
  have hs := h s
  split at hs
  · exact ⟨hs.1, hP _ hs.2⟩
  · exact ⟨hs.1, hF _ hs.2⟩

end Ends

namespace Listener.Behaves

variable {l : Listener σ} {r : σ → σ → Prop} {F : WalkError → Prop}

theorem enterUnless (hl : l.Behaves r F) (skipped : Bool) (kind : NodeKind) (path : Path) :
    Ends r F (l.enterUnless skipped kind path) fun _ => True := by
  intro s
  cases skipped with
  | true => exact ⟨hl.refl s, trivial⟩
  | false =>
    have h : l.enterUnless false kind path s = l.enter kind path s := rfl
    obtain ⟨hstate, hfailure⟩ := hl.onEnter { kind, path } s
    rw [h, Listener.enter]
    cases he : (l.onEnter { kind, path } s).failure with
    | some e => exact ⟨hstate, hfailure e he⟩
    | none => exact ⟨hstate, trivial⟩

theorem leaveUnless (hl : l.Behaves r F) (skipped : Bool) (kind : NodeKind) (path : Path)
    (place : Place) (v : Value) :
    Ends r F (l.leaveUnless skipped kind path place v) fun _ => True := by
  intro s
  cases skipped with
  | true => exact ⟨hl.refl s, trivial⟩
  | false =>
    have h : l.leaveUnless false kind path place v s = l.leave kind path place v s := rfl
    obtain ⟨hstate, hfailure⟩ := hl.onExit
      { kind, path, value := v, property := place.property, position := place.position } s
    rw [h, Listener.leave]
    dsimp only
    cases he : Reply.failure _ with
    | some e => exact ⟨hstate, hfailure e he⟩
    | none => exact ⟨hstate, trivial⟩

end Listener.Behaves

/-! ### An assembly follows its outline -/

def Move.outline (a : Assembly) : Move → Outline
  | .opens contents _ =>
    { a.outline with shapes := contents.shape :: a.outline.shapes, depth := a.depth + 1 }
  | .holds _ _ => a.outline.receive
  | .closes _ _ _ outer _ =>
    ({ a with frames := outer, depth := a.depth - 1 } : Assembly).outline.receive
  | .begins name _ names _ _ outer =>
    { a.outline with
      shapes := .member :: .object (name :: names) :: outer.map (·.contents.shape) }

namespace Assembly

variable {limit : Nat} {a : Assembly}

theorem outline_addMember {name : String} {v : Value} :
    (a.addMember name v).outline = a.outline := by
  obtain ⟨frames, path, depth, document⟩ := a
  match frames with
  | [] | ⟨.array _, _, _⟩ :: _ | ⟨.member _, _, _⟩ :: _ | ⟨.object _ _, _, _⟩ :: _ => rfl

theorem takesValue_outline : a.outline.takesValue = a.nextPlace?.isSome := by
  obtain ⟨frames, path, depth, document⟩ := a
  match frames with
  | [] => cases document <;> rfl
  | ⟨.array _, _, _⟩ :: _ | ⟨.member _, _, _⟩ :: _ | ⟨.object _ _, _, _⟩ :: _ => rfl

theorem unexpected_outline {found : TokenKind} :
    a.outline.unexpected found = a.unexpected found := by
  obtain ⟨frames, path, depth, document⟩ := a
  match frames with
  | [] | ⟨.array _, _, _⟩ :: _ | ⟨.member _, _, _⟩ :: _ | ⟨.object _ _, _, _⟩ :: _ => rfl

theorem opening_outline (found : TokenKind) (contents : Contents) :
    a.outline.opening limit found contents.shape =
      (a.opening limit found contents).map (Move.outline a) := by
  rw [Outline.opening, takesValue_outline, opening, unexpected_outline]
  cases a.nextPlace? with
  | none => rfl
  | some place =>
    have hdepth : a.outline.depth = a.depth := rfl
    simp only [Option.isSome_some, if_true, hdepth]
    split <;> rfl

theorem holding_outline {found : TokenKind} {v : Value} :
    a.outline.holding found = (a.holding found v).map (Move.outline a) := by
  rw [Outline.holding, takesValue_outline, holding, unexpected_outline]
  cases a.nextPlace? <;> rfl

theorem beginning_outline {name : String} :
    a.outline.beginning name = (a.beginning name).map (Move.outline a) := by
  obtain ⟨frames, path, depth, document⟩ := a
  match frames with
  | [] | ⟨.array _, _, _⟩ :: _ | ⟨.member _, _, _⟩ :: _ => rfl
  | ⟨.object members names, place, skipped⟩ :: outer =>
    by_cases hn : name ∈ names
    · simp only [outline, Outline.beginning, Contents.shape, beginning, hn, List.map_cons, if_true]
      rfl
    · simp only [outline, Outline.beginning, Contents.shape, beginning, hn, List.map_cons, if_false]
      rfl

theorem feed_outline (limit : Nat) (t : Token) (a : Assembly) :
    a.outline.feed limit t = (a.move limit t).map (Move.outline a) := by
  cases t with
  | beginObject => exact opening_outline _ (.object #[] [])
  | beginArray => exact opening_outline _ (.array #[])
  | name => exact beginning_outline
  | string | number | bool | null => exact holding_outline
  | endOfInput => exact congrArg Except.error unexpected_outline
  | endObject =>
    obtain ⟨frames, path, depth, document⟩ := a
    match frames with
    | [] | ⟨.array _, _, _⟩ :: _ | ⟨.member _, _, _⟩ :: _ | ⟨.object _ _, _, _⟩ :: _ => rfl
  | endArray =>
    obtain ⟨frames, path, depth, document⟩ := a
    match frames with
    | [] | ⟨.array _, _, _⟩ :: _ | ⟨.member _, _, _⟩ :: _ | ⟨.object _ _, _, _⟩ :: _ => rfl

end Assembly

namespace AssemblyM

variable {l : Listener σ} {r : σ → σ → Prop} {F : WalkError → Prop} {limit : Nat} {a : Assembly}

theorem ends_deliver (hl : l.Behaves r F) (v : Value) :
    Ends r F ((deliver l v).on a) (·.outline = a.outline.receive) := by
  obtain ⟨frames, path, depth, document⟩ := a
  match frames with
  | [] =>
    rw [on_deliver_nil rfl]
    exact .pure hl.refl rfl
  | ⟨.array items, place, skipped⟩ :: outer =>
    rw [on_deliver_array rfl]
    exact .pure hl.refl rfl
  | ⟨.object _ _, _, _⟩ :: _ => exact .pure hl.refl rfl
  | ⟨.member name, place, skipped⟩ :: outer =>
    rw [on_deliver_member rfl]
    apply Ends.bind hl.trans (hl.leaveUnless _ _ _ _ _)
    intro left _
    cases left with
    | none => exact .pure hl.refl rfl
    | some v => exact .pure hl.refl Assembly.outline_addMember

/-- Whatever the listener does, only its own errors keep a move from what the outline foresees. -/
theorem ends_perform (hl : l.Behaves r F) (m : Move) :
    Ends r F (m.perform l a) (·.outline = m.outline a) := by
  cases m with
  | opens contents place =>
    exact Ends.bind hl.trans (hl.enterUnless _ _ _) fun skipped _ => .pure hl.refl rfl
  | holds v place =>
    exact Ends.bind hl.trans (hl.enterUnless _ _ _) fun skipped _ =>
      Ends.bind hl.trans (hl.leaveUnless _ _ _ _ _) fun left _ => ends_deliver hl _
  | closes kind place skipped outer v =>
    exact Ends.bind hl.trans (hl.leaveUnless _ _ _ _ _) fun left _ => ends_deliver hl _
  | begins name members names place skipped outer =>
    exact Ends.bind hl.trans (hl.enterUnless _ _ _) fun below _ => .pure hl.refl rfl

theorem ends_feed (hl : l.Behaves r F) (limit : Nat) (t : Token) (a : Assembly) :
    Ends r (fun e => a.outline.feed limit t = .error e ∨ F e) ((feed l limit t).on a)
      (a.outline.feed limit t = .ok ·.outline) := by
  rw [on_feed, a.feed_outline]
  cases a.move limit t with
  | error e => exact .throw hl.refl (.inl rfl)
  | ok m => exact (ends_perform hl m).mono (fun _ => .inr) fun b hb => congrArg Except.ok hb.symm

theorem ends_feedAll (hl : l.Behaves r F) (limit : Nat) (ts : List Token) (a : Assembly) :
    Ends r (fun e => a.outline.feedAll limit ts = .error e ∨ F e) (feedAll l limit ts a)
      (a.outline.feedAll limit ts = .ok ·.outline) := by
  induction ts generalizing a with
  | nil => exact .pure hl.refl rfl
  | cons t ts ih =>
    -- an error at the first token is an error of all of them
    have hfeed : Ends r (fun e => a.outline.feedAll limit (t :: ts) = .error e ∨ F e)
        ((feed l limit t).on a) (a.outline.feed limit t = .ok ·.outline) := by
      refine (ends_feed hl limit t a).mono (fun e => ?_) fun _ => id
      exact Or.imp_left fun h => by rw [Outline.feedAll, h]; rfl
    refine hfeed.bind hl.trans fun b hb => ?_
    have hall : a.outline.feedAll limit (t :: ts) = b.outline.feedAll limit ts := by
      rw [Outline.feedAll, hb]
      rfl
    rw [hall]
    exact ih b

end AssemblyM

def Succeeds {ε α : Type} (m : EStateM ε σ α) (P : α → Prop) : Prop :=
  ∀ s, ∃ a s', m s = .ok a s' ∧ P a

/-- A step does as its outline says: it ends well with that outline, or in that error. -/
def Follows (r : Except WalkError Outline) (m : EStateM WalkError σ Assembly) : Prop :=
  match r with
  | .ok o => Succeeds m (·.outline = o)
  | .error e => ∀ s, ∃ s', m s = .error e s'

theorem AssemblyM.follows_feed {l : Listener σ} (hl : l.NeverFails) (limit : Nat) (t : Token)
    (a : Assembly) : Follows (a.outline.feed limit t) ((feed l limit t).on a) := by
  have hends := ends_feed hl.behaves limit t a
  cases ho : a.outline.feed limit t with
  | ok o =>
    intro s
    have hs := hends s
    rw [ho] at hs
    split at hs
    · next b s' hm => exact ⟨b, s', hm, (Except.ok.inj hs.2).symm⟩
    · cases hs.2.resolve_right id
  | error e =>
    intro s
    have hs := hends s
    rw [ho] at hs
    split at hs
    · cases hs.2
    · next e' s' hm =>
      cases hs.2.resolve_right id
      exact ⟨s', hm⟩

theorem AssemblyM.alike_feed {σ' : Type} {l : Listener σ} {l' : Listener σ'} (hl : l.NeverFails)
    (hl' : l'.NeverFails) (limit : Nat) (t : Token) (k : Assembly × σ) (k' : Assembly × σ')
    (h : k.1.outline = k'.1.outline) :
    TokenSource.Alike (fun k k' => k.1.outline = k'.1.outline) (fun _ _ => True)
      (feed l limit t k) (feed l' limit t k') := by
  have hfeed := follows_feed hl limit t k.1
  have hfeed' := follows_feed hl' limit t k'.1
  rw [← h] at hfeed'
  cases ho : k.1.outline.feed limit t with
  | ok o =>
    rw [ho] at hfeed hfeed'
    obtain ⟨b, u, hb, hbo⟩ := hfeed k.2
    obtain ⟨b', u', hb', hbo'⟩ := hfeed' k'.2
    rw [on_eq_ok_iff] at hb hb'
    rw [hb, hb']
    exact .ok () (hbo.trans hbo'.symm)
  | error e =>
    rw [ho] at hfeed hfeed'
    obtain ⟨u, hu⟩ := hfeed k.2
    obtain ⟨u', hu'⟩ := hfeed' k'.2
    obtain ⟨left, hleft⟩ := on_eq_error_iff.1 hu
    obtain ⟨left', hleft'⟩ := on_eq_error_iff.1 hu'
    rw [hleft, hleft']
    exact .error e trivial

namespace Assembly

theorem finish_outline (a : Assembly) : a.finish.map (fun _ => ()) = a.outline.finish := by
  obtain ⟨frames, path, depth, document⟩ := a
  match frames, document with
  | [], none | [], some _ => rfl
  | ⟨.array _, _, _⟩ :: _, _ | ⟨.object _ _, _, _⟩ :: _, _ | ⟨.member _, _, _⟩ :: _, _ => rfl

variable {τ σ' : Type} [TokenSource τ] {l : Listener σ} {l' : Listener σ'}

theorem run_behaves {r : σ → σ → Prop} {F : WalkError → Prop} (hl : l.Behaves r F) (limit : Nat)
    (a : Assembly) (s : σ) (x : τ) : r s (run l limit a s x).state := by
  have hrun := concludes_run l limit a s x
  generalize run l limit a s x = ending at hrun ⊢
  cases hrun with
  | refused _ hfeed => exact ((AssemblyM.ends_feedAll hl limit _ a).of_error hfeed).1
  | ended _ hfeed | failed _ hfeed => exact ((AssemblyM.ends_feedAll hl limit _ a).of_ok hfeed).1

/-- Listeners that never fail bring a walk to the same end, at the same token. -/
theorem run_agree (hl : l.NeverFails) (hl' : l'.NeverFails) (limit : Nat) {a a' : Assembly}
    (h : a.outline = a'.outline) (s : σ) (s' : σ') (x : τ) :
    (run l limit a s x).result.map (fun _ => ()) = (run l' limit a' s' x).result.map (fun _ => ()) ∧
      (run l limit a s x).source = (run l' limit a' s' x).source := by
  have hfinish (k : Assembly × σ) (k' : Assembly × σ') (hk : k.1.outline = k'.1.outline) :
      k.1.finish.map (fun _ => ()) = k'.1.finish.map (fun _ => ()) := by
    rw [finish_outline, finish_outline, hk]
  have hk : (a, s).1.outline = (a', s').1.outline := h
  obtain ⟨hresult, -, hsource⟩ := TokenSource.run_alike TokenSource.alike_next
    (AssemblyM.alike_feed hl hl' limit) hfinish (fun _ _ _ => trivial) hk (rfl : x = x)
  exact ⟨hresult, hsource⟩

end Assembly
end JsonWalk
