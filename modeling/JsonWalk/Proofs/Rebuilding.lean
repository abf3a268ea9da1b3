import JsonWalk.Proofs.Moves

/-!
# Documents rebuilt from their tokens

With a silent listener an assembly forgets nothing: the tokens that led to it can be read off its
frames. So a walk gives a document exactly for the tokens of the document, and stops at the first
token that no document continues.
-/

namespace JsonWalk

/-! ### The silent listener -/

namespace Listener

@[simp] theorem enter_silent (kind : NodeKind) (path : Path) :
    silent.enter kind path = pure false := rfl

@[simp] theorem leave_silent (kind : NodeKind) (path : Path) (place : Place) (v : Value) :
    silent.leave kind path place v = pure (some v) := rfl

@[simp] theorem enterUnless_silent (skipped : Bool) (kind : NodeKind) (path : Path) :
    enterUnless skipped silent kind path = pure skipped := by
  cases skipped <;> rfl

@[simp] theorem leaveUnless_silent (skipped : Bool) (kind : NodeKind) (path : Path) (place : Place)
    (v : Value) : leaveUnless skipped silent kind path place v = pure (some v) := by
  cases skipped <;> rfl

end Listener

section

variable {limit : Nat}

mutual

theorem passValue_silent (path : Path) (place : Place) {depth : Nat} (hdepth : depth ≤ limit) :
    ∀ v : Value, passValue .silent limit path place depth v = passOver limit depth v
  | .null | .bool _ | .number _ | .string _ => (within_of_le hdepth).symm
  | .array items => by
    rw [passValue, passOver_array]
    by_cases hd : limit < depth + 1
    · rw [if_pos hd, within_of_lt (by omega)]
    · rw [if_neg hd, Listener.enter_silent, pure_bind, if_neg Bool.false_ne_true,
        passItems_silent path 0 (Nat.not_lt.1 hd) items]
      simp only [Listener.leave_silent, pure_bind, Option.getD_some, within_bind_pure]
  | .object members => by
    rw [passValue, passOver_object]
    by_cases hd : limit < depth + 1
    · rw [if_pos hd, within_of_lt (by omega)]
    · rw [if_neg hd, Listener.enter_silent, pure_bind, if_neg Bool.false_ne_true,
        passMembers_silent path (Nat.not_lt.1 hd) members]
      simp only [Listener.leave_silent, pure_bind, Option.getD_some, within_bind_pure]

theorem passItems_silent (path : Path) (position : Nat) {depth : Nat} (hdepth : depth ≤ limit) :
    ∀ items : List Value, passItems .silent limit path depth position items =
      within limit (depth + Value.itemsNesting items) items
  | [] => by
    rw [Value.itemsNesting, within_of_le (by omega), passItems]
  | v :: rest => by
    rw [passItems, passValue_silent _ _ hdepth v, passItems_silent path _ hdepth rest, passOver]
    simp only [within_bind_pure, within_bind_within, Value.itemsNesting, Nat.add_max_add_left]

theorem passMembers_silent (path : Path) {depth : Nat} (hdepth : depth ≤ limit) :
    ∀ members : List (String × Value), passMembers .silent limit path depth members =
      within limit (depth + Value.membersNesting members) members
  | [] => by
    rw [Value.membersNesting, within_of_le (by omega), passMembers]
  | (name, v) :: rest => by
    rw [passMembers, passValue_silent _ _ hdepth v, passMembers_silent path hdepth rest, passOver]
    simp only [Listener.enter_silent, Listener.leave_silent, pure_bind, Bool.false_eq_true,
      if_false, within_bind_pure, within_bind_within, Value.membersNesting, Nat.add_max_add_left]
    rfl

end

theorem feedAll_tokens_silent {v : Value} (hv : v.DistinctNames) :
    AssemblyM.feedAll .silent limit v.tokens {} =
      within limit v.nesting ({ document := some v } : Assembly) := by
  rw [AssemblyM.feedAll_tokens .root rfl rfl hv, passValue_silent _ _ (Nat.zero_le _), passOver]
  simp only [AssemblyM.on_deliver_nil, within_bind_pure, Nat.zero_add]

end

/-! ### Tokens read off an assembly -/

namespace Assembly

def receive (v : Value) (a : Assembly) : Assembly :=
  match a.frames with
  | [] => { a with document := some v }
  | ⟨.array items, place, skipped⟩ :: outer =>
    { a with frames := ⟨.array (items.push v), place, skipped⟩ :: outer }
  | ⟨.member name, place, _⟩ :: outer =>
    (({ a with frames := outer } : Assembly).ascend place).addMember name v
  | ⟨.object _ _, _, _⟩ :: _ => a

end Assembly

def Contents.tokens : Contents → List Token
  | .array items => .beginArray :: Value.itemTokens items.toList
  | .object members _ => .beginObject :: Value.memberTokens members.toList
  | .member name => [.name name]

def frameTokens : List Frame → List Token
  | [] => []
  | f :: outer => frameTokens outer ++ f.contents.tokens

/-- The tokens that led to an assembly in silence. -/
def Assembly.tokens (a : Assembly) : List Token :=
  frameTokens a.frames ++ (a.document.map Value.tokens).getD []

/-- A value may come next, as far as the open nodes decide it. -/
def TakesValue : List Frame → Prop
  | ⟨.object _ _, _, _⟩ :: _ => False
  | _ => True

/-- Open nodes as a silent walk leaves them: each stands where it may, and an object knows exactly
the names of its members, the open one included. -/
inductive Sound : List Frame → Prop
  | nil : Sound []
  | array {items : Array Value} {place : Place} {skipped : Bool} {outer : List Frame} :
    Value.ItemsDistinct items.toList → TakesValue outer → Sound outer →
      Sound (⟨.array items, place, skipped⟩ :: outer)
  | object {members : Array (String × Value)} {names : List String} {place : Place}
      {skipped : Bool} {outer : List Frame} :
    names = (members.toList.map Prod.fst).reverse → (Value.object members.toList).DistinctNames →
      TakesValue outer → Sound outer → Sound (⟨.object members names, place, skipped⟩ :: outer)
  | member {name : String} {members : Array (String × Value)} {names : List String}
      {place place' : Place} {skipped skipped' : Bool} {outer : List Frame} :
    names = (members.toList.map Prod.fst).reverse → name ∉ names →
      (Value.object members.toList).DistinctNames → TakesValue outer → Sound outer →
      Sound (⟨.member name, place, skipped⟩ ::
        ⟨.object members (name :: names), place', skipped'⟩ :: outer)

/-- The assembly has taken `ts` in silence. -/
structure Rebuilt (a : Assembly) (ts : List Token) : Prop where
  sound : Sound a.frames
  tokens_eq : a.tokens = ts
  frames_eq_nil : ∀ v, a.document = some v → a.frames = []
  distinctNames : ∀ v, a.document = some v → v.DistinctNames

section

variable {limit : Nat} {a a' : Assembly} {ts us : List Token} {t : Token} {v : Value}
  {place : Place}

theorem distinctNames_push {members : Array (String × Value)} {name : String}
    (hn : name ∉ (members.toList.map Prod.fst).reverse)
    (hm : (Value.object members.toList).DistinctNames) (hv : v.DistinctNames) :
    (Value.object (members.push (name, v)).toList).DistinctNames := by
  rw [Value.DistinctNames] at hm ⊢
  rw [Array.toList_push, List.map_append, List.nodup_append, Value.membersDistinct_append]
  refine ⟨⟨hm.1, List.nodup_singleton name, ?_⟩, hm.2, hv, trivial⟩
  rintro m hmem n hn' rfl
  obtain rfl : m = name := by simpa using hn'
  exact hn (List.mem_reverse.2 hmem)

/-- A value that may come next, and all that is open around it, belong to one document. -/
theorem Sound.exists_document_of_takesValue {outer : List Frame} (hs : Sound outer)
    (ht : TakesValue outer) (hv : v.DistinctNames) :
    ∃ w : Value, w.DistinctNames ∧ frameTokens outer ++ v.tokens <+: w.tokens := by
  induction hs generalizing v with
  | nil => exact ⟨v, hv, List.prefix_rfl⟩
  | @array items place skipped outer hi hto _ ih =>
    have hitems : (Value.array (items.toList ++ [v])).DistinctNames :=
      Value.itemsDistinct_append.2 ⟨hi, hv, trivial⟩
    obtain ⟨w, hw, hpre⟩ := ih hto hitems
    refine ⟨w, hw, List.IsPrefix.trans ?_ hpre⟩
    simp [frameTokens, Contents.tokens, Value.tokens, Value.itemTokens_append, Value.itemTokens]
  | object => exact ht.elim
  | @member name members names place place' skipped skipped' outer hnames hn hm hto _ ih =>
    subst hnames
    obtain ⟨w, hw, hpre⟩ := ih hto (distinctNames_push hn hm hv)
    refine ⟨w, hw, List.IsPrefix.trans ?_ hpre⟩
    simp [frameTokens, Contents.tokens, Value.tokens, Value.memberTokens_append, Value.memberTokens]

theorem Sound.exists_document {frames : List Frame} (hs : Sound frames) :
    ∃ w : Value, w.DistinctNames ∧ frameTokens frames <+: w.tokens := by
  by_cases ht : TakesValue frames
  · obtain ⟨w, hw, hpre⟩ := hs.exists_document_of_takesValue (v := .null) ht trivial
    exact ⟨w, hw, (List.prefix_append _ _).trans hpre⟩
  · cases hs with
    | nil => exact absurd trivial ht
    | array => exact absurd trivial ht
    | member => exact absurd trivial ht
    | @object members names place skipped outer _ hm hto hs =>
      obtain ⟨w, hw, hpre⟩ := hs.exists_document_of_takesValue hto hm
      refine ⟨w, hw, List.IsPrefix.trans ?_ hpre⟩
      simp [frameTokens, Contents.tokens, Value.tokens]

theorem Sound.rebuilt_receive (hs : Sound a.frames) (ht : TakesValue a.frames)
    (hd : a.document = none) (hv : v.DistinctNames) :
    Rebuilt (a.receive v) (frameTokens a.frames ++ v.tokens) := by
  obtain ⟨frames, path, depth, document⟩ := a
  obtain rfl : document = none := hd
  cases hs with
  | nil =>
    refine ⟨.nil, rfl, fun _ _ => rfl, ?_⟩
    rintro w hw
    cases hw
    exact hv
  | array hi hto hs =>
    refine ⟨.array ?_ hto hs, ?_, nofun, nofun⟩
    · rw [Array.toList_push, Value.itemsDistinct_append]
      exact ⟨hi, hv, trivial⟩
    · simp [Assembly.receive, Assembly.tokens, frameTokens, Contents.tokens,
        Value.itemTokens_append, Value.itemTokens]
  | object => exact ht.elim
  | member hnames hn hm hto hs =>
    subst hnames
    refine ⟨.object ?_ (distinctNames_push hn hm hv) hto hs, ?_, nofun, nofun⟩
    · simp
    · simp [Assembly.receive, Assembly.ascend, Assembly.addMember, Assembly.tokens, frameTokens,
        Contents.tokens, Value.memberTokens_append, Value.memberTokens]

namespace Rebuilt

theorem empty : Rebuilt {} [] where
  sound := .nil
  tokens_eq := rfl
  frames_eq_nil _ h := nomatch h
  distinctNames _ h := nomatch h

theorem exists_document (h : Rebuilt a ts) : ∃ v : Value, v.DistinctNames ∧ ts <+: v.tokens := by
  obtain ⟨frames, path, depth, document⟩ := a
  obtain ⟨hs, rfl, hnil, hd⟩ := h
  cases document with
  | none => simpa [Assembly.tokens] using hs.exists_document
  | some v =>
    obtain rfl : frames = [] := hnil v rfl
    exact ⟨v, hd v rfl, List.prefix_rfl⟩

theorem document_eq_none (h : Rebuilt a ts) (hp : a.nextPlace? = some place) :
    a.document = none := by
  cases hd : a.document with
  | none => rfl
  | some v =>
    rw [Assembly.nextPlace?, h.frames_eq_nil v hd, hd] at hp
    cases hp

theorem frameTokens_eq (h : Rebuilt a ts) (hd : a.document = none) : frameTokens a.frames = ts := by
  rw [← h.tokens_eq, Assembly.tokens, hd]
  simp

end Rebuilt

/-! ### Steps in silence -/

theorem takesValue_of_nextPlace (hp : a.nextPlace? = some place) : TakesValue a.frames := by
  obtain ⟨frames, path, depth, document⟩ := a
  match frames with
  | [] | ⟨.array _, _, _⟩ :: _ | ⟨.member _, _, _⟩ :: _ => trivial
  | ⟨.object _ _, _, _⟩ :: _ => cases hp

theorem AssemblyM.on_deliver_silent : (deliver .silent v).on a = pure (a.receive v) := by
  obtain ⟨frames, path, depth, document⟩ := a
  match frames with
  | [] => exact on_deliver_nil rfl
  | ⟨.array _, _, _⟩ :: _ => exact on_deliver_array rfl
  | ⟨.object _ _, _, _⟩ :: _ => rfl
  | ⟨.member _, _, _⟩ :: _ =>
    rw [on_deliver_member rfl, Listener.leaveUnless_silent, pure_bind]
    rfl

def Move.outcome (a : Assembly) : Move → Assembly
  | .opens contents place => a.inside contents place a.isSkipping
  | .holds v _ => a.receive v
  | .closes _ place _ outer v =>
    (({ a with frames := outer, depth := a.depth - 1 } : Assembly).ascend place).receive v
  | .begins name members names place skipped outer => { a with
    frames := ⟨.member name, .member name, skipped⟩ ::
      ⟨.object members (name :: names), place, skipped⟩ :: outer
    path := a.path ++ [.member name] }

theorem Move.perform_silent (m : Move) : m.perform .silent a = pure (m.outcome a) := by
  cases m <;> simp only [perform, Listener.enterUnless_silent, Listener.leaveUnless_silent,
    pure_bind, Option.getD_some, AssemblyM.on_deliver_silent, outcome]

namespace Rebuilt

theorem opens {found : TokenKind} {contents : Contents} {m : Move} (h : Rebuilt a ts)
    (hm : a.opening limit found contents = .ok m)
    (hs : ∀ place skipped, TakesValue a.frames → Sound (⟨contents, place, skipped⟩ :: a.frames)) :
    Rebuilt (m.outcome a) (ts ++ contents.tokens) := by
  rw [Assembly.opening] at hm
  split at hm
  · cases hm
  · next place hp =>
    split at hm
    · cases hm
    · cases hm
      have hd : (a.inside contents place a.isSkipping).document = none := h.document_eq_none hp
      refine ⟨hs place _ (takesValue_of_nextPlace hp), ?_, ?_, ?_⟩
      · rw [Assembly.tokens, Move.outcome, hd, ← h.frameTokens_eq hd]
        exact List.append_nil _
      all_goals
        intro v hv
        cases hd.symm.trans hv

theorem holds {found : TokenKind} {m : Move} (h : Rebuilt a ts) (hv : v.DistinctNames)
    (hm : a.holding found v = .ok m) : Rebuilt (m.outcome a) (ts ++ v.tokens) := by
  rw [Assembly.holding] at hm
  split at hm
  · cases hm
  · next place hp =>
    cases hm
    have hd := h.document_eq_none hp
    rw [← h.frameTokens_eq hd]
    exact h.sound.rebuilt_receive (takesValue_of_nextPlace hp) hd hv

theorem document_eq_none_of_cons {f : Frame} {outer : List Frame} (h : Rebuilt a ts)
    (hf : a.frames = f :: outer) : a.document = none := by
  cases hd : a.document with
  | none => rfl
  | some v => cases hf.symm.trans (h.frames_eq_nil v hd)

theorem begins {name : String} {m : Move} (h : Rebuilt a ts) (hm : a.beginning name = .ok m) :
    Rebuilt (m.outcome a) (ts ++ [.name name]) := by
  rw [Assembly.beginning] at hm
  split at hm
  · next members names place skipped outer hf =>
    split at hm
    · cases hm
    · next hn =>
      cases hm
      have hd := h.document_eq_none_of_cons hf
      have hs := h.sound
      rw [← h.frameTokens_eq hd, hf]
      rw [hf] at hs
      cases hs with
      | object hnames hobj ht hs =>
        refine ⟨.member hnames hn hobj ht hs, ?_, ?_, ?_⟩
        · simp [Assembly.tokens, Move.outcome, frameTokens, Contents.tokens, hd]
        all_goals
          intro v hv
          cases hd.symm.trans hv
  · cases hm

theorem closes {kind : NodeKind} {contents : Contents} {skipped : Bool} {outer : List Frame}
    (h : Rebuilt a ts) (hf : a.frames = ⟨contents, place, skipped⟩ :: outer) (hs : Sound outer)
    (ht : TakesValue outer) (hv : v.DistinctNames) (hts : contents.tokens ++ [t] = v.tokens) :
    Rebuilt ((Move.closes kind place skipped outer v).outcome a) (ts ++ [t]) := by
  have hd := h.document_eq_none_of_cons hf
  rw [← h.frameTokens_eq hd, hf, frameTokens, List.append_assoc, hts]
  exact Sound.rebuilt_receive
    (a := ({ a with frames := outer, depth := a.depth - 1 } : Assembly).ascend place) hs ht hd hv

/-- Every move adds its token to those taken. -/
theorem move {m : Move} (h : Rebuilt a ts) (hm : a.move limit t = .ok m) :
    Rebuilt (m.outcome a) (ts ++ [t]) := by
  cases t with
  | beginObject => exact h.opens hm fun _ _ ht => .object rfl ⟨List.nodup_nil, trivial⟩ ht h.sound
  | beginArray => exact h.opens hm fun _ _ ht => .array trivial ht h.sound
  | name => exact h.begins hm
  | string s => exact h.holds (v := .string s) trivial hm
  | number n => exact h.holds (v := .number n) trivial hm
  | bool b => exact h.holds (v := .bool b) trivial hm
  | null => exact h.holds (v := .null) trivial hm
  | endOfInput => cases hm
  | endObject =>
    rw [Assembly.move] at hm
    split at hm
    · next members names place skipped outer hf =>
      cases hm
      have hs := h.sound
      rw [hf] at hs
      cases hs with
      | object _ hobj ht hs => exact h.closes hf hs ht hobj rfl
    · cases hm
  | endArray =>
    rw [Assembly.move] at hm
    split at hm
    · next items place skipped outer hf =>
      cases hm
      have hs := h.sound
      rw [hf] at hs
      cases hs with
      | array hitems ht hs => exact h.closes hf hs ht hitems rfl
    · cases hm

end Rebuilt

theorem Rebuilt.feed (h : Rebuilt a ts)
    (hf : (AssemblyM.feed .silent limit t).on a () = .ok a' ()) : Rebuilt a' (ts ++ [t]) := by
  rw [AssemblyM.on_feed] at hf
  cases hm : a.move limit t with
  | error e =>
    rw [hm] at hf
    cases hf
  | ok m =>
    rw [hm, AssemblyM.onMove, m.perform_silent] at hf
    cases hf
    exact h.move hm

theorem Rebuilt.feedAll (h : Rebuilt a ts)
    (hf : AssemblyM.feedAll .silent limit us a () = .ok a' ()) : Rebuilt a' (ts ++ us) := by
  induction us generalizing a ts with
  | nil =>
    cases hf
    rwa [List.append_nil]
  | cons t us ih =>
    rw [AssemblyM.feedAll_cons] at hf
    obtain ⟨b, _, hb, hf⟩ := bind_eq_ok_iff.1 hf
    rw [List.append_cons]
    exact ih (h.feed hb) hf

end

end JsonWalk
