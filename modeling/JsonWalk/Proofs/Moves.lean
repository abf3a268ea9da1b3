import JsonWalk.Proofs.Passage

/-!
# What a token does to an assembly

A token is refused or taken for what is open, whatever the listener says. A `Move` is what there is
to do for a token that is taken; only doing it involves the listener.
-/

namespace JsonWalk

inductive Move where
  | opens (contents : Contents) (place : Place)
  /-- A scalar comes and goes. -/
  | holds (v : Value) (place : Place)
  | closes (kind : NodeKind) (place : Place) (skipped : Bool) (outer : List Frame) (v : Value)
  /-- A member opens in an object that has taken `members`. -/
  | begins (name : String) (members : Array (String × Value)) (names : List String) (place : Place)
    (skipped : Bool) (outer : List Frame)

namespace Assembly

def opening (limit : Nat) (found : TokenKind) (contents : Contents) (a : Assembly) :
    Except WalkError Move :=
  match a.nextPlace? with
  | none => .error (a.unexpected found)
  | some place =>
    if limit < a.depth + 1 then .error (.tooDeep limit) else .ok (.opens contents place)

def holding (found : TokenKind) (v : Value) (a : Assembly) : Except WalkError Move :=
  match a.nextPlace? with
  | none => .error (a.unexpected found)
  | some place => .ok (.holds v place)

def beginning (name : String) (a : Assembly) : Except WalkError Move :=
  match a.frames with
  | ⟨.object members names, place, skipped⟩ :: outer =>
    if name ∈ names then .error (.structural .repeatedName (some .object))
    else .ok (.begins name members names place skipped outer)
  | _ => .error (a.unexpected .name)

def move (limit : Nat) (t : Token) (a : Assembly) : Except WalkError Move :=
  match t with
  | .beginObject => a.opening limit .beginObject (.object #[] [])
  | .beginArray => a.opening limit .beginArray (.array #[])
  | .endObject =>
    match a.frames with
    | ⟨.object members _, place, skipped⟩ :: outer =>
      .ok (.closes .object place skipped outer (.object members.toList))
    | _ => .error (a.unexpected .endObject)
  | .endArray =>
    match a.frames with
    | ⟨.array items, place, skipped⟩ :: outer =>
      .ok (.closes .array place skipped outer (.array items.toList))
    | _ => .error (a.unexpected .endArray)
  | .name name => a.beginning name
  | .string s => a.holding .string (.string s)
  | .number n => a.holding .number (.number n)
  | .bool b => a.holding .bool (.bool b)
  | .null => a.holding .null .null
  | .endOfInput => .error (a.unexpected .endOfInput)

/-- A greater limit changes nothing for a token that is not refused for the limit. -/
theorem move_of_le {limit limit' : Nat} {t : Token} {a : Assembly} (h : limit ≤ limit')
    (hne : a.move limit t ≠ .error (.tooDeep limit)) : a.move limit' t = a.move limit t := by
  have hopening {found : TokenKind} {contents : Contents}
      (hne : a.opening limit found contents ≠ .error (.tooDeep limit)) :
      a.opening limit' found contents = a.opening limit found contents := by
    rw [opening] at hne
    rw [opening, opening]
    cases hp : a.nextPlace? with
    | none => rfl
    | some place =>
      simp only [hp] at hne ⊢
      by_cases hd : limit < a.depth + 1
      · exact absurd (if_pos hd) hne
      · rw [if_neg hd, if_neg (by omega)]
  cases t with
  | beginObject | beginArray => exact hopening hne
  | _ => rfl

end Assembly

variable {σ : Type}

def Move.perform (l : Listener σ) (a : Assembly) : Move → EStateM WalkError σ Assembly
  | .opens contents place => do
    let skipped ← l.enterUnless a.isSkipping contents.kind (a.descend place).path
    return a.inside contents place skipped
  | .holds v place => do
    let skipped ← l.enterUnless a.isSkipping v.kind (a.descend place).path
    let left ← l.leaveUnless skipped v.kind (a.descend place).path place v
    (AssemblyM.deliver l (left.getD .null)).on a
  | .closes kind place skipped outer v => do
    let left ← l.leaveUnless skipped kind a.path place v
    (AssemblyM.deliver l (left.getD .null)).on
      (({ a with frames := outer, depth := a.depth - 1 } : Assembly).ascend place)
  | .begins name members names place skipped outer => do
    let below ← l.enterUnless skipped .member (a.path ++ [.member name])
    return { a with
      frames := ⟨.member name, .member name, below⟩ ::
        ⟨.object members (name :: names), place, skipped⟩ :: outer
      path := a.path ++ [.member name] }

namespace AssemblyM

variable {l : Listener σ} {limit : Nat} {a : Assembly} {t : Token}

def onMove (l : Listener σ) (a : Assembly) : Except WalkError Move → EStateM WalkError σ Assembly
  | .ok m => m.perform l a
  | .error e => throw e

theorem on_openContainer_eq {found : TokenKind} {contents : Contents} :
    (openContainer l limit found contents).on a = onMove l a (a.opening limit found contents) := by
  cases hp : a.nextPlace? with
  | none =>
    funext s
    simp only [on, openContainer, get_bind_apply, Assembly.opening, hp]
    rfl
  | some place =>
    rw [on_openContainer hp]
    simp only [Assembly.opening, hp]
    split <;> rfl

theorem on_scalar_eq {found : TokenKind} {v : Value} :
    (scalar l found v).on a = onMove l a (a.holding found v) := by
  cases hp : a.nextPlace? with
  | none =>
    funext s
    simp only [on, scalar, get_bind_apply, Assembly.holding, hp]
    rfl
  | some place =>
    rw [on_scalar hp]
    simp only [Assembly.holding, hp]
    rfl

theorem on_openMember_eq {name : String} :
    (openMember l name).on a = onMove l a (a.beginning name) := by
  obtain ⟨frames, path, depth, document⟩ := a
  match frames with
  | [] | ⟨.array _, _, _⟩ :: _ | ⟨.member _, _, _⟩ :: _ => rfl
  | ⟨.object members names, place, skipped⟩ :: outer =>
    by_cases hn : name ∈ names
    · funext s
      simp only [on, openMember, get_bind_apply, Assembly.beginning, if_pos hn]
      rfl
    · rw [on_openMember rfl hn]
      simp only [Assembly.beginning, if_neg hn]
      rfl

/-- What is done for a token is decided before the listener hears of it. -/
theorem on_feed : (feed l limit t).on a = onMove l a (a.move limit t) := by
  cases t with
  | beginObject | beginArray => exact on_openContainer_eq
  | name => exact on_openMember_eq
  | string | number | bool | null => exact on_scalar_eq
  | endOfInput => rfl
  | endObject =>
    obtain ⟨frames, path, depth, document⟩ := a
    match frames with
    | [] | ⟨.array _, _, _⟩ :: _ | ⟨.member _, _, _⟩ :: _ => rfl
    | ⟨.object members names, place, skipped⟩ :: outer => exact on_closeContainer
  | endArray =>
    obtain ⟨frames, path, depth, document⟩ := a
    match frames with
    | [] | ⟨.object _ _, _, _⟩ :: _ | ⟨.member _, _, _⟩ :: _ => rfl
    | ⟨.array items, place, skipped⟩ :: outer => exact on_closeContainer

end AssemblyM
end JsonWalk
