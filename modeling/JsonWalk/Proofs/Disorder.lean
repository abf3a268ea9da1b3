import JsonWalk.Proofs.TokenOrder

/-!
# Tokens out of place

An outline takes the tokens of every document, unless there is too much nesting or a name twice. As
the tokens of a text are those of a document, a walk over a text finds no other disorder than a
repeated name, or nothing at all.
-/

namespace JsonWalk

open Grammar

namespace Outline

variable {limit : Nat} {o o' o₁ : Outline} {ts us : List Token}

/-- The tokens lead to this outline, unless there is too much nesting or a name twice. -/
def Reaches (limit : Nat) (r : Except WalkError Outline) (o' : Outline) : Prop :=
  match r with
  | .ok o => o = o'
  | .error e => e = .tooDeep limit ∨ e = .structural .repeatedName (some .object)

theorem Reaches.bind {r : Except WalkError Outline} {f : Outline → Except WalkError Outline}
    (h : Reaches limit r o₁) (hf : Reaches limit (f o₁) o') : Reaches limit (r >>= f) o' := by
  cases r with
  | ok o =>
    obtain rfl : o = o₁ := h
    exact hf
  | error e => exact h

theorem Reaches.append (h : Reaches limit (o.feedAll limit ts) o₁)
    (hf : Reaches limit (o₁.feedAll limit us) o') :
    Reaches limit (o.feedAll limit (ts ++ us)) o' := by
  rw [feedAll_append]
  exact h.bind hf

theorem Reaches.singleton {t : Token} (h : Reaches limit (o.feed limit t) o') :
    Reaches limit (o.feedAll limit [t]) o' :=
  h.bind rfl

theorem reaches_holding (h : o.takesValue) (found : TokenKind) :
    Reaches limit (o.holding found) o.receive := by
  rw [holding, if_pos h]
  rfl

theorem reaches_opening (h : o.takesValue) (found : TokenKind) (shape : Shape) :
    Reaches limit (o.opening limit found shape)
      { o with shapes := shape :: o.shapes, depth := o.depth + 1 } := by
  rw [opening, if_pos h]
  split
  · exact .inl rfl
  · rfl

theorem reaches_beginning {names : List String} {outer : List Shape} (name : String)
    (h : o.shapes = .object names :: outer) :
    Reaches limit (o.beginning name)
      { o with shapes := .member :: .object (name :: names) :: outer } := by
  rw [beginning, h]
  dsimp only
  split
  · exact .inr rfl
  · rfl

mutual

theorem reaches_tokens : ∀ (v : Value) {o : Outline}, o.takesValue →
    Reaches limit (o.feedAll limit v.tokens) o.receive
  | .null, _, h | .bool _, _, h | .number _, _, h | .string _, _, h =>
    .singleton (reaches_holding h _)
  | .array items, o, h => by
    refine (reaches_opening h _ .array).bind ?_
    exact (reaches_itemTokens items rfl).append (.singleton rfl)
  | .object members, o, h => by
    refine (reaches_opening h _ (.object [])).bind ?_
    exact (reaches_memberTokens members rfl).append (.singleton rfl)

theorem reaches_itemTokens : ∀ (items : List Value) {o : Outline} {outer : List Shape},
    o.shapes = .array :: outer → Reaches limit (o.feedAll limit (Value.itemTokens items)) o
  | [], _, _, _ => rfl
  | v :: items, o, _, h => by
    have hv : Reaches limit (o.feedAll limit v.tokens) o.receive :=
      reaches_tokens v (by rw [takesValue, h])
    rw [receive, h] at hv
    exact hv.append (reaches_itemTokens items h)

theorem reaches_memberTokens : ∀ (members : List (String × Value)) {o : Outline}
    {names : List String} {outer : List Shape}, o.shapes = .object names :: outer →
      Reaches limit (o.feedAll limit (Value.memberTokens members))
        { o with shapes := .object ((members.map Prod.fst).reverse ++ names) :: outer }
  | [], o, _, _, h => by
    rw [List.map_nil, List.reverse_nil, List.nil_append, ← h]
    rfl
  | (name, v) :: members, o, _, _, h => by
    refine (reaches_beginning name h).bind ?_
    refine Reaches.append (reaches_tokens v rfl) ?_
    rw [List.map_cons, List.reverse_cons, List.append_assoc]
    exact reaches_memberTokens members rfl

end

theorem error_of_prefix {v : Value} {e : WalkError} (hv : ts <+: v.tokens)
    (h : ({} : Outline).feedAll limit ts = .error e) :
    e = .tooDeep limit ∨ e = .structural .repeatedName (some .object) := by
  obtain ⟨us, hus⟩ := hv
  have hall : Reaches limit (({} : Outline).feedAll limit v.tokens) _ := reaches_tokens v rfl
  rw [← hus, feedAll_append, h] at hall
  exact hall

theorem feedAll_tokens_of_ok {v : Value} (h : ({} : Outline).feedAll limit v.tokens = .ok o) :
    o = { done := true } := by
  have hall : Reaches limit (({} : Outline).feedAll limit v.tokens) _ := reaches_tokens v rfl
  rw [h] at hall
  exact hall

end Outline

structure Listener.NeverStructural {σ : Type} (l : Listener σ) : Prop where
  onEnter (e : Entry) (s : σ) (found : Misfit) (within : Option NodeKind) :
    (l.onEnter e s).failure ≠ some (.structural found within)
  onExit (e : Exit) (s : σ) (found : Misfit) (within : Option NodeKind) :
    (l.onExit e s).failure ≠ some (.structural found within)

theorem Listener.NeverStructural.behaves {σ : Type} {l : Listener σ} (hl : l.NeverStructural) :
    l.Behaves (fun _ _ => True) fun e => ∀ found within, e ≠ .structural found within where
  refl _ := trivial
  trans _ _ _ _ _ := trivial
  onEnter e s := by
    refine ⟨trivial, ?_⟩
    rintro _ hx found within rfl
    exact hl.onEnter e s found within hx
  onExit e s := by
    refine ⟨trivial, ?_⟩
    rintro _ hx found within rfl
    exact hl.onExit e s found within hx

theorem Lexer.next_ne_structural {x y : Lexer} {e : WalkError}
    (h : TokenSource.next x = .error e y) (found : Misfit) (within : Option NodeKind) :
    e ≠ .structural found within := by
  rintro rfl
  rcases (accounted_next x).failsWithin h with h | ⟨_, _, h, -⟩ <;> cases h

namespace StreamWalk

open TokenSource (Hands)

variable {σ : Type} {w : StreamWalk} {l : Listener σ} {s : σ} {bytes : List UInt8}

theorem walkBytes_of_blanks (h : ∀ b ∈ bytes, b ∈ blanks) :
    (w.walkBytes l s bytes).result = .error (.structural (.token .endOfInput) none) := by
  obtain ⟨z, hz⟩ := Lexer.next_eq_endOfInput_of_blanks h
  rw [walkBytes, walk_eq_run, Assembly.run_of_endOfInput hz]
  rfl

/-- A walk over a text finds a name twice or no document at all. -/
theorem of_walkBytes_structural (hl : l.NeverStructural) {found : Misfit} {within : Option NodeKind}
    (h : (w.walkBytes l s bytes).result = .error (.structural found within)) :
    (found = .repeatedName ∧ within = some .object) ∨
      (found = .token .endOfInput ∧ within = none ∧ ∀ b ∈ bytes, b ∈ blanks) := by
  rw [walkBytes, walk_eq_run] at h
  have hrun := Assembly.concludes_run l w.limits.maxDepth {} s (Lexer.ofBytes bytes)
  generalize Assembly.run l w.limits.maxDepth {} s (Lexer.ofBytes bytes) = ending at h hrun
  cases hrun with
  | refused hts hfeed =>
    cases h
    -- the outline refuses one of the tokens, or the listener has failed
    rcases ((AssemblyM.ends_feedAll hl.behaves _ _ {}).of_error hfeed).2 with ho | hnot
    · obtain ⟨v, hv⟩ := Lexer.exists_prefix_of_hands hts
      rcases Outline.error_of_prefix hv ho with h | h <;> cases h
      exact .inl ⟨rfl, rfl⟩
    · exact absurd rfl (hnot found within)
  | @ended _ _ _ a _ hts hfeed hz =>
    have ho := ((AssemblyM.ends_feedAll hl.behaves _ _ {}).of_ok hfeed).2
    have hend : a.finish = .error (.structural found within) := h
    rcases (Lexer.tokens_of_endOfInput hts hz).1 with ⟨v, rfl⟩ | ⟨rfl, hblank⟩
    · have hfinish := a.finish_outline
      rw [Outline.feedAll_tokens_of_ok ho, hend] at hfinish
      cases hfinish
    · cases hfeed
      cases hend
      exact .inr ⟨rfl, rfl, hblank⟩
  | failed _ _ hz =>
    cases h
    exact absurd rfl (Lexer.next_ne_structural hz found within)

/-- The lexer hands out the tokens of one document, in order and to the end, so a walk over a text
whose listener does not say so itself finds nothing out of place but a name twice in an object, and
a document missing where the text is blank. -/
theorem walkBytes_finds_only_repeated_names (bytes : List UInt8) :
    (∀ ts y, Hands (Lexer.ofBytes bytes) ts y →
      (∃ v : Value, ts <+: v.tokens) ∧
      ∀ z, TokenSource.next y = .ok .endOfInput z →
        ((∃ v : Value, ts = v.tokens) ∨ ts = [] ∧ ∀ b ∈ bytes, b ∈ blanks) ∧
        TokenSource.next z = .ok .endOfInput z) ∧
    ∀ {σ : Type} (w : StreamWalk) (l : Listener σ) (s : σ), l.NeverStructural →
      (∀ found within, (w.walkBytes l s bytes).result = .error (.structural found within) →
        (found = .repeatedName ∧ within = some .object) ∨
          (found = .token .endOfInput ∧ within = none)) ∧
      ((w.walkBytes l s bytes).result = .error (.structural (.token .endOfInput) none) ↔
        ∀ b ∈ bytes, b ∈ blanks) := by
  constructor
  · intro ts y hts
    exact ⟨Lexer.exists_prefix_of_hands hts, fun z hz => Lexer.tokens_of_endOfInput hts hz⟩
  · intro σ w l s hl
    refine ⟨fun found within h => ?_, fun h => ?_, walkBytes_of_blanks⟩
    · rcases of_walkBytes_structural hl h with h | ⟨hfound, hwithin, -⟩
      · exact .inl h
      · exact .inr ⟨hfound, hwithin⟩
    · rcases of_walkBytes_structural hl h with ⟨h, -⟩ | ⟨-, -, hblank⟩
      · cases h
      · exact hblank

/-- In a blank text there is no document. -/
theorem walkBytes_finds_only_repeated_names_in_blanks :
    Listener.silent.NeverStructural ∧ (∀ b ∈ ascii " \n", b ∈ blanks) ∧
      (StreamWalk.walkBytes {} .silent () (ascii " \n")).result =
        .error (.structural (.token .endOfInput) none) := by
  have hsilent : Listener.silent.NeverStructural :=
    ⟨fun _ _ _ _ => nofun, fun _ _ _ _ => nofun⟩
  have hblank : ∀ b ∈ ascii " \n", b ∈ blanks := by decide +kernel
  have hwalk := (walkBytes_finds_only_repeated_names (ascii " \n")).2 {} .silent () hsilent
  exact ⟨hsilent, hblank, hwalk.2.2 hblank⟩

end StreamWalk
end JsonWalk
