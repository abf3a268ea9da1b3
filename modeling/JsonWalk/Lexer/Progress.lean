import JsonWalk.Lexer

/-!
# The lexer moves forward

No action of the lexer puts bytes back, and reading a token other than the end of the input takes at
least one byte. So a lexer is a source of tokens.
-/

namespace JsonWalk.Lexer

/-- Where an action leaves the lexer, whether it succeeds or not. -/
def after {α : Type} : EStateM.Result WalkError Lexer α → Lexer
  | .ok _ x | .error _ x => x

/-- The action never puts bytes back. -/
def Forward {α : Type} (m : LexM α) : Prop :=
  ∀ x, (after (m x)).content.length ≤ x.content.length

def Consuming {α : Type} (m : LexM α) : Prop :=
  ∀ x a y, m x = .ok a y → y.content.length < x.content.length

section

variable {α β : Type}

theorem forward_pure (a : α) : Forward (pure a : LexM α) := fun _ => Nat.le_refl _

theorem forward_throw (e : WalkError) : Forward (throw e : LexM α) := fun _ => Nat.le_refl _

theorem forward_get : Forward (get : LexM Lexer) := fun _ => Nat.le_refl _

theorem forward_modify {f : Lexer → Lexer} (h : ∀ x, (f x).content.length ≤ x.content.length) :
    Forward (modify f : LexM Unit) := h

theorem forward_bind {m : LexM α} {f : α → LexM β} (hm : Forward m) (hf : ∀ a, Forward (f a)) :
    Forward (m >>= f) := by
  intro x
  have h := hm x
  simp only [bind, EStateM.bind]
  cases hx : m x with
  | ok a y =>
    rw [hx] at h
    exact Nat.le_trans (hf a y) h
  | error e y =>
    rw [hx] at h
    exact h

theorem bind_eq_ok {m : LexM α} {f : α → LexM β} {x z : Lexer} {b : β}
    (h : (m >>= f) x = .ok b z) : ∃ a y, m x = .ok a y ∧ f a y = .ok b z := by
  simp only [bind, EStateM.bind] at h
  cases hx : m x with
  | ok a y =>
    rw [hx] at h
    exact ⟨a, y, rfl, h⟩
  | error e y =>
    rw [hx] at h
    cases h

theorem Forward.le_of_ok {m : LexM α} {x y : Lexer} {a : α} (hm : Forward m)
    (h : m x = .ok a y) : y.content.length ≤ x.content.length := by
  simpa only [h, after] using hm x

theorem consuming_throw (e : WalkError) : Consuming (throw e : LexM α) := by
  intro x a y h
  cases h

theorem consuming_bind_left {m : LexM α} {f : α → LexM β} (hm : Consuming m)
    (hf : ∀ a, Forward (f a)) : Consuming (m >>= f) := by
  intro x b z h
  obtain ⟨a, y, hy, hz⟩ := bind_eq_ok h
  exact Nat.lt_of_le_of_lt ((hf a).le_of_ok hz) (hm x a y hy)

theorem consuming_bind_right {m : LexM α} {f : α → LexM β} (hm : Forward m)
    (hf : ∀ a, Consuming (f a)) : Consuming (m >>= f) := by
  intro x b z h
  obtain ⟨a, y, hy, hz⟩ := bind_eq_ok h
  exact Nat.lt_of_lt_of_le (hf a y b z hz) (hm.le_of_ok hy)

theorem forward_fail (fault : TextFault) : Forward (fail fault : LexM α) :=
  forward_bind forward_get fun _ => forward_throw _

theorem consuming_fail (fault : TextFault) : Consuming (fail fault : LexM α) :=
  consuming_bind_right forward_get fun _ => consuming_throw _

end

theorem forward_peek : Forward peek := by
  intro x
  cases h : peek x with
  | ok b y => exact Nat.le_of_eq (congrArg List.length (content_of_peek h))
  | error e y =>
    unfold peek at h
    split at h
    · cases h
    · cases h; exact Nat.le_refl _

theorem forward_advance : Forward (modify advance) := by
  refine forward_modify fun x => ?_
  simp only [content, advance, Input.content, Input.drop, List.length_append, List.length_tail]
  omega

theorem forward_nextByte : Forward nextByte := by
  refine forward_bind forward_peek fun b => ?_
  cases b with
  | none => exact forward_fail _
  | some b => exact forward_bind forward_advance fun _ => forward_pure _

theorem consuming_nextByte : Consuming nextByte := by
  intro x b z h
  obtain ⟨b, y, hy, hz⟩ := bind_eq_ok h
  cases b with
  | none => cases hz
  | some b => cases hz; simp [← content_advance_of_peek hy]

theorem forward_takeOnto {κ : Type} (step : κ → UInt8 → Option κ) (k : κ) (taken : List UInt8) :
    Forward (takeOnto step k taken) := by
  intro x
  fun_induction takeOnto step k taken x with
  | case1 _ _ x e y h => simpa only [h, after] using forward_peek x
  | case2 _ _ x y h => have := forward_peek x; rwa [h] at this
  | case3 _ _ x b y h => have := forward_peek x; rwa [h] at this
  | case4 k taken x b y h k' hk ih =>
    have := congrArg List.length (content_advance_of_peek h)
    simp only [List.length_cons] at this
    omega

/-- What a run takes and what it leaves make up what there was. -/
theorem takeOnto_append_content {κ : Type} {step : κ → UInt8 → Option κ} {k : κ}
    {taken raw : List UInt8} {x y : Lexer} (h : takeOnto step k taken x = .ok raw y) :
    raw ++ y.content = taken.reverse ++ x.content := by
  fun_induction takeOnto step k taken x with
  | case1 => cases h
  | case2 _ _ x z hp => cases h; rw [content_of_peek hp]
  | case3 _ _ x b z hp => cases h; rw [content_of_peek hp]
  | case4 k taken x b z hp k' hk ih =>
    rw [ih h, ← content_advance_of_peek hp]
    simp

theorem forward_takeRun {κ : Type} (step : κ → UInt8 → Option κ) (k : κ) :
    Forward (takeRun step k) :=
  forward_takeOnto step k []

theorem forward_skipBlanks : Forward skipBlanks :=
  forward_bind (forward_takeRun _ _) fun _ => forward_pure _

theorem forward_expectMore : Forward expectMore := by
  refine forward_bind forward_skipBlanks fun _ => forward_bind forward_peek fun b => ?_
  cases b with
  | none => exact forward_fail _
  | some b => exact forward_pure _

theorem forward_setScope (s : Scope) : Forward (setScope s) :=
  forward_modify fun _ => Nat.le_refl _

theorem consuming_openScope (s : Scope) : Consuming (openScope s) :=
  consuming_bind_left consuming_nextByte fun _ => forward_modify fun _ => Nat.le_refl _

theorem consuming_close : Consuming close := by
  refine consuming_bind_left consuming_nextByte fun _ => forward_bind forward_get fun x =>
    forward_bind (forward_modify fun _ => Nat.le_refl _) fun _ => ?_
  split <;> exact forward_pure _

theorem forward_readWord (start : Nat) (word rest : List UInt8) :
    Forward (readWord start word rest) := by
  induction rest with
  | nil => exact forward_pure _
  | cons b rest ih =>
    refine forward_bind forward_nextByte fun c => ?_
    split
    · exact ih
    · exact forward_throw _

theorem consuming_readLiteral (b : UInt8) (rest : List UInt8) (token : Token) :
    Consuming (readLiteral (b :: rest) token) := by
  refine consuming_bind_right forward_get fun x => consuming_bind_left
    (consuming_bind_left consuming_nextByte fun c => ?_) fun _ => forward_pure _
  split
  · exact forward_readWord _ _ _
  · exact forward_throw _

theorem consuming_readString : Consuming readString := by
  refine consuming_bind_right forward_get fun x => consuming_bind_left consuming_nextByte fun _ =>
    forward_bind (forward_takeRun _ _) fun raw => forward_bind forward_nextByte fun _ => ?_
  split
  · exact forward_pure _
  · exact forward_throw _

theorem consuming_readName (b : UInt8) : Consuming (readName b) := by
  unfold readName
  split
  · exact consuming_bind_left consuming_readString fun _ =>
      forward_bind (forward_setScope _) fun _ => forward_pure _
  · exact consuming_fail _

theorem consuming_readNumber : Consuming readNumber := by
  refine consuming_bind_right forward_get fun start => ?_
  intro x t z h
  obtain ⟨raw, y, hy, hz⟩ := bind_eq_ok h
  have hc := takeOnto_append_content hy
  cases raw with
  | nil => cases hz
  | cons b raw =>
    cases hn : Number.ofLiteral? ((b :: raw).map fun b => Char.ofNat b.toNat) with
    | none => rw [hn] at hz; cases hz
    | some n =>
      rw [hn] at hz
      cases hz
      have := congrArg List.length hc
      simp only [List.reverse_nil, List.nil_append, List.length_append, List.length_cons] at this
      omega

theorem consuming_readValue (b : UInt8) : Consuming (readValue b) := by
  unfold readValue
  repeat' split
  · exact consuming_bind_left (consuming_openScope _) fun _ => forward_pure _
  · exact consuming_bind_left (consuming_openScope _) fun _ => forward_pure _
  · exact consuming_bind_left consuming_readString fun _ => forward_pure _
  · exact consuming_readLiteral _ _ _
  · exact consuming_readLiteral _ _ _
  · exact consuming_readLiteral _ _ _
  · exact consuming_readNumber
  · exact consuming_fail _

theorem consuming_readToken (b : UInt8) : Consuming (readToken b) := by
  refine consuming_bind_right forward_get fun x => ?_
  split
  · split
    · exact consuming_fail _
    · exact consuming_bind_right (forward_modify fun _ => Nat.le_refl _) fun _ =>
        consuming_readValue b
  · split
    · exact consuming_close
    · exact consuming_bind_right (forward_setScope _) fun _ => consuming_readValue b
  · split
    · exact consuming_close
    · split
      · exact consuming_bind_right forward_nextByte fun _ =>
          consuming_bind_right forward_expectMore consuming_readValue
      · exact consuming_fail _
  · split
    · exact consuming_close
    · exact consuming_readName b
  · split
    · exact consuming_close
    · split
      · exact consuming_bind_right forward_nextByte fun _ =>
          consuming_bind_right forward_expectMore consuming_readName
      · exact consuming_fail _
  · split
    · exact consuming_bind_right forward_nextByte fun _ =>
        consuming_bind_right (forward_setScope _) fun _ =>
          consuming_bind_right forward_expectMore consuming_readValue
    · exact consuming_fail _

theorem content_next_lt {x y : Lexer} {t : Token} (h : next x = .ok t y) (ht : t ≠ .endOfInput) :
    y.content.length < x.content.length := by
  obtain ⟨_, x₁, h₁, h⟩ := bind_eq_ok h
  obtain ⟨b, x₂, h₂, h⟩ := bind_eq_ok h
  have hle := Nat.le_trans (forward_peek.le_of_ok h₂) (forward_skipBlanks.le_of_ok h₁)
  cases b with
  | some b => exact Nat.lt_of_lt_of_le (consuming_readToken b x₂ t y h) hle
  | none =>
    obtain ⟨x₃, _, _, h⟩ := bind_eq_ok h
    revert h
    split
    · intro h; cases h; exact absurd rfl ht
    · intro h; cases h

instance : TokenSource Lexer where
  next := next
  remaining x := x.content.length
  remaining_lt := content_next_lt

end JsonWalk.Lexer
