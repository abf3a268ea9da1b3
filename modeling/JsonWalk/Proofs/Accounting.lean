import JsonWalk.Proofs.Feeding

/-!
# Offsets account for bytes

Whatever the lexer does, its offset rises by the bytes that it takes and by nothing else. Where it
fails, the reader has failed or there is a fault in the text between where it began and where it
stands.
-/

namespace JsonWalk.Lexer

/-- The length of the text, read or not. -/
def extent (x : Lexer) : Nat := x.offset + x.content.length

def FailsWithin (first last : Nat) (e : WalkError) : Prop :=
  e = .readFailed ∨ ∃ offset fault, e = .malformed offset fault ∧ first ≤ offset ∧ offset ≤ last

theorem FailsWithin.mono {first first' last : Nat} {e : WalkError} (h : FailsWithin first last e)
    (hle : first' ≤ first) : FailsWithin first' last e := by
  rcases h with rfl | ⟨offset, fault, rfl, hfirst, hlast⟩
  · exact .inl rfl
  · exact .inr ⟨offset, fault, rfl, Nat.le_trans hle hfirst, hlast⟩

/-- What an action that began at `x` has come to: its offset counts the bytes that it has taken, and
no fault lies before `first`. -/
structure Accounted {α : Type} (first : Nat) (x : Lexer) (r : EStateM.Result WalkError Lexer α) :
    Prop where
  offset_le : x.offset ≤ (after r).offset
  extent_eq : (after r).extent = x.extent
  failsWithin {e : WalkError} {y : Lexer} : r = .error e y → FailsWithin first y.offset e

def Accounts {α : Type} (first : Nat) (m : LexM α) : Prop :=
  ∀ x, first ≤ x.offset → Accounted first x (m x)

section

variable {α β : Type} {first : Nat} {m : LexM α} {f : α → LexM β}

theorem accounts_pure (a : α) : Accounts first (pure a : LexM α) :=
  fun _ _ => ⟨Nat.le_refl _, rfl, nofun⟩

theorem accounts_throw (fault : TextFault) :
    Accounts first (throw (.malformed first fault) : LexM α) := by
  refine fun x hle => ⟨Nat.le_refl _, rfl, ?_⟩
  rintro _ _ ⟨⟩
  exact .inr ⟨first, fault, rfl, Nat.le_refl _, hle⟩

theorem accounts_modify {f : Lexer → Lexer}
    (h : ∀ x, (f x).offset = x.offset ∧ (f x).content = x.content) :
    Accounts first (modify f : LexM Unit) := by
  refine fun x _ => ⟨Nat.le_of_eq (h x).1.symm, ?_, nofun⟩
  have hafter : after ((modify f : LexM Unit) x) = f x := rfl
  rw [hafter, extent, (h x).1, (h x).2, extent]

theorem Accounted.bind {x : Lexer} (hm : Accounted first x (m x))
    (hf : ∀ a y, m x = .ok a y → Accounted first y (f a y)) :
    Accounted first x ((m >>= f) x) := by
  obtain ⟨hoffset, hextent, hfails⟩ := hm
  cases hx : m x with
  | error e y =>
    rw [hx] at hoffset hextent
    rw [bind_of_error hx]
    refine ⟨hoffset, hextent, ?_⟩
    rintro _ _ ⟨⟩
    exact hfails hx
  | ok a y =>
    rw [hx] at hoffset hextent
    rw [bind_of_ok hx]
    obtain ⟨hoffset', hextent', hfails'⟩ := hf a y hx
    exact ⟨Nat.le_trans hoffset hoffset', hextent'.trans hextent, hfails'⟩

theorem Accounts.bind (hm : Accounts first m) (hf : ∀ a, Accounts first (f a)) :
    Accounts first (m >>= f) := by
  refine fun x hle => (hm x hle).bind fun a y hy => hf a y ?_
  have hoffset := (hm x hle).offset_le
  rw [hy] at hoffset
  exact Nat.le_trans hle hoffset

theorem accounts_get_bind {f : Lexer → LexM β} (hf : ∀ x, Accounts x.offset (f x)) :
    Accounts first (get >>= f) := by
  intro x hle
  obtain ⟨hoffset, hextent, hfails⟩ := hf x x (Nat.le_refl _)
  exact ⟨hoffset, hextent, fun h => (hfails h).mono hle⟩

theorem accounts_fail (fault : TextFault) : Accounts first (fail fault : LexM α) :=
  accounts_get_bind fun _ => accounts_throw _

end

/-! ### The actions of the lexer -/

variable {first : Nat}

theorem offset_of_peek {x y : Lexer} {b : Option UInt8} (h : peek x = .ok b y) :
    y.offset = x.offset := by
  unfold peek at h
  split at h
  · cases h
    rfl
  · cases h

theorem of_peek_error {x y : Lexer} {e : WalkError} (h : peek x = .error e y) :
    e = .readFailed ∧ y = x := by
  unfold peek at h
  split at h
  · cases h
  · cases h
    exact ⟨rfl, rfl⟩

theorem extent_of_peek {x y : Lexer} {b : Option UInt8} (h : peek x = .ok b y) :
    y.extent = x.extent := by
  rw [extent, offset_of_peek h, content_of_peek h, extent]

theorem advance_of_peek {x y : Lexer} {b : UInt8} (h : peek x = .ok (some b) y) :
    y.advance.offset = x.offset + 1 ∧ y.advance.extent = x.extent := by
  have hoffset : y.advance.offset = x.offset + 1 := congrArg (· + 1) (offset_of_peek h)
  have hcontent := congrArg List.length (content_advance_of_peek h)
  rw [List.length_cons] at hcontent
  refine ⟨hoffset, ?_⟩
  rw [extent, extent, hoffset, ← hcontent]
  omega

theorem accounted_of_peek {α : Type} {x y : Lexer} {b : Option UInt8} (h : peek x = .ok b y)
    (a : α) : Accounted first x (.ok a y) :=
  ⟨Nat.le_of_eq (offset_of_peek h).symm, extent_of_peek h, nofun⟩

theorem accounted_of_peek_error {α : Type} {x y : Lexer} {e : WalkError} (h : peek x = .error e y) :
    Accounted first x (.error e y : EStateM.Result WalkError Lexer α) := by
  obtain ⟨rfl, rfl⟩ := of_peek_error h
  refine ⟨Nat.le_refl _, rfl, ?_⟩
  rintro _ _ ⟨⟩
  exact .inl rfl

theorem accounts_peek : Accounts first peek := by
  intro x _
  cases h : peek x with
  | ok b y => exact accounted_of_peek h b
  | error e y => exact accounted_of_peek_error h

theorem accounts_nextByte : Accounts first nextByte := by
  refine fun x hle => (accounts_peek x hle).bind fun b y h => ?_
  cases b with
  | none => exact accounts_fail _ y (Nat.le_trans hle (Nat.le_of_eq (offset_of_peek h).symm))
  | some b =>
    have hextent := (advance_of_peek h).2.trans (extent_of_peek h).symm
    exact ⟨Nat.le_succ _, hextent, nofun⟩

theorem accounts_takeOnto {κ : Type} (step : κ → UInt8 → Option κ) (k : κ) (taken : List UInt8) :
    Accounts first (takeOnto step k taken) := by
  intro x hle
  fun_induction takeOnto step k taken x with
  | case1 _ _ x e y h => exact accounted_of_peek_error h
  | case2 _ _ x y h => exact accounted_of_peek h _
  | case3 _ _ x b y h => exact accounted_of_peek h _
  | case4 k taken x b y h k' hk ih =>
    obtain ⟨hoffset, hextent⟩ := advance_of_peek h
    obtain ⟨hoffset', hextent', hfails'⟩ := ih (by omega)
    exact ⟨by omega, hextent'.trans hextent, hfails'⟩

theorem accounts_takeRun {κ : Type} (step : κ → UInt8 → Option κ) (k : κ) :
    Accounts first (takeRun step k) :=
  accounts_takeOnto step k []

theorem accounts_skipBlanks : Accounts first skipBlanks :=
  (accounts_takeRun _ _).bind fun _ => accounts_pure _

theorem accounts_expectMore : Accounts first expectMore := by
  refine accounts_skipBlanks.bind fun _ => accounts_peek.bind fun b => ?_
  cases b with
  | none => exact accounts_fail _
  | some b => exact accounts_pure _

theorem accounts_setScope (s : Scope) : Accounts first (setScope s) :=
  accounts_modify fun _ => ⟨rfl, rfl⟩

theorem accounts_openScope (s : Scope) : Accounts first (openScope s) :=
  accounts_nextByte.bind fun _ => accounts_modify fun _ => ⟨rfl, rfl⟩

theorem accounts_close : Accounts first close := by
  refine accounts_nextByte.bind fun _ => accounts_get_bind fun x =>
    Accounts.bind (accounts_modify fun _ => ⟨rfl, rfl⟩) fun _ => ?_
  split <;> exact accounts_pure _

theorem accounts_readWord (word rest : List UInt8) : Accounts first (readWord first word rest) := by
  induction rest with
  | nil => exact accounts_pure _
  | cons b rest ih =>
    refine accounts_nextByte.bind fun c => ?_
    split
    · exact ih
    · exact accounts_throw _

theorem accounts_readLiteral (word : List UInt8) (token : Token) :
    Accounts first (readLiteral word token) :=
  accounts_get_bind fun _ => (accounts_readWord _ _).bind fun _ => accounts_pure _

theorem accounts_readNumber : Accounts first readNumber := by
  refine accounts_get_bind fun x => (accounts_takeRun _ _).bind fun raw => ?_
  split
  · exact accounts_pure _
  · exact accounts_throw _

theorem accounts_readString : Accounts first readString := by
  refine accounts_get_bind fun x => accounts_nextByte.bind fun _ =>
    (accounts_takeRun _ _).bind fun raw => accounts_nextByte.bind fun _ => ?_
  split
  · exact accounts_pure _
  · exact accounts_throw _

theorem accounts_readName (b : UInt8) : Accounts first (readName b) := by
  unfold readName
  split
  · exact accounts_readString.bind fun _ => (accounts_setScope _).bind fun _ => accounts_pure _
  · exact accounts_fail _

theorem accounts_readValue (b : UInt8) : Accounts first (readValue b) := by
  unfold readValue
  repeat' split
  · exact (accounts_openScope _).bind fun _ => accounts_pure _
  · exact (accounts_openScope _).bind fun _ => accounts_pure _
  · exact accounts_readString.bind fun _ => accounts_pure _
  · exact accounts_readLiteral _ _
  · exact accounts_readLiteral _ _
  · exact accounts_readLiteral _ _
  · exact accounts_readNumber
  · exact accounts_fail _

theorem accounts_readToken (b : UInt8) : Accounts first (readToken b) := by
  refine accounts_get_bind fun x => ?_
  split
  · split
    · exact accounts_fail _
    · exact Accounts.bind (accounts_modify fun _ => ⟨rfl, rfl⟩) fun _ => accounts_readValue b
  · split
    · exact accounts_close
    · exact (accounts_setScope _).bind fun _ => accounts_readValue b
  · split
    · exact accounts_close
    · split
      · exact accounts_nextByte.bind fun _ => accounts_expectMore.bind accounts_readValue
      · exact accounts_fail _
  · split
    · exact accounts_close
    · exact accounts_readName b
  · split
    · exact accounts_close
    · split
      · exact accounts_nextByte.bind fun _ => accounts_expectMore.bind accounts_readName
      · exact accounts_fail _
  · split
    · exact accounts_nextByte.bind fun _ =>
        (accounts_setScope _).bind fun _ => accounts_expectMore.bind accounts_readValue
    · exact accounts_fail _

theorem accounts_next : Accounts first next := by
  refine accounts_skipBlanks.bind fun _ => accounts_peek.bind fun b => ?_
  cases b with
  | some b => exact accounts_readToken b
  | none =>
    refine accounts_get_bind fun x => ?_
    split
    · exact accounts_pure _
    · exact accounts_fail _

theorem accounted_next (x : Lexer) : Accounted x.offset x (next x) :=
  accounts_next x (Nat.le_refl _)

end JsonWalk.Lexer
