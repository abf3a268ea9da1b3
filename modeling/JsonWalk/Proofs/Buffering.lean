import JsonWalk.Proofs.Accounting
import JsonWalk.Proofs.Scanning

/-!
# Readers in front of a lexer

Lexers with the same bytes to come do the same, be the bytes at hand or in a reader. If the reader
of one fails, that holds up to the bytes that it hands out, and the lexer fails behind them.
-/

namespace JsonWalk

/-- A request fails where the reader fails, hands on the failures behind it, and gets no bytes at
the end only. -/
theorem Input.of_request (more : Nat) (answers : List Delivery) :
    match request more answers with
    | none => .failure ∈ answers ∧ pendingBytes answers = []
    | some (bytes, rest) =>
      (.failure ∈ rest ↔ .failure ∈ answers) ∧ (bytes = [] → rest = []) := by
  fun_induction request more answers with
  | case1 => simp
  | case2 answers ih => simpa [pendingBytes] using ih
  | case3 => simp [pendingBytes]
  | case4 => simp
  | case5 => simp

theorem Input.of_fill (i : Input) :
    match i.fill with
    | none => .failure ∈ i.pending ∧ i.content = []
    | some j =>
      (.failure ∈ j.pending ↔ .failure ∈ i.pending) ∧ (j.buffer = [] → j.pending = []) := by
  obtain ⟨buffer, pending, capacity⟩ := i
  cases buffer with
  | cons b buffer => simp [fill]
  | nil =>
    have h := of_request (capacity - 1) pending
    simp only [fill]
    cases hr : request (capacity - 1) pending with
    | none => rwa [hr] at h
    | some answer => rwa [hr] at h

namespace Lexer

/-- The lexer `x` stands where `y` does. If its reader `fails`, it may have fewer bytes, and `y`
may fail then too. -/
structure Tracks (fails : Prop) (x y : Lexer) : Prop where
  offset_eq : x.offset = y.offset
  scopes_eq : x.scopes = y.scopes
  begun_eq : x.begun = y.begun
  failure_mem : .failure ∈ x.input.pending ↔ fails
  content_eq : ∃ rest, y.content = x.content ++ rest ∧
    (fails ∨ rest = [] ∧ .failure ∉ y.input.pending)

inductive Mirrors (fails : Prop) {α : Type} :
    EStateM.Result WalkError Lexer α → EStateM.Result WalkError Lexer α → Prop
  | ok (a : α) {x y : Lexer} : Tracks fails x y → Mirrors fails (.ok a x) (.ok a y)
  | error (e : WalkError) {x y : Lexer} : Tracks fails x y → Mirrors fails (.error e x) (.error e y)
  | failed (x : Lexer) (r : EStateM.Result WalkError Lexer α) : fails →
    Mirrors fails (.error .readFailed x) r

def Simulates {α : Type} (m : LexM α) : Prop :=
  ∀ fails x y, Tracks fails x y → Mirrors fails (m x) (m y)

section

variable {α β : Type} {fails : Prop} {x y : Lexer}

theorem simulates_pure (a : α) : Simulates (pure a : LexM α) := fun _ _ _ h => .ok a h

theorem simulates_throw (e : WalkError) : Simulates (throw e : LexM α) := fun _ _ _ h => .error e h

theorem Mirrors.bind {m : LexM α} {f : α → LexM β} (hm : Mirrors fails (m x) (m y))
    (hf : ∀ a, Simulates (f a)) : Mirrors fails ((m >>= f) x) ((m >>= f) y) := by
  simp only [Bind.bind, EStateM.bind]
  cases hx : m x with
  | ok a x' =>
    rw [hx] at hm
    generalize m y = r at hm
    cases hm with
    | ok _ h => exact hf a fails _ _ h
  | error e x' =>
    rw [hx] at hm
    generalize m y = r at hm
    cases hm with
    | error _ h => exact .error e h
    | failed _ _ h => exact .failed x' _ h

theorem simulates_bind {m : LexM α} {f : α → LexM β} (hm : Simulates m)
    (hf : ∀ a, Simulates (f a)) : Simulates (m >>= f) :=
  fun fails x y h => (hm fails x y h).bind hf

/-- What is read off the lexer must not depend on the reader. -/
theorem simulates_get_bind {f : Lexer → LexM β} (hf : ∀ x, Simulates (f x))
    (hcongr : ∀ fails x y, Tracks fails x y → f x = f y) : Simulates (get >>= f) := by
  intro fails x y h
  have hx : (get >>= f) x = f x x := rfl
  have hy : (get >>= f) y = f y y := rfl
  rw [hx, hy, hcongr fails x y h]
  exact hf y fails x y h

theorem simulates_fail (fault : TextFault) : Simulates (fail fault : LexM α) :=
  simulates_get_bind (fun _ => simulates_throw _) fun _ _ _ h => by rw [h.offset_eq]

theorem Tracks.setScopes (h : Tracks fails x y) (f : List Scope → List Scope) :
    Tracks fails { x with scopes := f x.scopes } { y with scopes := f y.scopes } :=
  ⟨h.offset_eq, congrArg f h.scopes_eq, h.begun_eq, h.failure_mem, h.content_eq⟩

theorem simulates_setScopes (f : List Scope → List Scope) :
    Simulates (modify fun x => { x with scopes := f x.scopes } : LexM Unit) :=
  fun _ _ _ h => .ok () (h.setScopes f)

theorem simulates_begin : Simulates (modify fun x => { x with begun := true } : LexM Unit) :=
  fun _ _ _ h => .ok () ⟨h.offset_eq, h.scopes_eq, rfl, h.failure_mem, h.content_eq⟩

/-! ### Bytes -/

/-- A look at the next byte leaves all as it is, and where it sees none the reader has ended. -/
theorem of_peek {b : Option UInt8} {x' : Lexer} (h : peek x = .ok b x') :
    (x'.scopes = x.scopes ∧ x'.begun = x.begun) ∧ b = x.content.head? ∧
      (.failure ∈ x'.input.pending ↔ .failure ∈ x.input.pending) ∧
      (b = none → .failure ∉ x.input.pending) := by
  have hfill := x.input.of_fill
  have hcontent := content_of_peek h
  rw [peek] at h
  cases hi : x.input.fill with
  | none =>
    rw [hi] at h
    cases h
  | some i =>
    rw [hi] at h hfill
    cases h
    obtain ⟨hfailure, hend⟩ := hfill
    refine ⟨⟨rfl, rfl⟩, ?_, hfailure, ?_⟩
    · rw [← hcontent, content, Input.content]
      cases hb : i.buffer with
      | cons c buffer => rfl
      | nil =>
        rw [hend hb]
        rfl
    · intro hb
      rw [← hfailure, hend (List.head?_eq_none_iff.1 hb)]
      exact List.not_mem_nil

theorem exhausted_of_peek_error {e : WalkError} {x' : Lexer} (h : peek x = .error e x') :
    .failure ∈ x.input.pending ∧ x.content = [] := by
  have hfill := x.input.of_fill
  rw [peek] at h
  cases hi : x.input.fill with
  | none => rwa [hi] at hfill
  | some i =>
    rw [hi] at h
    cases h

variable {b : UInt8} {x' y' : Lexer}

theorem Tracks.of_peek {b b' : Option UInt8} (h : Tracks fails x y) (hx : peek x = .ok b x')
    (hy : peek y = .ok b' y') : b = b' ∧ Tracks fails x' y' := by
  obtain ⟨rest, hcontent, hrest⟩ := h.content_eq
  obtain ⟨⟨hscopes, hbegun⟩, hb, hfailure, hnone⟩ := Lexer.of_peek hx
  obtain ⟨⟨hscopes', hbegun'⟩, hb', hfailure', -⟩ := Lexer.of_peek hy
  constructor
  · cases hc : x.content with
    | cons c t => rw [hb, hb', hcontent, hc, List.cons_append, List.head?_cons, List.head?_cons]
    | nil =>
      have hclean : ¬ fails := mt h.failure_mem.2 (hnone (hb.trans (congrArg _ hc)))
      rw [hb, hb', hcontent, (hrest.resolve_left hclean).1, List.append_nil]
  · refine ⟨?_, ?_, ?_, hfailure.trans h.failure_mem, rest, ?_, ?_⟩
    · rw [offset_of_peek hx, offset_of_peek hy, h.offset_eq]
    · rw [hscopes, hscopes', h.scopes_eq]
    · rw [hbegun, hbegun', h.begun_eq]
    · rw [content_of_peek hx, content_of_peek hy, hcontent]
    · rwa [hfailure']

theorem Tracks.advance (h : Tracks fails x y) (hx : peek x = .ok (some b) x')
    (hy : peek y = .ok (some b) y') : Tracks fails x'.advance y'.advance := by
  obtain ⟨-, h'⟩ := h.of_peek hx hy
  obtain ⟨rest, hcontent, hrest⟩ := h'.content_eq
  refine ⟨congrArg (· + 1) h'.offset_eq, h'.scopes_eq, h'.begun_eq, h'.failure_mem, rest, ?_, hrest⟩
  rw [content_of_peek hx, content_of_peek hy, ← content_advance_of_peek hx,
    ← content_advance_of_peek hy] at hcontent
  exact (List.cons.inj hcontent).2

theorem Tracks.peek (h : Tracks fails x y) :
    (peek x = .error .readFailed x ∧ fails) ∨
      ∃ b x' y', peek x = .ok b x' ∧ peek y = .ok b y' ∧ Tracks fails x' y' ∧
        (b.isSome → Tracks fails x'.advance y'.advance) := by
  cases hx : Lexer.peek x with
  | error e x' =>
    obtain ⟨rfl, rfl⟩ := of_peek_error hx
    exact .inl ⟨rfl, h.failure_mem.1 (exhausted_of_peek_error hx).1⟩
  | ok b x' =>
    obtain ⟨-, hb, -, hnone⟩ := Lexer.of_peek hx
    cases hy : Lexer.peek y with
    | error e y' =>
      -- where `y` fails there is no byte to see for `x`, so its reader has ended
      obtain ⟨hfailure, hempty⟩ := exhausted_of_peek_error hy
      obtain ⟨rest, hcontent, hrest⟩ := h.content_eq
      rw [hempty, eq_comm, List.append_eq_nil_iff] at hcontent
      have hclean : ¬ fails := mt h.failure_mem.2 (hnone (hb.trans (congrArg _ hcontent.1)))
      exact absurd hfailure (hrest.resolve_left hclean).2
    | ok b' y' =>
      obtain ⟨rfl, h'⟩ := h.of_peek hx hy
      refine .inr ⟨b, x', y', rfl, rfl, h', fun hsome => ?_⟩
      obtain ⟨c, rfl⟩ := Option.isSome_iff_exists.1 hsome
      exact h.advance hx hy

theorem simulates_peek : Simulates peek := by
  intro fails x y h
  rcases h.peek with ⟨hx, hf⟩ | ⟨b, x', y', hx, hy, hxy, -⟩
  · rw [hx]
    exact .failed x _ hf
  · rw [hx, hy]
    exact .ok b hxy

theorem simulates_nextByte : Simulates nextByte := by
  intro fails x y h
  rcases h.peek with ⟨hx, hf⟩ | ⟨b, x', y', hx, hy, hxy, hadvance⟩
  · rw [nextByte, bind_of_error hx]
    exact .failed x _ hf
  · rw [nextByte, bind_of_ok hx, bind_of_ok hy]
    cases b with
    | none => exact simulates_fail _ fails x' y' hxy
    | some b => exact .ok b (hadvance rfl)

theorem simulates_takeOnto {κ : Type} (step : κ → UInt8 → Option κ) (k : κ) (taken : List UInt8) :
    Simulates (takeOnto step k taken) := by
  intro fails x y h
  induction hn : y.content.length using Nat.strongRecOn generalizing k taken x y with
  | ind n ih =>
    rcases h.peek with ⟨hx, hf⟩ | ⟨b, x', y', hx, hy, hxy, hadvance⟩
    · rw [takeOnto_of_error hx]
      exact .failed x _ hf
    · cases b with
      | none =>
        rw [takeOnto_of_none hx, takeOnto_of_none hy]
        exact .ok _ hxy
      | some b =>
        rw [takeOnto_of_some hx, takeOnto_of_some hy]
        cases step k b with
        | none => exact .ok _ hxy
        | some k =>
          exact ih _ (hn ▸ length_advance_of_peek hy) k (b :: taken) _ _ (hadvance rfl) rfl

theorem simulates_takeRun {κ : Type} (step : κ → UInt8 → Option κ) (k : κ) :
    Simulates (takeRun step k) :=
  simulates_takeOnto step k []

/-! ### Tokens -/

theorem simulates_skipBlanks : Simulates skipBlanks :=
  simulates_bind (simulates_takeRun _ _) fun _ => simulates_pure _

theorem simulates_expectMore : Simulates expectMore := by
  apply simulates_bind simulates_skipBlanks
  intro _
  apply simulates_bind simulates_peek
  intro b
  cases b with
  | none => exact simulates_fail _
  | some b => exact simulates_pure _

theorem simulates_setScope (s : Scope) : Simulates (setScope s) := by
  intro fails x y h
  refine .ok () ⟨h.offset_eq, ?_, h.begun_eq, h.failure_mem, h.content_eq⟩
  dsimp only
  rw [h.scopes_eq]

theorem simulates_openScope (s : Scope) : Simulates (openScope s) :=
  simulates_bind simulates_nextByte fun _ => simulates_setScopes (s :: ·)

theorem simulates_close : Simulates close := by
  apply simulates_bind simulates_nextByte
  intro _
  refine simulates_get_bind (fun x => ?_) fun _ _ _ h => by rw [h.scopes_eq]
  apply simulates_bind (simulates_setScopes fun _ => x.scopes.tail)
  intro _
  split <;> exact simulates_pure _

theorem simulates_readWord (start : Nat) (word rest : List UInt8) :
    Simulates (readWord start word rest) := by
  induction rest with
  | nil => exact simulates_pure _
  | cons b rest ih =>
    apply simulates_bind simulates_nextByte
    intro c
    split
    · exact ih
    · exact simulates_throw _

theorem simulates_readLiteral (word : List UInt8) (token : Token) :
    Simulates (readLiteral word token) := by
  refine simulates_get_bind (fun x => ?_) fun _ _ _ h => by rw [h.offset_eq]
  exact simulates_bind (simulates_readWord _ _ _) fun _ => simulates_pure _

theorem simulates_readNumber : Simulates readNumber := by
  refine simulates_get_bind (fun x => ?_) fun _ _ _ h => by rw [h.offset_eq]
  apply simulates_bind (simulates_takeRun _ _)
  intro raw
  split
  · exact simulates_pure _
  · exact simulates_throw _

theorem simulates_readString : Simulates readString := by
  refine simulates_get_bind (fun x => ?_) fun _ _ _ h => by rw [h.offset_eq]
  refine simulates_bind simulates_nextByte fun _ => simulates_bind (simulates_takeRun _ _)
    fun raw => simulates_bind simulates_nextByte fun _ => ?_
  split
  · exact simulates_pure _
  · exact simulates_throw _

theorem simulates_readName (b : UInt8) : Simulates (readName b) := by
  unfold readName
  split
  · exact simulates_bind simulates_readString fun _ =>
      simulates_bind (simulates_setScope _) fun _ => simulates_pure _
  · exact simulates_fail _

theorem simulates_readValue (b : UInt8) : Simulates (readValue b) := by
  unfold readValue
  repeat' split
  · exact simulates_bind (simulates_openScope _) fun _ => simulates_pure _
  · exact simulates_bind (simulates_openScope _) fun _ => simulates_pure _
  · exact simulates_bind simulates_readString fun _ => simulates_pure _
  · exact simulates_readLiteral _ _
  · exact simulates_readLiteral _ _
  · exact simulates_readLiteral _ _
  · exact simulates_readNumber
  · exact simulates_fail _

theorem simulates_readToken (b : UInt8) : Simulates (readToken b) := by
  refine simulates_get_bind (fun x => ?_) fun _ _ _ h => by rw [h.scopes_eq, h.begun_eq]
  split
  · split
    · exact simulates_fail _
    · exact simulates_bind simulates_begin fun _ => simulates_readValue b
  · split
    · exact simulates_close
    · exact simulates_bind (simulates_setScope _) fun _ => simulates_readValue b
  · split
    · exact simulates_close
    · split
      · exact simulates_bind simulates_nextByte fun _ =>
          simulates_bind simulates_expectMore simulates_readValue
      · exact simulates_fail _
  · split
    · exact simulates_close
    · exact simulates_readName b
  · split
    · exact simulates_close
    · split
      · exact simulates_bind simulates_nextByte fun _ =>
          simulates_bind simulates_expectMore simulates_readName
      · exact simulates_fail _
  · split
    · exact simulates_bind simulates_nextByte fun _ =>
        simulates_bind (simulates_setScope _) fun _ =>
          simulates_bind simulates_expectMore simulates_readValue
    · exact simulates_fail _

theorem simulates_next : Simulates next := by
  apply simulates_bind simulates_skipBlanks
  intro _
  apply simulates_bind simulates_peek
  intro b
  cases b with
  | some b => exact simulates_readToken b
  | none =>
    refine simulates_get_bind (fun x => ?_) fun _ _ _ h => by rw [h.scopes_eq]
    split
    · exact simulates_pure _
    · exact simulates_fail _

end

/-! ### Documents -/

open TokenSource (Hands Spells)

variable {fails : Prop} {x y z : Lexer} {ts : List Token} {answers : List Delivery}

/-- A lexer in front of a reader stands at the beginning of the bytes that the reader hands out. -/
theorem tracks_ofReader (capacity : Nat) (answers : List Delivery) :
    Tracks (.failure ∈ answers) (ofInput (.ofReader capacity answers))
      (ofBytes (Input.pendingBytes answers)) :=
  ⟨rfl, rfl, rfl, .rfl, [], rfl, .inr ⟨rfl, List.not_mem_nil⟩⟩

theorem Tracks.next_eq_ok (h : Tracks fails x y) (hf : ¬ fails) {t : Token}
    (hy : next y = .ok t z) : ∃ x', next x = .ok t x' ∧ Tracks fails x' z := by
  have hm := simulates_next fails x y h
  rw [hy] at hm
  generalize hx : next x = r at hm
  cases hm with
  | ok _ h => exact ⟨_, rfl, h⟩
  | failed _ _ h => exact absurd h hf

theorem Tracks.hands (h : Tracks fails x y) (hf : ¬ fails) (hy : Hands y ts z) :
    ∃ x', Hands x ts x' ∧ Tracks fails x' z := by
  induction hy generalizing x with
  | nil => exact ⟨x, .nil x, h⟩
  | cons hnext hend _ ih =>
    obtain ⟨x₁, hx, h₁⟩ := h.next_eq_ok hf hnext
    obtain ⟨x', hx', h'⟩ := ih h₁
    exact ⟨x', .cons hx hend hx', h'⟩

theorem exists_spells_ofReader {v : Value} (capacity : Nat) (hf : .failure ∉ answers)
    (h : Spells (ofBytes (Input.pendingBytes answers)) v z) :
    ∃ z', Spells (ofInput (.ofReader capacity answers)) v z' := by
  obtain ⟨y, hy, hz⟩ := h
  obtain ⟨x, hx, htracks⟩ := (tracks_ofReader capacity answers).hands hf hy
  obtain ⟨z', hz', -⟩ := htracks.next_eq_ok hf hz
  exact ⟨z', x, hx, hz'⟩

end Lexer
end JsonWalk
