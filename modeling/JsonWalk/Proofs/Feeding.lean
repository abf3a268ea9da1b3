import JsonWalk.StreamWalk

/-!
# Runs of an assembly, token by token

`Hands` says which tokens a source hands out before it stops, and `feedAll` what an assembly makes
of them. A run over a source is then the feeding of what the source hands out, followed by what
stopped it.
-/

namespace JsonWalk

section

variable {ε σ α β : Type} {m : EStateM ε σ α} {f : α → EStateM ε σ β} {s u : σ}

theorem bind_of_ok {a : α} {t : σ} (h : m s = .ok a t) : (m >>= f) s = f a t := by
  simp only [bind, EStateM.bind, h]

theorem bind_of_error {e : ε} {t : σ} (h : m s = .error e t) : (m >>= f) s = .error e t := by
  simp only [bind, EStateM.bind, h]

theorem bind_eq_ok_iff {b : β} :
    (m >>= f) s = .ok b u ↔ ∃ a t, m s = .ok a t ∧ f a t = .ok b u := by
  simp only [bind, EStateM.bind]
  cases m s <;> simp [and_assoc]

theorem bind_eq_error_iff {e : ε} :
    (m >>= f) s = .error e u ↔ m s = .error e u ∨ ∃ a t, m s = .ok a t ∧ f a t = .error e u := by
  simp only [bind, EStateM.bind]
  cases m s <;> simp [and_assoc]

end

variable {τ σ : Type}

/-- The source `x` hands out the tokens `ts`, none of them the end of the input, and is `y` then. -/
inductive TokenSource.Hands [TokenSource τ] : τ → List Token → τ → Prop
  | nil (x : τ) : Hands x [] x
  | cons {x y z : τ} {t : Token} {ts : List Token} :
    TokenSource.next x = .ok t y → t ≠ .endOfInput → Hands y ts z → Hands x (t :: ts) z

/-- The source hands out the document and the end of the input, and is `z` then. -/
def TokenSource.Spells [TokenSource τ] (x : τ) (v : Value) (z : τ) : Prop :=
  ∃ y, Hands x v.tokens y ∧ TokenSource.next y = .ok .endOfInput z

namespace TokenSource

variable [TokenSource τ]

theorem Hands.endOfInput_notMem {x y : τ} {ts : List Token} (h : Hands x ts y) :
    Token.endOfInput ∉ ts := by
  induction h with
  | nil => exact List.not_mem_nil
  | cons _ ht _ ih => simpa only [List.mem_cons, not_or] using ⟨ht.symm, ih⟩

theorem Hands.length_add_remaining_le {x y : τ} {ts : List Token} (h : Hands x ts y) :
    ts.length + TokenSource.remaining y ≤ TokenSource.remaining x := by
  induction h with
  | nil => simp
  | cons hn ht _ ih =>
    have := TokenSource.remaining_lt hn ht
    simp only [List.length_cons]
    omega

/-- A source stops after finitely many tokens, at the end of its input or by a failure. -/
theorem exists_hands (x : τ) : ∃ ts y, Hands x ts y ∧
    ((∃ z, TokenSource.next y = .ok .endOfInput z) ∨ ∃ e z, TokenSource.next y = .error e z) := by
  induction hn : TokenSource.remaining x using Nat.strongRecOn generalizing x with
  | ind n ih =>
    cases hx : TokenSource.next x with
    | error e z => exact ⟨[], x, .nil x, .inr ⟨e, z, hx⟩⟩
    | ok t y =>
      by_cases ht : t = .endOfInput
      · exact ⟨[], x, .nil x, .inl ⟨y, ht ▸ hx⟩⟩
      · obtain ⟨ts, z, hz, hstop⟩ := ih _ (hn ▸ TokenSource.remaining_lt hx ht) y rfl
        exact ⟨t :: ts, z, .cons hx ht hz, hstop⟩

/-! ### The loop -/

section

variable {κ α : Type} {feed : Token → EStateM WalkError κ Unit} {finish : κ → Except WalkError α}
  {k j : κ} {x y : τ} {t : Token} {e : WalkError}

theorem run_of_failed (h : next x = .error e y) : run feed finish k x = (.error e, k, y) := by
  rw [run]
  split
  · next h' =>
    cases h.symm.trans h'
    rfl
  · next h' => cases h.symm.trans h'

theorem run_of_taken (h : next x = .ok t y) :
    run feed finish k x =
      if t = .endOfInput then (finish k, k, y)
      else
        match feed t k with
        | .error e k => (.error e, k, y)
        | .ok _ k => run feed finish k y := by
  rw [run]
  split
  · next h' => cases h.symm.trans h'
  · next h' =>
    cases h.symm.trans h'
    rfl

theorem run_of_endOfInput (h : next x = .ok .endOfInput y) :
    run feed finish k x = (finish k, k, y) := by
  rw [run_of_taken h, if_pos rfl]

theorem run_of_fed (h : next x = .ok t y) (ht : t ≠ .endOfInput) (hf : feed t k = .ok () j) :
    run feed finish k x = run feed finish j y := by
  rw [run_of_taken h, if_neg ht, hf]

theorem run_of_refused (h : next x = .ok t y) (ht : t ≠ .endOfInput)
    (hf : feed t k = .error e j) : run feed finish k x = (.error e, j, y) := by
  rw [run_of_taken h, if_neg ht, hf]

end

/-- Both results have the same value and states in `R`, or the same error and states in `S`. -/
inductive Alike {ε α κ κ' : Type} (R S : κ → κ' → Prop) :
    EStateM.Result ε κ α → EStateM.Result ε κ' α → Prop
  | ok (a : α) {k : κ} {k' : κ'} : R k k' → Alike R S (.ok a k) (.ok a k')
  | error (e : ε) {k : κ} {k' : κ'} : S k k' → Alike R S (.error e k) (.error e k')

theorem alike_next (x x' : τ) (h : x = x') : Alike Eq Eq (next x) (next x') := by
  subst h
  cases next x with
  | ok t y => exact .ok t rfl
  | error e y => exact .error e rfl

/-- If every token is taken alike, then so are all. -/
theorem run_alike {τ' κ κ' α α' γ : Type} [TokenSource τ'] {Q : τ → τ' → Prop}
    {R S : κ → κ' → Prop} {feed : Token → EStateM WalkError κ Unit}
    {feed' : Token → EStateM WalkError κ' Unit} {finish : κ → Except WalkError α}
    {finish' : κ' → Except WalkError α'} {f : α → γ} {f' : α' → γ}
    (hnext : ∀ x x', Q x x' → Alike Q Q (next x) (next x'))
    (hfeed : ∀ t k k', R k k' → Alike R S (feed t k) (feed' t k'))
    (hfinish : ∀ k k', R k k' → (finish k).map f = (finish' k').map f')
    (hstop : ∀ k k', R k k' → S k k') {k : κ} {k' : κ'} (hk : R k k') {x : τ} {x' : τ'}
    (hx : Q x x') :
    let e := run feed finish k x
    let e' := run feed' finish' k' x'
    e.1.map f = e'.1.map f' ∧ S e.2.1 e'.2.1 ∧ Q e.2.2 e'.2.2 := by
  induction hn : remaining x using Nat.strongRecOn generalizing x x' k k' with
  | ind n ih =>
    have hxs := hnext x x' hx
    cases hy : next x with
    | error e y =>
      rw [hy] at hxs
      generalize hy' : next x' = r at hxs
      cases hxs with
      | error _ hys =>
        rw [run_of_failed hy, run_of_failed hy']
        exact ⟨rfl, hstop k k' hk, hys⟩
    | ok t y =>
      rw [hy] at hxs
      generalize hy' : next x' = r at hxs
      cases hxs with
      | ok _ hys =>
        by_cases ht : t = .endOfInput
        · subst ht
          rw [run_of_endOfInput hy, run_of_endOfInput hy']
          exact ⟨hfinish k k' hk, hstop k k' hk, hys⟩
        · have hks := hfeed t k k' hk
          generalize hj : feed t k = r at hks
          generalize hj' : feed' t k' = r' at hks
          cases hks with
          | ok _ hjs =>
            rw [run_of_fed hy ht hj, run_of_fed hy' ht hj']
            exact ih _ (hn ▸ remaining_lt hy ht) hjs hys rfl
          | error _ hjs =>
            rw [run_of_refused hy ht hj, run_of_refused hy' ht hj']
            exact ⟨rfl, hjs, hys⟩

end TokenSource

namespace AssemblyM

/-- A step of an assembly, as an action on the listener's state that gives the assembly behind it. A
failure leaves no assembly. -/
def on (m : AssemblyM σ Unit) (a : Assembly) : EStateM WalkError σ Assembly := fun s =>
  match m (a, s) with
  | .ok _ (a, s) => .ok a s
  | .error e (_, s) => .error e s

theorem on_eq_ok_iff {m : AssemblyM σ Unit} {a b : Assembly} {s u : σ} :
    m.on a s = .ok b u ↔ m (a, s) = .ok () (b, u) := by
  rw [on]
  cases m (a, s) <;> simp [Prod.ext_iff]

theorem on_eq_error_iff {m : AssemblyM σ Unit} {a : Assembly} {s u : σ} {e : WalkError} :
    m.on a s = .error e u ↔ ∃ left, m (a, s) = .error e (left, u) := by
  rw [on]
  cases m (a, s) <;> simp [Prod.ext_iff]

def feedAll (l : Listener σ) (limit : Nat) : List Token → Assembly → EStateM WalkError σ Assembly
  | [], a => pure a
  | t :: ts, a => do feedAll l limit ts (← (feed l limit t).on a)

@[simp] theorem feedAll_nil (l : Listener σ) (limit : Nat) (a : Assembly) :
    feedAll l limit [] a = pure a := rfl

theorem feedAll_cons (l : Listener σ) (limit : Nat) (t : Token) (ts : List Token) (a : Assembly) :
    feedAll l limit (t :: ts) a = (feed l limit t).on a >>= feedAll l limit ts := rfl

@[simp] theorem feedAll_singleton (l : Listener σ) (limit : Nat) (t : Token) :
    feedAll l limit [t] = (feed l limit t).on := by
  funext a
  rw [feedAll_cons]
  exact bind_pure _

theorem feedAll_append (l : Listener σ) (limit : Nat) (ts us : List Token) (a : Assembly) :
    feedAll l limit (ts ++ us) a = feedAll l limit ts a >>= feedAll l limit us := by
  induction ts generalizing a with
  | nil => simp
  | cons t ts ih =>
    rw [List.cons_append, feedAll_cons, feedAll_cons, bind_assoc]
    exact bind_congr fun b => ih b

end AssemblyM

def StreamEnd.outcome (e : StreamEnd τ σ) : Except WalkError Value × σ := (e.result, e.state)

namespace Assembly

variable [TokenSource τ] {l : Listener σ} {limit : Nat} {a a' : Assembly} {s s' : σ} {x y z : τ}

theorem run_of_failed {e : WalkError} (h : TokenSource.next x = .error e y) :
    run l limit a s x = ⟨.error e, s, a, y⟩ := by
  rw [run, TokenSource.run_of_failed h]

theorem run_of_endOfInput (h : TokenSource.next x = .ok .endOfInput y) :
    run l limit a s x = ⟨a.finish, s, a, y⟩ := by
  rw [run, TokenSource.run_of_endOfInput h]

theorem run_of_fed {t : Token} (h : TokenSource.next x = .ok t y) (ht : t ≠ .endOfInput)
    (hf : (AssemblyM.feed l limit t).on a s = .ok a' s') :
    run l limit a s x = run l limit a' s' y := by
  rw [run, TokenSource.run_of_fed h ht (AssemblyM.on_eq_ok_iff.1 hf), run]

theorem run_of_refused {t : Token} {e : WalkError} (h : TokenSource.next x = .ok t y)
    (ht : t ≠ .endOfInput) (hf : (AssemblyM.feed l limit t).on a s = .error e s') :
    ∃ left, run l limit a s x = ⟨.error e, s', left, y⟩ := by
  obtain ⟨left, hleft⟩ := AssemblyM.on_eq_error_iff.1 hf
  exact ⟨left, by rw [run, TokenSource.run_of_refused h ht hleft]⟩

open TokenSource (Hands)

theorem run_of_hands {ts : List Token} (h : Hands x ts y)
    (hf : AssemblyM.feedAll l limit ts a s = .ok a' s') :
    run l limit a s x = run l limit a' s' y := by
  induction h generalizing a s with
  | nil => cases hf; rfl
  | cons hn ht _ ih =>
    rw [AssemblyM.feedAll_cons] at hf
    obtain ⟨b, u, hb, hf⟩ := bind_eq_ok_iff.1 hf
    rw [run_of_fed hn ht hb, ih hf]

theorem run_of_hands_error {ts : List Token} {e : WalkError} (h : Hands x ts y)
    (hf : AssemblyM.feedAll l limit ts a s = .error e s') :
    ∃ us t b u left z, Hands x (us ++ [t]) z ∧
      AssemblyM.feedAll l limit us a s = .ok b u ∧
      (AssemblyM.feed l limit t).on b u = .error e s' ∧
      run l limit a s x = ⟨.error e, s', left, z⟩ := by
  induction h generalizing a s with
  | nil => cases hf
  | @cons x y _ t ts hn ht _ ih =>
    rw [AssemblyM.feedAll_cons] at hf
    rcases bind_eq_error_iff.1 hf with hb | ⟨b, u, hb, hf⟩
    · obtain ⟨left, hrun⟩ := run_of_refused hn ht hb
      exact ⟨[], t, a, s, left, y, .cons hn ht (.nil y), rfl, hb, hrun⟩
    · obtain ⟨us, t', c, u', left, z, hz, hus, ht', hrun⟩ := ih hf
      refine ⟨t :: us, t', c, u', left, z, .cons hn ht hz, ?_, ht', run_of_fed hn ht hb ▸ hrun⟩
      exact bind_eq_ok_iff.2 ⟨b, u, hb, hus⟩

/-- How a run over a source can end: at a token that is refused, at the end of the input, or where
the source fails. -/
inductive Concludes (l : Listener σ) (limit : Nat) (a : Assembly) (s : σ) (x : τ) :
    StreamEnd τ σ → Prop
  | refused {ts : List Token} {y z : τ} {e : WalkError} {s' : σ} {left : Assembly} : Hands x ts y →
    AssemblyM.feedAll l limit ts a s = .error e s' →
    Concludes l limit a s x ⟨.error e, s', left, z⟩
  | ended {ts : List Token} {y z : τ} {a' : Assembly} {s' : σ} : Hands x ts y →
    AssemblyM.feedAll l limit ts a s = .ok a' s' → TokenSource.next y = .ok .endOfInput z →
    Concludes l limit a s x ⟨a'.finish, s', a', z⟩
  | failed {ts : List Token} {y z : τ} {a' : Assembly} {s' : σ} {e : WalkError} : Hands x ts y →
    AssemblyM.feedAll l limit ts a s = .ok a' s' → TokenSource.next y = .error e z →
    Concludes l limit a s x ⟨.error e, s', a', z⟩

theorem concludes_run (l : Listener σ) (limit : Nat) (a : Assembly) (s : σ) (x : τ) :
    Concludes l limit a s x (run l limit a s x) := by
  obtain ⟨ts, y, hts, hstop⟩ := TokenSource.exists_hands x
  cases hfeed : AssemblyM.feedAll l limit ts a s with
  | error e s' =>
    obtain ⟨_, _, _, _, left, z, _, _, _, hrun⟩ := run_of_hands_error hts hfeed
    rw [hrun]
    exact .refused hts hfeed
  | ok a' s' =>
    rw [run_of_hands hts hfeed]
    rcases hstop with ⟨z, hz⟩ | ⟨e, z, hz⟩
    · rw [run_of_endOfInput hz]
      exact .ended hts hfeed hz
    · rw [run_of_failed hz]
      exact .failed hts hfeed hz

theorem outcome_run_of_hands {ts : List Token} (h : Hands x ts y)
    (hend : TokenSource.next y = .ok .endOfInput z) :
    (run l limit a s x).outcome = match AssemblyM.feedAll l limit ts a s with
      | .ok a' s' => (a'.finish, s')
      | .error e s' => (.error e, s') := by
  cases hf : AssemblyM.feedAll l limit ts a s with
  | ok a' s' => rw [run_of_hands h hf, run_of_endOfInput hend, StreamEnd.outcome]
  | error e s' =>
    obtain ⟨_, _, _, _, left, _, _, _, _, hrun⟩ := run_of_hands_error h hf
    rw [hrun, StreamEnd.outcome]

end Assembly
end JsonWalk
