import JsonWalk.Proofs.Outline
import JsonWalk.Query

/-!
# Walks that end alike

Listeners that never fail have no say in how a walk over tokens ends: whether there is a document,
which error there is else, and how many tokens have been taken by then. So it does not depend on
the pattern, the limit or the predicate whether a query over a text fails.
-/

namespace JsonWalk

variable {τ σ σ' : Type}

structure TokenSource.Counted (τ : Type) where
  source : τ
  count : Nat := 0

namespace TokenSource

open Counted in
instance [TokenSource τ] : TokenSource (Counted τ) where
  next x :=
    match TokenSource.next x.source with
    | .ok t y => .ok t ⟨y, x.count + 1⟩
    | .error e y => .error e ⟨y, x.count⟩
  remaining x := TokenSource.remaining x.source
  remaining_lt {x y t} h ht := by
    cases hx : TokenSource.next x.source with
    | ok u z =>
      simp only [hx] at h
      cases h
      exact TokenSource.remaining_lt hx ht
    | error e z =>
      simp only [hx] at h
      cases h

section

variable [TokenSource τ] {x y : τ} {count : Nat}

theorem alike_next_counted (x : Counted τ) (y : τ) (h : x.source = y) :
    Alike (·.source = ·) (·.source = ·) (next x) (next y) := by
  subst h
  cases hx : next x.source with
  | ok t y =>
    have hcounted : next x = .ok t ⟨y, x.count + 1⟩ := by simp only [next, hx]
    rw [hcounted]
    exact .ok t rfl
  | error e y =>
    have hcounted : next x = .error e ⟨y, x.count⟩ := by simp only [next, hx]
    rw [hcounted]
    exact .error e rfl

end
end TokenSource

open TokenSource (Counted)

theorem Assembly.run_counted [TokenSource τ] (l : Listener σ) (limit : Nat) (a : Assembly) (s : σ)
    (x : τ) (count : Nat) :
    let e := run l limit a s (⟨x, count⟩ : Counted τ)
    e.result = (run l limit a s x).result ∧ e.state = (run l limit a s x).state ∧
      e.source.source = (run l limit a s x).source := by
  have hfeed (t : Token) (k k' : Assembly × σ) (h : k = k') :
      TokenSource.Alike Eq Eq (AssemblyM.feed l limit t k) (AssemblyM.feed l limit t k') := by
    subst h
    cases AssemblyM.feed l limit t k with
    | ok _ _ => exact .ok _ rfl
    | error e _ => exact .error e rfl
  have hfinish (k k' : Assembly × σ) (h : k = k') : k.1.finish.map id = k'.1.finish.map id :=
    h ▸ rfl
  obtain ⟨hresult, hleft, hsource⟩ := TokenSource.run_alike TokenSource.alike_next_counted hfeed
    hfinish (fun _ _ h => h) (rfl : (a, s) = (a, s)) (rfl : (⟨x, count⟩ : Counted τ).source = x)
  rw [Except.map_id, id, id] at hresult
  exact ⟨hresult, congrArg Prod.snd hleft, hsource⟩

namespace Query

theorem neverFails_collector (pattern : Pattern) (limit : Option Nat) (p : Predicate σ) :
    (collector pattern limit p).NeverFails where
  onEnter _ _ := rfl
  onExit _ _ := rfl

/-- Queries under the same limits fail on the same texts, with the same errors. -/
theorem findReader_fails_alike {q q' : Query} (h : q.limits = q'.limits) (answers : List Delivery)
    (limit limit' : Option Nat) (p : Predicate σ) (p' : Predicate σ') (s : σ) (s' : σ') :
    (q.findReader answers limit p s).1.map (fun _ => ()) =
      (q'.findReader answers limit' p' s').1.map (fun _ => ()) := by
  have hunit {α : Type} (r : Except WalkError Value) (f : Value → α) :
      (r.map f).map (fun _ => ()) = r.map (fun _ => ()) := by cases r <;> rfl
  obtain ⟨hresult, -⟩ := Assembly.run_agree (neverFails_collector q.pattern limit p)
    (neverFails_collector q'.pattern limit' p') q.limits.maxDepth (a := {}) rfl { state := s }
    { state := s' } (Lexer.ofInput (.ofReader q.limits.readBuffer answers))
  simp only [findReader, StreamWalk.walkReader, StreamWalk.walk_eq_run, ← h, hunit]
  exact hresult

end Query

/-- Walks over the same tokens with listeners that never fail end alike, whatever these skip or
detach and whatever earlier walks have left: with a document both times, or with the same error,
after the same number of tokens. So queries under the same limits fail alike. -/
theorem StreamWalk.walk_ends_alike [TokenSource τ] (w : StreamWalk) (left left' : Assembly)
    {l : Listener σ} {l' : Listener σ'} (hl : l.NeverFails) (hl' : l'.NeverFails) (s : σ) (s' : σ')
    (x : τ) :
    let e := StreamWalk.walk { w with leftover := left } l s (⟨x, 0⟩ : Counted τ)
    let e' := StreamWalk.walk { w with leftover := left' } l' s' (⟨x, 0⟩ : Counted τ)
    (e.result.map (fun _ => ()) = e'.result.map (fun _ => ()) ∧ e.source = e'.source) ∧
    (e.result = (StreamWalk.walk { w with leftover := left } l s x).result ∧
      e.state = (StreamWalk.walk { w with leftover := left } l s x).state ∧
      e.source.source = (StreamWalk.walk { w with leftover := left } l s x).source) ∧
    ∀ {α β : Type} (q q' : Query) (limit limit' : Option Nat) (p : Predicate α)
      (p' : Predicate β) (t : α) (t' : β), q.limits = q'.limits →
        (∀ answers, (q.findReader answers limit p t).1.map (fun _ => ()) =
          (q'.findReader answers limit' p' t').1.map (fun _ => ())) ∧
        ∀ bytes, (q.findBytes bytes limit p t).1.map (fun _ => ()) =
          (q'.findBytes bytes limit' p' t').1.map (fun _ => ()) := by
  intro e e'
  refine ⟨?_, ?_, fun q q' limit limit' p p' t t' h => ⟨fun answers => ?_, fun bytes => ?_⟩⟩
  · exact Assembly.run_agree hl hl' w.limits.maxDepth rfl s s' _
  · exact Assembly.run_counted l w.limits.maxDepth {} s x 0
  · exact Query.findReader_fails_alike h answers limit limit' p p' t t'
  · exact Query.findReader_fails_alike h _ limit limit' p p' t t'

/-- A member that is detached keeps its name from being used again. -/
theorem StreamWalk.walk_ends_alike_on_detached_name :
    let greedy : Listener Unit :=
      { onEnter := fun _ _ => { state := () }, onExit := fun _ _ => { state := (), taken := true } }
    let ts : List Token := [.beginObject, .name "k", .null, .name "k", .null, .endObject]
    let e := StreamWalk.walk {} greedy () (⟨ts, 0⟩ : Counted (List Token))
    greedy.NeverFails ∧ Listener.silent.NeverFails ∧
      e.result.map (fun _ => ()) = .error (.structural .repeatedName (some .object)) ∧
      e.source.count = 4 := by
  intro greedy ts e
  have hgreedy : greedy.NeverFails := ⟨fun _ _ => rfl, fun _ _ => rfl⟩
  have hsilent : ∃ left, StreamWalk.walk {} .silent () (⟨ts, 0⟩ : Counted (List Token)) =
      ⟨.error (.structural .repeatedName (some .object)), (), left, ⟨[.null, .endObject], 4⟩⟩ := by
    rw [StreamWalk.walk_eq_run, Assembly.run_of_fed rfl (by decide) rfl,
      Assembly.run_of_fed rfl (by decide) rfl, Assembly.run_of_fed rfl (by decide) rfl]
    exact Assembly.run_of_refused rfl (by decide) rfl
  obtain ⟨left, hsilent⟩ := hsilent
  obtain ⟨⟨hresult, hsource⟩, -, -⟩ :=
    StreamWalk.walk_ends_alike {} {} {} hgreedy Listener.neverFails_silent () () ts
  rw [hsilent] at hresult hsource
  exact ⟨hgreedy, Listener.neverFails_silent, hresult, congrArg Counted.count hsource⟩

end JsonWalk
