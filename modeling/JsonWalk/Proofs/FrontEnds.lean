import JsonWalk.Proofs.Outline
import JsonWalk.Proofs.SilentWalk
import JsonWalk.Proofs.TreePassage

/-!
# The two ways to walk over a text

A text can be walked over while it is read, or read first and walked over as a document. A listener
cannot tell which: both ways call it with the same events and end alike. A text that is refused is
refused with one error, by which the second way never calls the listener.
-/

namespace JsonWalk

theorem eq_error_of_map_eq_error {ε α β : Type} {f : α → β} {r : Except ε α} {e : ε}
    (h : r.map f = .error e) : r = .error e := by
  cases r with
  | error e' =>
    cases h
    rfl
  | ok a => cases h

/-- One call of a listener, without what the listener makes of it. -/
inductive Event where
  | entered (kind : NodeKind) (path : Path)
  | left (kind : NodeKind) (path : Path) (value : Value) (property : Option String)
    (position : Option Nat)

variable {σ : Type}

def Listener.recorded (l : Listener σ) : Listener (σ × List Event) where
  onEnter e s :=
    let reply := l.onEnter e s.1
    { reply with state := (reply.state, s.2 ++ [.entered e.kind e.path]) }
  onExit e s :=
    let reply := l.onExit e s.1
    { reply with
      state := (reply.state, s.2 ++ [.left e.kind e.path e.value e.property e.position]) }

variable {l : Listener σ} {limit : Nat} {v : Value}

def Walked.outcome (w : Walked σ Value) : Except WalkError Value × σ :=
  match w.failure with
  | some e => (.error e, w.state)
  | none => (.ok w.result, w.state)

/-- Within the depth, or without skipping, both ways to walk over a document end alike. -/
theorem StreamWalk.outcome_walk {τ : Type} [TokenSource τ] {w : StreamWalk} {s : σ} {x z : τ}
    (hv : v.DistinctNames) (h : l.NeverSkips ∨ v.nesting ≤ w.limits.maxDepth)
    (hx : TokenSource.Spells x v z) :
    (w.walk l s x).outcome = (TreeWalk.walk { maxDepth := w.limits.maxDepth } l s v).outcome := by
  have hpass : passValue l w.limits.maxDepth [] .root 0 v = _ :=
    TreeWalk.passValue_eq_action [] .root (Nat.zero_le _) (h.imp_right (Nat.zero_add _).trans_le)
  rw [walk_eq_run, Assembly.outcome_run_of_spells s hv hx, hpass, TreeWalk.walk]
  simp only [Walked.action, Walked.outcome]
  rcases TreeWalk.walkValue l w.limits.maxDepth [] .root 0 s v with ⟨v, s, _ | e⟩ <;> rfl

theorem StreamWalk.outcome_walk_of_spells {τ : Type} [TokenSource τ] {w : StreamWalk} {s : σ}
    {x z : τ} (hv : v.DistinctNames) (hn : v.nesting ≤ w.limits.maxDepth)
    (hx : TokenSource.Spells x v z) :
    (w.walk l s x).outcome = (TreeWalk.walk { maxDepth := w.limits.maxDepth } l s v).outcome :=
  outcome_walk hv (.inr hn) hx

theorem TreeWalk.walkBytes_of_ok {w : TreeWalk} {s : σ} {bytes : List UInt8}
    (h : (StreamWalk.walkBytes { limits := { maxDepth := w.maxDepth } } .silent () bytes).result =
      .ok v) : w.walkBytes l s bytes = (w.walk l s v).outcome := by
  simp only [walkBytes, h]
  rfl

/-- Walking over a text while it is read, or over the document that it denotes: for every listener
the calls, the listener's state and the end are the same if the text can be read. Else there are no
calls, and the error is that of any listener that never fails. -/
theorem TreeWalk.walkBytes_agrees (w : StreamWalk) (left : Assembly) (l : Listener σ) (s : σ)
    (bytes : List UInt8) :
    let tree : TreeWalk := { maxDepth := w.limits.maxDepth }
    let stream : StreamWalk := { w with leftover := left }
    match (w.walkBytes .silent () bytes).result with
    | .ok _ =>
      tree.walkBytes l.recorded (s, []) bytes =
          (stream.walkBytes l.recorded (s, []) bytes).outcome ∧
        tree.walkBytes l s bytes = (stream.walkBytes l s bytes).outcome
    | .error e =>
      tree.walkBytes l.recorded (s, []) bytes = (.error e, s, []) ∧
        ∀ {σ' : Type} (l' : Listener σ') (s' : σ'), l'.NeverFails →
          (stream.walkBytes l' s' bytes).result = .error e := by
  intro tree stream
  have hreader : (StreamWalk.walkBytes { limits := { maxDepth := tree.maxDepth } } .silent ()
      bytes).result = (w.walkBytes .silent () bytes).result := rfl
  cases h : (w.walkBytes .silent () bytes).result with
  | ok v =>
    rw [h] at hreader
    rw [StreamWalk.walkBytes, StreamWalk.walk_eq_run, Assembly.run_silent_eq_ok_iff] at h
    obtain ⟨hv, hn, z, hz⟩ := h
    have hagree {σ : Type} (l : Listener σ) (s : σ) :
        tree.walkBytes l s bytes = (stream.walkBytes l s bytes).outcome := by
      rw [walkBytes_of_ok hreader]
      exact (StreamWalk.outcome_walk_of_spells (w := stream) hv hn hz).symm
    exact ⟨hagree l.recorded (s, []), hagree l s⟩
  | error e =>
    rw [h] at hreader
    refine ⟨?_, ?_⟩
    · simp only [walkBytes, hreader]
    · intro σ' l' s' hl'
      obtain ⟨hrun, -⟩ := Assembly.run_agree hl' Listener.neverFails_silent w.limits.maxDepth
        (a := {}) rfl s' () (Lexer.ofBytes bytes)
      have hsilent : (Assembly.run .silent w.limits.maxDepth {} () (Lexer.ofBytes bytes)).result =
        .error e := h
      rw [hsilent] at hrun
      exact eq_error_of_map_eq_error hrun

end JsonWalk
