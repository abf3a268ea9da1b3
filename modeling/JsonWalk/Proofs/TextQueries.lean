import JsonWalk.Proofs.Buffering
import JsonWalk.Proofs.Collecting
import JsonWalk.Proofs.TextAcceptance

/-!
# Queries over a text and over its document

A query over the text of a document finds what a query over the document finds, with the same
questions to the predicate. It may fail where the other does not, by nesting that lies behind the
last hit, but not the other way round.
-/

namespace JsonWalk

variable {σ : Type}

def Predicate.logged (p : Predicate σ) : Predicate (σ × List Value) := fun v (s, asked) =>
  let (answer, s) := p v s
  (answer, s, asked ++ [v])

namespace Query

open TokenSource (Spells)

/-- How a query over a text of `v` and one over `v` itself end: with the same hits if the former
succeeds, with the same error and state if the latter fails, and both well if `v` is not nested too
deep. -/
structure Agree (maxDepth : Nat) (v : Value) (text scan : Except WalkError (List Hit) × σ) :
    Prop where
  scan_of_text : ∀ hits s, text = (.ok hits, s) → scan = (.ok hits, s)
  text_of_scan : ∀ e s, scan = (.error e, s) → text = (.error e, s)
  both_ok : v.nesting ≤ maxDepth → ∃ hits s, text = (.ok hits, s) ∧ scan = (.ok hits, s)

variable {q : Query} {v : Value} {answers : List Delivery} {z : Lexer} {limit : Option Nat}
  {p : Predicate σ} {s : σ}

theorem findReader_of_spells (hv : v.DistinctNames)
    (h : Spells (Lexer.ofInput (.ofReader q.limits.readBuffer answers)) v z) :
    q.findReader answers limit p s =
      match passValue (collector q.pattern limit p) q.limits.maxDepth [] .root 0 v
        { state := s } with
      | .ok _ f => (.ok f.hits.toList, f.state)
      | .error e f => (.error e, f.state) := by
  have hquery : q.findReader answers limit p s =
      let outcome := (Assembly.run (collector q.pattern limit p) q.limits.maxDepth {} { state := s }
        (Lexer.ofInput (.ofReader q.limits.readBuffer answers))).outcome
      (outcome.1.map fun _ => outcome.2.hits.toList, outcome.2.state) := rfl
  rw [hquery, Assembly.outcome_run_of_spells _ hv h]
  generalize passValue (collector q.pattern limit p) q.limits.maxDepth [] .root 0 v _ = passed
  cases passed <;> rfl

theorem agree_of_spells (hv : v.DistinctNames)
    (h : Spells (Lexer.ofInput (.ofReader q.limits.readBuffer answers)) v z) :
    Agree q.limits.maxDepth v (q.findReader answers limit p s) (q.find v limit p s) := by
  rw [findReader_of_spells hv h, passValue_collector v [] .root (Nat.zero_le _), Nat.zero_add, find]
  cases hscan : scanValue q.pattern limit p q.limits.maxDepth [] 0 v { state := s } with
  | error e f =>
    simp only [bind, EStateM.bind, hscan]
    refine ⟨nofun, fun _ _ h => h, fun hn => ?_⟩
    have hok : ∃ f', scanValue q.pattern limit p q.limits.maxDepth [] 0 v { state := s } =
        .ok () f' :=
      exists_scanValue_eq_ok [] _ ((Nat.zero_add _).trans_le hn)
    obtain ⟨f', hok⟩ := hok
    cases hscan.symm.trans hok
  | ok _ f =>
    rw [bind_of_ok hscan]
    by_cases hn : q.limits.maxDepth < v.nesting
    · rw [within_of_lt hn]
      exact ⟨nofun, nofun, fun hle => absurd hle (Nat.not_le.2 hn)⟩
    · rw [within_of_le (Nat.not_lt.1 hn)]
      exact ⟨fun _ _ h => h, nofun, fun _ => ⟨_, _, rfl, rfl⟩⟩

theorem agree_of_reader (hv : v.DistinctNames) (hf : .failure ∉ answers)
    (h : Grammar.TextDenotes (Input.pendingBytes answers) v) :
    Agree q.limits.maxDepth v (q.findReader answers limit p s) (q.find v limit p s) := by
  obtain ⟨z, hz⟩ := Lexer.exists_spells_iff.2 h
  obtain ⟨z', hz'⟩ := Lexer.exists_spells_ofReader q.limits.readBuffer hf hz
  exact agree_of_spells hv hz'

theorem agree_of_text {bytes : List UInt8} (hv : v.DistinctNames)
    (h : Grammar.TextDenotes bytes v) :
    Agree q.limits.maxDepth v (q.findBytes bytes limit p s) (q.find v limit p s) := by
  cases bytes with
  | nil => exact agree_of_reader hv List.not_mem_nil h
  | cons b bytes =>
    have hbytes : Input.pendingBytes [.bytes b bytes] = b :: bytes := List.append_nil _
    exact agree_of_reader hv (by simp) (hbytes.symm ▸ h)

/-- Queries over a text and over the document that it denotes agree, for every predicate that may
remember what it was asked, and also in what they ask. -/
theorem findBytes_agrees (w : StreamWalk) (bytes : List UInt8) (v : Value)
    (h : (w.walkBytes .silent () bytes).result = .ok v) (q : Query) (limit : Option Nat)
    (p : Predicate σ) (s : σ) :
    Agree q.limits.maxDepth v (q.findBytes bytes limit p s) (q.find v limit p s) ∧
      Agree q.limits.maxDepth v (q.findBytes bytes limit p.logged (s, []))
        (q.find v limit p.logged (s, [])) := by
  obtain ⟨hv, -, htext⟩ := StreamWalk.walkBytes_silent_eq_ok_iff.1 h
  exact ⟨agree_of_text hv htext, agree_of_text hv htext⟩

/-- One hit behind a value that the predicate does not accept. -/
theorem findBytes_agrees_on_second_element :
    let bytes := Grammar.ascii "[[],[]]"
    let v : Value := .array [.array [], .array []]
    let q : Query := { pattern := .identity, limits := { maxDepth := 2 } }
    (StreamWalk.walkBytes {} .silent () bytes).result = .ok v ∧
      q.findBytes bytes (some 1) .everySecond 0 = (.ok [⟨[.index 1], .array []⟩], 2) := by
  intro bytes v q
  have hrest : Grammar.MoreItems (Grammar.ascii ",[]]") [.array []] [] :=
    .more (.none _) (.none _) (.emptyArray (.none _)) (.done (.none _))
  have htext : Grammar.TextDenotes bytes v :=
    ⟨bytes, [], .none _, .array (.none _) (.emptyArray (.none _)) hrest, .none _⟩
  have hv : v.DistinctNames := ⟨trivial, trivial, trivial⟩
  have h : (StreamWalk.walkBytes {} .silent () bytes).result = .ok v :=
    StreamWalk.walkBytes_silent_eq_ok_iff.2 ⟨hv, by decide, htext⟩
  have hfind : q.find v (some 1) .everySecond 0 = (.ok [⟨[.index 1], .array []⟩], 2) := rfl
  obtain ⟨hagree, -⟩ := findBytes_agrees {} bytes v h q (some 1) .everySecond 0
  obtain ⟨hits, s, htext, hscan⟩ := hagree.both_ok (by decide)
  exact ⟨h, htext.trans (hscan.symm.trans hfind)⟩

end Query
end JsonWalk
