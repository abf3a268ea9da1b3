import JsonWalk.Proofs.Buffering
import Mathlib.Order.Monotone.Basic

/-!
# Requests for tokens

A lexer can be asked for a token again and again, also after a fault, which may have left it in the
middle of one. At every time its offset and the bytes it has not read make up the text, a token
costs at least a byte, and the end of the input, once reached, is reached for good.
-/

namespace JsonWalk

theorem Input.fill_of_fill {i j : Input} (h : i.fill = some j) : j.fill = some j := by
  have hend := i.of_fill
  rw [h] at hend
  obtain ⟨buffer, pending, capacity⟩ := j
  cases buffer with
  | cons b buffer => rfl
  | nil =>
    obtain rfl : pending = [] := hend.2 rfl
    rfl

namespace Lexer

def answer (x : Lexer) : Except WalkError Token :=
  match next x with
  | .ok t _ => .ok t
  | .error e _ => .error e

/-- The lexer after a request, whatever it has come to. -/
def asked (x : Lexer) : Lexer := after (next x)

/-- A request fails or finds the end of the input. -/
def Stops (x : Lexer) : Prop := x.answer = .ok .endOfInput ∨ ∃ e, x.answer = .error e

theorem answer_eq_ok_iff {x : Lexer} {t : Token} :
    x.answer = .ok t ↔ next x = .ok t x.asked := by
  rw [answer, asked]
  cases next x <;> simp [after]

theorem answer_eq_error_iff {x : Lexer} {e : WalkError} :
    x.answer = .error e ↔ next x = .error e x.asked := by
  rw [answer, asked]
  cases next x <;> simp [after]

/-! ### The end of the input -/

def GivesToken (m : LexM Token) : Prop := ∀ x y, m x ≠ .ok .endOfInput y

section

variable {α : Type} {x y : Lexer}

theorem givesToken_pure {t : Token} (h : t ≠ .endOfInput) : GivesToken (pure t) := by
  intro x y heq
  cases heq
  exact h rfl

theorem givesToken_throw (e : WalkError) : GivesToken (throw e) := nofun

theorem givesToken_bind (m : LexM α) {f : α → LexM Token} (hf : ∀ a, GivesToken (f a)) :
    GivesToken (m >>= f) := by
  intro x z h
  obtain ⟨a, y, -, hz⟩ := bind_eq_ok_iff.1 h
  exact hf a y z hz

theorem givesToken_fail (fault : TextFault) : GivesToken (fail fault) :=
  givesToken_bind _ fun _ => givesToken_throw _

theorem givesToken_close : GivesToken close := by
  refine givesToken_bind _ fun _ => givesToken_bind _ fun x => givesToken_bind _ fun _ => ?_
  split <;> exact givesToken_pure nofun

theorem givesToken_readName (b : UInt8) : GivesToken (readName b) := by
  unfold readName
  split
  · exact givesToken_bind _ fun _ => givesToken_bind _ fun _ => givesToken_pure nofun
  · exact givesToken_fail _

theorem givesToken_readLiteral (word : List UInt8) {t : Token} (h : t ≠ .endOfInput) :
    GivesToken (readLiteral word t) :=
  givesToken_bind _ fun _ => givesToken_bind _ fun _ => givesToken_pure h

theorem givesToken_readNumber : GivesToken readNumber := by
  refine givesToken_bind _ fun x => givesToken_bind _ fun raw => ?_
  split
  · exact givesToken_pure nofun
  · exact givesToken_throw _

theorem givesToken_readValue (b : UInt8) : GivesToken (readValue b) := by
  unfold readValue
  repeat' split
  · exact givesToken_bind _ fun _ => givesToken_pure nofun
  · exact givesToken_bind _ fun _ => givesToken_pure nofun
  · exact givesToken_bind _ fun _ => givesToken_pure nofun
  · exact givesToken_readLiteral _ nofun
  · exact givesToken_readLiteral _ nofun
  · exact givesToken_readLiteral _ nofun
  · exact givesToken_readNumber
  · exact givesToken_fail _

theorem givesToken_readToken (b : UInt8) : GivesToken (readToken b) := by
  refine givesToken_bind _ fun x => ?_
  repeat' split
  · exact givesToken_fail _
  · exact givesToken_bind _ fun _ => givesToken_readValue b
  · exact givesToken_close
  · exact givesToken_bind _ fun _ => givesToken_readValue b
  · exact givesToken_close
  · exact givesToken_bind _ fun _ => givesToken_bind _ givesToken_readValue
  · exact givesToken_fail _
  · exact givesToken_close
  · exact givesToken_readName b
  · exact givesToken_close
  · exact givesToken_bind _ fun _ => givesToken_bind _ givesToken_readName
  · exact givesToken_fail _
  · refine givesToken_bind _ fun _ => givesToken_bind _ fun _ => ?_
    exact givesToken_bind _ givesToken_readValue
  · exact givesToken_fail _

theorem peek_of_peek {b : Option UInt8} (h : peek x = .ok b y) : peek y = .ok b y := by
  rw [peek] at h ⊢
  cases hi : x.input.fill with
  | none =>
    rw [hi] at h
    cases h
  | some i =>
    rw [hi] at h
    cases h
    rw [Input.fill_of_fill hi]

theorem next_of_endOfInput (h : next x = .ok .endOfInput y) : next y = .ok .endOfInput y := by
  obtain ⟨_, x₁, -, h⟩ := bind_eq_ok_iff.1 h
  obtain ⟨b, x₂, hpeek, h⟩ := bind_eq_ok_iff.1 h
  cases b with
  | some b => exact absurd h (givesToken_readToken b x₂ y)
  | none =>
    have hsame : x₂ = y := by
      obtain ⟨_, _, ⟨⟩, hend⟩ := bind_eq_ok_iff.1 h
      split at hend <;> cases hend
      rfl
    subst hsame
    have hagain := peek_of_peek hpeek
    have hrun : takeWhile isBlank x₂ = .ok [] x₂ := takeOnto_of_none hagain
    have hblanks : skipBlanks x₂ = .ok () x₂ := by
      rw [skipBlanks, bind_of_ok hrun]
      rfl
    rw [next, bind_of_ok hblanks, bind_of_ok hagain]
    exact h

/-! ### One request -/

theorem offset_lt_asked {t : Token} (h : x.answer = .ok t) (ht : t ≠ .endOfInput) :
    x.offset < x.asked.offset := by
  have hextent : x.asked.extent = x.extent := (accounted_next x).extent_eq
  have hlt := content_next_lt (answer_eq_ok_iff.1 h) ht
  rw [extent, extent] at hextent
  omega

theorem malformed_within {place : Nat} {fault : TextFault}
    (h : x.answer = .error (.malformed place fault)) :
    x.offset ≤ place ∧ place ≤ x.asked.offset := by
  rcases (accounted_next x).failsWithin (answer_eq_error_iff.1 h) with
    hfailed | ⟨offset, fault', heq, hfirst, hlast⟩
  · cases hfailed
  · cases heq
    exact ⟨hfirst, hlast⟩

theorem asked_of_endOfInput (h : x.answer = .ok .endOfInput) :
    x.asked.answer = .ok .endOfInput ∧ x.asked.asked = x.asked := by
  have hnext := next_of_endOfInput (answer_eq_ok_iff.1 h)
  have hasked : x.asked.asked = x.asked := by
    rw [asked, hnext]
    rfl
  rw [answer_eq_ok_iff, hasked]
  exact ⟨hnext, rfl⟩

/-! ### Requests one after another -/

theorem extent_iterate_asked (n : Nat) (x : Lexer) : (asked^[n] x).extent = x.extent := by
  induction n with
  | zero => rfl
  | succ n ih =>
    rw [Function.iterate_succ_apply']
    exact (accounted_next _).extent_eq.trans ih

theorem monotone_offset (x : Lexer) : Monotone fun n => (asked^[n] x).offset := by
  refine monotone_nat_of_le_succ fun n => ?_
  rw [Function.iterate_succ_apply']
  exact (accounted_next _).offset_le

/-- Tokens use up the bytes, so a request stops before there are more of them than bytes and one. -/
theorem exists_stops (x : Lexer) : ∃ n ≤ x.content.length, Stops (asked^[n] x) := by
  induction hlength : x.content.length using Nat.strongRecOn generalizing x with
  | ind length ih =>
    cases hx : x.answer with
    | error e => exact ⟨0, Nat.zero_le _, .inr ⟨e, hx⟩⟩
    | ok t =>
      by_cases ht : t = .endOfInput
      · exact ⟨0, Nat.zero_le _, .inl (ht ▸ hx)⟩
      · have hlt := content_next_lt (answer_eq_ok_iff.1 hx) ht
        rw [hlength] at hlt
        obtain ⟨n, hn, hstops⟩ := ih _ hlt x.asked rfl
        exact ⟨n + 1, Nat.lt_of_le_of_lt hn hlt, hstops⟩

/-- Behind the end of the input every request finds it again and moves nothing. -/
theorem iterate_asked_of_endOfInput (h : x.answer = .ok .endOfInput) (n : Nat) :
    (asked^[n + 1] x).answer = .ok .endOfInput ∧ asked^[n + 1] x = x.asked := by
  obtain ⟨hanswer, hfixed⟩ := asked_of_endOfInput h
  have hsame : asked^[n + 1] x = x.asked := Function.iterate_fixed hfixed n
  rw [hsame]
  exact ⟨hanswer, rfl⟩

end

/-- However the bytes of a text come, and whatever the requests come to: the offset and the bytes
that are left make up the text, the offset never falls and rises with every token, one of the first
requests stops, with one more of them than bytes, a fault lies between the offsets before and after
its request, and the end of the input is final. -/
theorem requests_account_for_bytes {i : Input} {bytes : List UInt8} (h : i.content = bytes) :
    let x (n : Nat) : Lexer := asked^[n] (ofInput i)
    (∀ n, (x n).offset + (x n).content.length = bytes.length) ∧
      (Monotone fun n => (x n).offset) ∧
      (∀ n t, (x n).answer = .ok t → t ≠ .endOfInput → (x n).offset + 1 ≤ (x (n + 1)).offset) ∧
      (∃ n ≤ bytes.length, Stops (x n)) ∧
      (∀ n place fault, (x n).answer = .error (.malformed place fault) →
        (x n).offset ≤ place ∧ place ≤ (x (n + 1)).offset) ∧
      ∀ n, (x n).answer = .ok .endOfInput →
        ∀ m > n, (x m).answer = .ok .endOfInput ∧ x m = x (n + 1) := by
  subst h
  intro x
  have hsucc (n : Nat) : x (n + 1) = asked (x n) := Function.iterate_succ_apply' _ _ _
  have hextent (n : Nat) : (x n).extent = (ofInput i).extent := extent_iterate_asked n _
  have hinput : (ofInput i).extent = i.content.length := Nat.zero_add _
  refine ⟨fun n => (hextent n).trans hinput, monotone_offset _, fun n t hn ht => ?_,
    exists_stops (ofInput i), fun n place fault hn => ?_, fun n hn m hm => ?_⟩
  · rw [hsucc]
    exact offset_lt_asked hn ht
  · rw [hsucc]
    exact malformed_within hn
  · obtain ⟨k, rfl⟩ := Nat.exists_eq_add_of_lt hm
    have hlater : x (n + k + 1) = asked^[k + 1] (x n) := by
      rw [Nat.add_assoc, Nat.add_comm]
      exact Function.iterate_add_apply _ _ _ _
    rw [hlater, hsucc]
    exact iterate_asked_of_endOfInput hn k

/-- A fault in the middle of a word, a token behind it and the end of the input, from a reader that
hands out two bytes at a time. -/
theorem requests_account_for_bytes_behind_fault :
    let i : Input := .ofReader 2 [.bytes 0x5B [0x74, 0x72], .interruption, .bytes 0x75 [0x5D, 0x2C],
      .bytes 0x32 [0x5D]]
    let x (n : Nat) : Lexer := asked^[n] (ofInput i)
    i.content = Grammar.ascii "[tru],2]" ∧
      ((x 1).answer = .error (.malformed 1 (.expectedWord [0x74, 0x72, 0x75, 0x65])) ∧
        (x 1).offset ≤ 1 ∧ 1 ≤ (x 2).offset ∧ (x 2).offset + (x 2).content.length = 8) ∧
      ((x 2).answer = .ok (.number (.int 2)) ∧ (x 2).offset + 1 ≤ (x 3).offset) ∧
      (x 4).answer = .ok .endOfInput ∧ ∀ m > 4, (x m).answer = .ok .endOfInput ∧ x m = x 5 := by
  intro i x
  have hcontent : i.content = Grammar.ascii "[tru],2]" := by decide +kernel
  have hfault : (x 1).answer = .error (.malformed 1 (.expectedWord [0x74, 0x72, 0x75, 0x65])) := by
    decide +kernel
  have htoken : (x 2).answer = .ok (.number (.int 2)) := by decide +kernel
  have hend : (x 4).answer = .ok .endOfInput := by decide +kernel
  obtain ⟨hextent, -, hrises, -, hwithin, hfinal⟩ := requests_account_for_bytes hcontent
  obtain ⟨hfirst, hlast⟩ := hwithin 1 _ _ hfault
  exact ⟨hcontent, ⟨hfault, hfirst, hlast, hextent 2⟩, ⟨htoken, hrises 2 _ htoken nofun⟩, hend,
    hfinal 4 hend⟩

end Lexer
end JsonWalk
