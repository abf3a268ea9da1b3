import JsonWalk.Proofs.Buffering
import JsonWalk.Proofs.FrontEnds
import JsonWalk.Proofs.TokenOrder

/-!
# Walks over readers

However the bytes come, a walk over a reader is the walk over the same text at hand. If the reader
fails, the walk goes as far as its bytes do, and ends there unless it has ended before.
-/

namespace JsonWalk

theorem TokenSource.Hands.unique {τ : Type} [TokenSource τ] {x y z : τ} {ts : List Token}
    (hy : Hands x ts y) (hz : Hands x ts z) : y = z := by
  induction hy with
  | nil =>
    cases hz
    rfl
  | cons hnext _ _ ih =>
    cases hz with
    | cons hnext' _ hz =>
      cases hnext.symm.trans hnext'
      exact ih hz

namespace Lexer

open Grammar
open TokenSource (Hands)

variable {fails : Prop} {x x' y z : Lexer} {ts : List Token}

/-! ### Tokens -/

theorem Tracks.next_of_ok {t : Token} (h : Tracks fails x y) (hx : next x = .ok t x') :
    ∃ y', next y = .ok t y' ∧ Tracks fails x' y' := by
  have hm := simulates_next fails x y h
  rw [hx] at hm
  generalize hy : next y = r at hm
  cases hm with
  | ok _ h => exact ⟨_, rfl, h⟩

theorem Tracks.next_of_error {e : WalkError} (h : Tracks fails x y) (hx : next x = .error e x') :
    (∃ y', next y = .error e y') ∨ fails ∧ e = .readFailed := by
  have hm := simulates_next fails x y h
  rw [hx] at hm
  generalize hy : next y = r at hm
  cases hm with
  | error _ _ => exact .inl ⟨_, rfl⟩
  | failed _ _ hf => exact .inr ⟨hf, rfl⟩

theorem Tracks.hands_of (h : Tracks fails x y) (hx : Hands x ts x') :
    ∃ y', Hands y ts y' ∧ Tracks fails x' y' := by
  induction hx generalizing y with
  | nil => exact ⟨y, .nil y, h⟩
  | cons hnext hend _ ih =>
    obtain ⟨y₁, hy, h₁⟩ := h.next_of_ok hnext
    obtain ⟨y', hy', h'⟩ := ih h₁
    exact ⟨y', .cons hy hend hy', h'⟩

/-- With a failing reader the input does not end: there could be a byte more that is no blank. -/
theorem next_ne_endOfInput (hf : .failure ∈ x.input.pending) (hbegun : x.scopes ≠ [] → x.begun) :
    next x ≠ .ok .endOfInput z := by
  intro hx
  have htracks : Tracks True x (atHand 0 x.offset (x.content ++ [1]) x.scopes x.begun) :=
    ⟨rfl, rfl, rfl, ⟨fun _ => trivial, fun _ => hf⟩, [1], List.append_nil _, .inl trivial⟩
  obtain ⟨y, hy, -⟩ := htracks.next_of_ok hx
  obtain ⟨_, _, _, _, hread, -⟩ := of_next_atHand hbegun hy
  have hblank := blanks_iff_forall.1 hread.blanks_of_endOfInput 1 (by simp)
  exact absurd hblank (by decide)

end Lexer

/-! ### Runs -/

namespace Assembly

open Lexer (Tracks)
open TokenSource (Hands)

variable {σ : Type} {fails : Prop} {x y : Lexer}

theorem outcome_run_of_tracks (h : Tracks fails x y) (l : Listener σ) (limit : Nat) (a : Assembly)
    (s : σ) :
    (run l limit a s x).outcome = (run l limit a s y).outcome ∨
      fails ∧ ∃ ts x' z y' a' s', Hands x ts x' ∧ TokenSource.next x' = .error .readFailed z ∧
        Hands y ts y' ∧ AssemblyM.feedAll l limit ts a s = .ok a' s' := by
  have hrun := concludes_run l limit a s x
  generalize run l limit a s x = ending at hrun ⊢
  cases hrun with
  | refused hx hfeed =>
    obtain ⟨y', hy, -⟩ := h.hands_of hx
    obtain ⟨_, _, _, _, _, _, _, _, _, hrun⟩ := run_of_hands_error hy hfeed
    rw [hrun]
    exact .inl rfl
  | ended hx hfeed hz =>
    obtain ⟨y', hy, h'⟩ := h.hands_of hx
    obtain ⟨z, hz, -⟩ := h'.next_of_ok hz
    rw [run_of_hands hy hfeed, run_of_endOfInput hz]
    exact .inl rfl
  | failed hx hfeed hz =>
    obtain ⟨y', hy, h'⟩ := h.hands_of hx
    rcases h'.next_of_error hz with ⟨z, hz⟩ | ⟨hf, rfl⟩
    · rw [run_of_hands hy hfeed, run_of_failed hz]
      exact .inl rfl
    · exact .inr ⟨hf, _, _, _, y', _, _, hx, hz, hy, hfeed⟩

theorem outcome_run_of_tracks_both (h : Tracks fails x y) (h' : Tracks fails y x) (l : Listener σ)
    (limit : Nat) (a : Assembly) (s : σ) :
    (run l limit a s x).outcome = (run l limit a s y).outcome := by
  rcases outcome_run_of_tracks h l limit a s with
    heq | ⟨-, ts, x', z, y', a', s', hx, hz, hy, hfeed⟩
  · exact heq
  · -- where `x` fails `y` must fail too: a token read there would be read by `x`
    obtain ⟨x'', hx'', h''⟩ := h'.hands_of hy
    obtain rfl := hx''.unique hx
    rw [run_of_hands hx hfeed, run_of_hands hy hfeed, run_of_failed hz]
    cases hz' : TokenSource.next y' with
    | ok t u =>
      obtain ⟨_, hok, -⟩ := h''.next_of_ok hz'
      cases hok.symm.trans hz
    | error e u =>
      rw [run_of_failed hz']
      rcases h''.next_of_error hz' with ⟨_, herror⟩ | ⟨-, rfl⟩
      · cases herror.symm.trans hz
        rfl
      · rfl

theorem run_ne_ok_of_failing {bytes : List UInt8} (h : Tracks True x (Lexer.ofBytes bytes))
    (l : Listener σ) (limit : Nat) (a : Assembly) (s : σ) (v : Value) :
    (run l limit a s x).result ≠ .ok v := by
  have hrun := concludes_run l limit a s x
  generalize run l limit a s x = ending at hrun
  cases hrun with
  | refused | failed => exact nofun
  | ended hx _ hz =>
    -- that containers are open only once the document has begun is known of texts at hand
    obtain ⟨y', hy, h'⟩ := h.hands_of hx
    rw [Lexer.ofBytes_eq_atHand] at hy
    obtain ⟨_, _, scopes, begun, -, hbegun, rfl⟩ := Lexer.of_hands_atHand (absurd rfl) hy
    refine absurd hz (Lexer.next_ne_endOfInput (h'.failure_mem.2 trivial) ?_)
    rw [h'.scopes_eq, h'.begun_eq]
    exact hbegun

end Assembly

theorem Listener.behaves_recorded {σ : Type} (l : Listener σ) :
    l.recorded.Behaves (fun s t => s.2 <+: t.2) fun _ => True where
  refl _ := List.prefix_refl _
  trans _ _ _ := List.IsPrefix.trans
  onEnter _ _ := ⟨List.prefix_append _ _, fun _ _ => trivial⟩
  onExit _ _ := ⟨List.prefix_append _ _, fun _ _ => trivial⟩

namespace StreamWalk

open Lexer (Tracks)

variable {σ : Type} {w w' : StreamWalk} {l : Listener σ} {s : σ} {bytes rest : List UInt8}
  {answers answers' : List Delivery}

theorem tracks_of_failing (capacity : Nat) {i : Input} (hf : .failure ∈ answers)
    (hi : i.content = Input.pendingBytes answers ++ rest) :
    Tracks True (.ofInput (.ofReader capacity answers)) (.ofInput i) :=
  ⟨rfl, rfl, rfl, ⟨fun _ => trivial, fun _ => hf⟩, rest, hi, .inl trivial⟩

theorem outcome_walkReader (hf : .failure ∉ answers) :
    (w.walkReader l s answers).outcome =
      (w.walkBytes l s (Input.pendingBytes answers)).outcome := by
  have htracks := Lexer.tracks_ofReader w.limits.readBuffer answers
  rcases Assembly.outcome_run_of_tracks htracks l w.limits.maxDepth {} s with heq | ⟨hfails, -⟩
  · exact heq
  · exact absurd hfails hf

theorem tracks_ofBytes_of_failing (capacity : Nat) (hf : .failure ∈ answers)
    (hbytes : Input.pendingBytes answers <+: bytes) :
    Tracks True (.ofInput (.ofReader capacity answers)) (.ofBytes bytes) := by
  obtain ⟨rest, rfl⟩ := hbytes
  exact tracks_of_failing capacity hf (List.append_nil _)

/-- A walk over a failing reader stops short of the walk over the text. -/
theorem log_walkReader_of_failing (hf : .failure ∈ answers)
    (hbytes : Input.pendingBytes answers <+: bytes) :
    (w.walkReader l.recorded (s, []) answers).state.2 <+:
      (w.walkBytes l.recorded (s, []) bytes).state.2 := by
  have htracks := tracks_ofBytes_of_failing w.limits.readBuffer hf hbytes
  rcases Assembly.outcome_run_of_tracks htracks l.recorded w.limits.maxDepth {} (s, []) with
    heq | ⟨-, ts, x, z, y, a, t, hx, hz, hy, hfeed⟩
  · have hstate := congrArg (fun outcome => outcome.2.2) heq
    exact hstate ▸ List.prefix_refl _
  · rw [walkReader, walk_eq_run, Assembly.run_of_hands hx hfeed, Assembly.run_of_failed hz,
      walkBytes, walk_eq_run, Assembly.run_of_hands hy hfeed]
    exact Assembly.run_behaves l.behaves_recorded w.limits.maxDepth a t y

theorem walkReader_ne_ok (hf : .failure ∈ answers) (v : Value) :
    (w.walkReader l s answers).result ≠ .ok v :=
  Assembly.run_ne_ok_of_failing
    (tracks_ofBytes_of_failing w.limits.readBuffer hf (List.prefix_refl _)) _ _ _ _ v

theorem outcome_walkReader_of_failing (hf : .failure ∈ answers) :
    (w.walkReader l s answers).result = .error .readFailed ∨
      ∀ bytes, Input.pendingBytes answers <+: bytes →
        (w.walkBytes l s bytes).outcome = (w.walkReader l s answers).outcome := by
  by_cases hread : (w.walkReader l s answers).result = .error .readFailed
  · exact .inl hread
  · refine .inr fun bytes hbytes => ?_
    have htracks := tracks_ofBytes_of_failing w.limits.readBuffer hf hbytes
    rcases Assembly.outcome_run_of_tracks htracks l w.limits.maxDepth {} s with
      heq | ⟨-, ts, x, z, y, a, t, hx, hz, hy, hfeed⟩
    · exact heq.symm
    · refine absurd ?_ hread
      rw [walkReader, walk_eq_run, Assembly.run_of_hands hx hfeed, Assembly.run_of_failed hz]

theorem outcome_walkReader_congr (hdepth : w'.limits.maxDepth = w.limits.maxDepth)
    (hf : .failure ∈ answers) (hf' : .failure ∈ answers')
    (hbytes : Input.pendingBytes answers' = Input.pendingBytes answers) :
    (w'.walkReader l s answers').outcome = (w.walkReader l s answers).outcome := by
  have htracks : Tracks True (.ofInput (.ofReader w'.limits.readBuffer answers'))
      (.ofInput (.ofReader w.limits.readBuffer answers)) :=
    tracks_of_failing _ hf' (hbytes.symm.trans (List.append_nil _).symm)
  have htracks' : Tracks True (.ofInput (.ofReader w.limits.readBuffer answers))
      (.ofInput (.ofReader w'.limits.readBuffer answers')) :=
    tracks_of_failing _ hf (hbytes.trans (List.append_nil _).symm)
  have heq := Assembly.outcome_run_of_tracks_both htracks htracks' l w.limits.maxDepth {} s
  rw [walkReader, walk_eq_run, hdepth]
  exact heq

/-- A walk over a reader is the walk over the bytes at hand, whatever the buffer and the pieces that
the bytes come in. A reader that fails behind `k` bytes cuts the walk short: it makes the first of
the calls and accepts nothing. It ends with the reader's failure or as the walk over the bytes does
without a look at byte `k`, and other bytes from there on would make no difference. -/
theorem walkReader_follows_bytes (w : StreamWalk) (l : Listener σ) (s : σ) (bytes : List UInt8)
    (answers : List Delivery) :
    (.failure ∉ answers → Input.pendingBytes answers = bytes →
      (w.walkReader l.recorded (s, []) answers).outcome =
          (w.walkBytes l.recorded (s, []) bytes).outcome ∧
        (w.walkReader l s answers).outcome = (w.walkBytes l s bytes).outcome) ∧
    ∀ k ≤ bytes.length, .failure ∈ answers → Input.pendingBytes answers = bytes.take k →
      (w.walkReader l.recorded (s, []) answers).state.2 <+:
          (w.walkBytes l.recorded (s, []) bytes).state.2 ∧
        (∀ v, (w.walkReader l s answers).result ≠ .ok v) ∧
        ((w.walkReader l s answers).result = .error .readFailed ∨
          ∀ bytes', bytes'.take k = bytes.take k →
            (w.walkBytes l s bytes').outcome = (w.walkReader l s answers).outcome) ∧
        ∀ (w' : StreamWalk) (bytes' : List UInt8) (answers' : List Delivery),
          w'.limits.maxDepth = w.limits.maxDepth → bytes'.take k = bytes.take k →
          .failure ∈ answers' → Input.pendingBytes answers' = bytes'.take k →
            (w'.walkReader l s answers').outcome = (w.walkReader l s answers).outcome := by
  constructor
  · rintro hf rfl
    exact ⟨outcome_walkReader hf, outcome_walkReader hf⟩
  · intro k _ hf hbytes
    have hgiven {bytes' : List UInt8} (h : bytes'.take k = bytes.take k) :
        Input.pendingBytes answers <+: bytes' := by
      rw [hbytes, ← h]
      exact List.take_prefix k bytes'
    refine ⟨log_walkReader_of_failing hf (hgiven rfl), walkReader_ne_ok hf, ?_, ?_⟩
    · exact (outcome_walkReader_of_failing hf).imp_right fun h bytes' hk => h bytes' (hgiven hk)
    · intro w' bytes' answers' hdepth hk hf' hbytes'
      exact outcome_walkReader_congr hdepth hf hf' (hbytes'.trans (hk.trans hbytes.symm))

/-- Three bytes through a buffer that holds one, and a reader that fails behind two of them. -/
theorem walkReader_follows_bytes_through_tiny_buffer :
    let w : StreamWalk := { limits := { readBuffer := 0 } }
    let bytes : List UInt8 := [0x5B, 0x31, 0x5D]
    let answers : List Delivery := [.bytes 0x5B [0x31], .interruption, .bytes 0x5D []]
    let failing : List Delivery := [.interruption, .bytes 0x5B [0x31], .failure]
    .failure ∉ answers ∧ Input.pendingBytes answers = bytes ∧
      .failure ∈ failing ∧ Input.pendingBytes failing = bytes.take 2 ∧
      (w.walkReader .silent () answers).outcome = (w.walkBytes .silent () bytes).outcome ∧
      ∀ v, (w.walkReader .silent () failing).result ≠ .ok v := by
  intro w bytes answers failing
  have hclean : .failure ∉ answers ∧ Input.pendingBytes answers = bytes := by decide
  have hfailing : .failure ∈ failing ∧ Input.pendingBytes failing = bytes.take 2 := by decide
  have hwalk := (walkReader_follows_bytes w .silent () bytes answers).1 hclean.1 hclean.2
  have hcut := (walkReader_follows_bytes w .silent () bytes failing).2 2 (by decide) hfailing.1
    hfailing.2
  exact ⟨hclean.1, hclean.2, hfailing.1, hfailing.2, hwalk.2, hcut.2.1⟩

end StreamWalk
end JsonWalk
