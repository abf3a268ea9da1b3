import JsonWalk.Proofs.Rebuilding
import Mathlib.Data.List.DropRight

/-!
# Walks that only read

A silent walk gives a document exactly if its source hands out the tokens of the document and then
ends. A token that it refuses, or the end of the input, is the first that no document allows.
-/

namespace JsonWalk

open TokenSource (Hands)

section

variable {limit limit' : Nat} {a b : Assembly} {ts us : List Token} {t : Token} {v : Value}

theorem Assembly.finish_eq_ok_iff :
    a.finish = .ok v ↔ a.frames = [] ∧ a.document = some v := by
  rw [finish]
  split
  · next hf hd => simp [hf, hd]
  · next hne =>
    constructor
    · nofun
    · exact fun ⟨hf, hd⟩ => (hne v hf hd).elim

theorem Rebuilt.of_finish (h : Rebuilt a ts) (hf : a.finish = .ok v) :
    v.DistinctNames ∧ ts = v.tokens := by
  obtain ⟨hframes, hd⟩ := Assembly.finish_eq_ok_iff.1 hf
  refine ⟨h.distinctNames v hd, ?_⟩
  rw [← h.tokens_eq, Assembly.tokens, hframes, hd]
  rfl

namespace AssemblyM

theorem feedAll_silent_of_le (h : limit ≤ limit')
    (hf : feedAll .silent limit ts a () = .ok b ()) :
    feedAll .silent limit' ts a () = .ok b () := by
  induction ts generalizing a with
  | nil => exact hf
  | cons t ts ih =>
    rw [feedAll_cons] at hf ⊢
    obtain ⟨c, _, hc, hf⟩ := bind_eq_ok_iff.1 hf
    refine bind_eq_ok_iff.2 ⟨c, (), ?_, ih hf⟩
    rw [on_feed] at hc ⊢
    rwa [Assembly.move_of_le h]
    intro hm
    rw [hm] at hc
    cases hc

theorem feedAll_tokens_eq_ok (hv : v.DistinctNames) (h : v.nesting ≤ limit) :
    feedAll .silent limit v.tokens {} () = .ok { document := some v } () := by
  rw [feedAll_tokens_silent hv, within_of_le h]
  rfl

/-- What is refused, but not for its depth, stands in no document behind the tokens before it. -/
theorem not_prefix_of_refused {e : WalkError} (hts : feedAll .silent limit ts {} () = .ok a ())
    (hf : (feed .silent limit t).on a () = .error e ()) (he : e ≠ .tooDeep limit)
    (hv : v.DistinctNames) : ¬ ts ++ [t] <+: v.tokens := by
  rintro ⟨rest, hrest⟩
  have hall : feedAll .silent (max limit v.nesting) v.tokens {} () = _ :=
    feedAll_tokens_eq_ok hv (Nat.le_max_right ..)
  rw [← hrest, feedAll_append, feedAll_append] at hall
  obtain ⟨c, _, hc, _⟩ := bind_eq_ok_iff.1 hall
  obtain ⟨b, _, hb, hc⟩ := bind_eq_ok_iff.1 hc
  cases (feedAll_silent_of_le (Nat.le_max_left ..) hts).symm.trans hb
  rw [feedAll_singleton, on_feed] at hc
  rw [on_feed] at hf
  rw [Assembly.move_of_le (Nat.le_max_left ..)] at hc
  · cases hf.symm.trans hc
  · intro hm
    rw [hm] at hf
    cases hf
    exact he rfl

theorem ne_tokens_of_not_finished {e : WalkError}
    (hts : feedAll .silent limit ts {} () = .ok a ()) (hf : a.finish = .error e)
    (hv : v.DistinctNames) : ts ≠ v.tokens := by
  rintro rfl
  have hall : feedAll .silent (max limit v.nesting) v.tokens {} () = _ :=
    feedAll_tokens_eq_ok hv (Nat.le_max_right ..)
  cases (feedAll_silent_of_le (Nat.le_max_left ..) hts).symm.trans hall
  cases hf

end AssemblyM
end

namespace Assembly

variable {τ : Type} [TokenSource τ] {limit : Nat} {v : Value} {x y z : τ}

theorem run_silent_of_spells (hv : v.DistinctNames) (hn : v.nesting ≤ limit)
    (h : TokenSource.Spells x v z) :
    run .silent limit {} () x = ⟨.ok v, (), { document := some v }, z⟩ := by
  obtain ⟨y, hy, hz⟩ := h
  rw [run_of_hands hy (AssemblyM.feedAll_tokens_eq_ok hv hn), run_of_endOfInput hz]
  rfl

theorem run_silent_too_deep (hv : v.DistinctNames) (hn : limit < v.nesting)
    (h : TokenSource.Spells x v z) :
    (run .silent limit {} () x).result = .error (.tooDeep limit) := by
  obtain ⟨y, hy, hz⟩ := h
  have houtcome : (run .silent limit {} () x).outcome = _ := outcome_run_of_hands hy hz
  rw [feedAll_tokens_silent hv, within_of_lt hn] at houtcome
  exact congrArg Prod.fst houtcome

theorem run_silent_eq_ok_iff :
    (run .silent limit {} () x).result = .ok v ↔
      v.DistinctNames ∧ v.nesting ≤ limit ∧ ∃ z, TokenSource.Spells x v z := by
  constructor
  · intro h
    obtain ⟨ts, y, hy, hstop⟩ := TokenSource.exists_hands x
    cases hf : AssemblyM.feedAll .silent limit ts {} () with
    | error e s =>
      obtain ⟨_, _, _, _, _, _, _, _, _, hrun⟩ := run_of_hands_error hy hf
      rw [hrun] at h
      cases h
    | ok a s =>
      rw [run_of_hands hy hf] at h
      rcases hstop with ⟨z, hz⟩ | ⟨e, z, hz⟩
      · rw [run_of_endOfInput hz] at h
        obtain ⟨hv, rfl⟩ := (Rebuilt.empty.feedAll hf).of_finish h
        refine ⟨hv, ?_, z, y, hy, hz⟩
        by_contra hn
        rw [feedAll_tokens_silent hv, within_of_lt (Nat.not_le.1 hn)] at hf
        cases hf
      · rw [run_of_failed hz] at h
        cases h
  · rintro ⟨hv, hn, z, h⟩
    rw [run_silent_of_spells hv hn h]

end Assembly

/-! ### Lists of tokens -/

namespace TokenSource

variable {ts us y z : List Token} {v : Value}

theorem hands_list_iff : Hands ts us y ↔ ts = us ++ y ∧ Token.endOfInput ∉ us := by
  constructor
  · intro h
    refine ⟨?_, h.endOfInput_notMem⟩
    induction h with
    | nil => rfl
    | @cons x y z t us hn _ _ ih =>
      cases x with
      | nil =>
        cases hn
        contradiction
      | cons =>
        cases hn
        rw [ih, List.cons_append]
  · rintro ⟨rfl, hend⟩
    induction us with
    | nil => exact .nil y
    | cons t us ih =>
      rw [List.mem_cons, not_or] at hend
      exact .cons rfl (Ne.symm hend.1) (ih hend.2)

theorem next_list_eq : TokenSource.next ts = .ok (ts.head?.getD .endOfInput) ts.tail := by
  cases ts <;> rfl

/-- A list says that the input has ended if it has no token before the end of the input. -/
theorem next_list_eq_endOfInput_iff : TokenSource.next ts = .ok .endOfInput z ↔
    ts.dropWhile (· ≠ .endOfInput) = ts ∧ z = ts.tail := by
  rw [next_list_eq, EStateM.Result.ok.injEq, List.dropWhile_eq_self_iff, eq_comm (b := z)]
  cases ts <;> simp

theorem endOfInput_prefix (h : ts.dropWhile (· ≠ .endOfInput) = ts) :
    [.endOfInput] <+: ts ++ [Token.endOfInput] := by
  rw [List.dropWhile_eq_self_iff] at h
  cases ts with
  | nil => exact List.prefix_rfl
  | cons t rest =>
    obtain rfl : t = .endOfInput := by simpa using h
    exact List.prefix_append _ _

theorem spells_list_iff : Spells ts v z ↔
    ts.takeWhile (· ≠ .endOfInput) = v.tokens ∧
      z = (ts.dropWhile (· ≠ .endOfInput)).tail := by
  have hpos : ∀ t ∈ v.tokens, decide (t ≠ .endOfInput) = true := by
    intro t ht
    simpa using ne_of_mem_of_not_mem ht v.endOfInput_notMem_tokens
  constructor
  · rintro ⟨y, hy, hz⟩
    obtain ⟨rfl, hend⟩ := hands_list_iff.1 hy
    obtain ⟨hdrop, rfl⟩ := next_list_eq_endOfInput_iff.1 hz
    have htake : y.takeWhile (· ≠ .endOfInput) = [] := by
      have := List.takeWhile_append_dropWhile (p := (· ≠ .endOfInput)) (l := y)
      rwa [hdrop, List.append_left_eq_self] at this
    rw [List.takeWhile_append_of_pos hpos, List.dropWhile_append_of_pos hpos, htake, hdrop]
    exact ⟨List.append_nil _, rfl⟩
  · rintro ⟨htake, rfl⟩
    refine ⟨ts.dropWhile (· ≠ .endOfInput), hands_list_iff.2 ⟨?_, v.endOfInput_notMem_tokens⟩, ?_⟩
    · rw [← htake, List.takeWhile_append_dropWhile]
    · refine next_list_eq_endOfInput_iff.2 ⟨?_, rfl⟩
      exact List.dropWhile_idempotent ..

end TokenSource

namespace StreamWalk

/-- The results of `n` walks that read on where the one before has ended, and what is left then. -/
def readTimes {τ : Type} [TokenSource τ] (w : StreamWalk) :
    Nat → τ → List (Except WalkError Value) × τ
  | 0, x => ([], x)
  | n + 1, x =>
    let e := w.walk .silent () x
    let (results, y) := (w.next e).readTimes n e.source
    (e.result :: results, y)

variable {w : StreamWalk} {ts rest : List Token} {v : Value}

theorem walk_silent_eq_ok_iff :
    (w.walk .silent () ts).result = .ok v ↔
      v.DistinctNames ∧ v.nesting ≤ w.limits.maxDepth ∧
        ts.takeWhile (· ≠ .endOfInput) = v.tokens := by
  rw [walk_eq_run, Assembly.run_silent_eq_ok_iff]
  simp only [TokenSource.spells_list_iff, exists_and_left, exists_eq, and_true]

theorem walk_silent_source (h : (w.walk .silent () ts).result = .ok v) :
    (w.walk .silent () ts).source = (ts.dropWhile (· ≠ .endOfInput)).tail := by
  obtain ⟨hv, hn, htake⟩ := walk_silent_eq_ok_iff.1 h
  rw [walk_eq_run,
    Assembly.run_silent_of_spells hv hn (TokenSource.spells_list_iff.2 ⟨htake, rfl⟩)]

theorem readTimes_documents {vs : List Value}
    (h : ∀ v ∈ vs, v.DistinctNames ∧ v.nesting ≤ w.limits.maxDepth) :
    w.readTimes vs.length (vs.flatMap (fun v => v.tokens ++ [.endOfInput]) ++ rest) =
      (vs.map .ok, rest) := by
  induction vs generalizing w with
  | nil => rfl
  | cons v vs ih =>
    obtain ⟨⟨hv, hn⟩, hvs⟩ := List.forall_mem_cons.1 h
    have hspells : TokenSource.Spells
        ((v :: vs).flatMap (fun v => v.tokens ++ [.endOfInput]) ++ rest) v
        (vs.flatMap (fun v => v.tokens ++ [.endOfInput]) ++ rest) := by
      refine ⟨.endOfInput :: (vs.flatMap (fun v => v.tokens ++ [.endOfInput]) ++ rest),
        TokenSource.hands_list_iff.2 ⟨?_, v.endOfInput_notMem_tokens⟩, rfl⟩
      simp
    rw [List.length_cons, readTimes, walk_eq_run, Assembly.run_silent_of_spells hv hn hspells]
    have hrest := ih (w := w.next
      (⟨.ok v, (), { document := some v }, rest⟩ : StreamEnd (List Token) Unit)) hvs
    simp only [next] at hrest ⊢
    rw [hrest, List.map_cons]

/-- A refusal comes at the first token that no document has behind those before it. -/
theorem walk_silent_refusal {found : Misfit} {within : Option NodeKind}
    (h : (w.walk .silent () ts).result = .error (.structural found within)) :
    ∃ before t, before ++ [t] <+: ts ++ [.endOfInput] ∧
      (w.walk .silent () ts).source = ts.drop (before.length + 1) ∧
      (∃ v : Value, v.DistinctNames ∧ before <+: v.tokens) ∧
      ∀ v : Value, v.DistinctNames → ¬ before ++ [t] <+: v.tokens ++ [.endOfInput] := by
  rw [walk_eq_run] at h ⊢
  obtain ⟨us, y, hy, hstop⟩ := TokenSource.exists_hands ts
  cases hf : AssemblyM.feedAll .silent w.limits.maxDepth us {} () with
  | ok a _ =>
    rcases hstop with ⟨z, hz⟩ | ⟨e, z, hz⟩
    · rw [Assembly.run_of_hands hy hf, Assembly.run_of_endOfInput hz] at h ⊢
      obtain ⟨rfl, -⟩ := TokenSource.hands_list_iff.1 hy
      obtain ⟨hdrop, rfl⟩ := TokenSource.next_list_eq_endOfInput_iff.1 hz
      refine ⟨us, .endOfInput, ?_, ?_, (Rebuilt.empty.feedAll hf).exists_document, ?_⟩
      · rw [List.append_assoc]
        exact (List.prefix_append_right_inj us).2 (TokenSource.endOfInput_prefix hdrop)
      · simp
      · intro v hv hpre
        rcases List.prefix_concat_iff.1 hpre with heq | hpre
        · exact AssemblyM.ne_tokens_of_not_finished hf h hv (List.append_cancel_right heq)
        · exact v.endOfInput_notMem_tokens (hpre.subset (by simp))
    · rw [TokenSource.next_list_eq] at hz
      cases hz
  | error e _ =>
    obtain ⟨before, t, a, _, left, z, hz, hbefore, ht, hrun⟩ := Assembly.run_of_hands_error hy hf
    rw [hrun] at h ⊢
    cases h
    obtain ⟨rfl, hend⟩ := TokenSource.hands_list_iff.1 hz
    refine ⟨before, t, ?_, ?_, (Rebuilt.empty.feedAll hbefore).exists_document, ?_⟩
    · rw [List.append_assoc]
      exact List.prefix_append _ _
    · simp
    · intro v hv hpre
      rcases List.prefix_concat_iff.1 hpre with heq | hpre
      · exact hend (heq ▸ by simp)
      · exact AssemblyM.not_prefix_of_refused hbefore ht nofun hv hpre

/-- Unless a document is nested too deep, a silent walk undoes the flattening of documents into
tokens, consumes just the tokens of one document, and refuses others at the earliest token. -/
theorem walk_silent_inverts_tokens (w : StreamWalk) (ts : List Token)
    (hdepth : ∀ limit, (w.walk .silent () ts).result ≠ .error (.tooDeep limit)) :
    (∀ v, (w.walk .silent () ts).result = .ok v ↔
      v.DistinctNames ∧ ts.takeWhile (· ≠ .endOfInput) = v.tokens) ∧
    (∀ v, (w.walk .silent () ts).result = .ok v →
      (w.walk .silent () ts).source = (ts.dropWhile (· ≠ .endOfInput)).tail) ∧
    (∀ (vs : List Value) rest, ts = vs.flatMap (fun v => v.tokens ++ [.endOfInput]) ++ rest →
      (∀ v ∈ vs, v.DistinctNames ∧ v.nesting ≤ w.limits.maxDepth) →
      w.readTimes vs.length ts = (vs.map .ok, rest)) ∧
    (∀ found within, (w.walk .silent () ts).result = .error (.structural found within) →
      ∃ before t, before ++ [t] <+: ts ++ [.endOfInput] ∧
        (w.walk .silent () ts).source = ts.drop (before.length + 1) ∧
        (∃ v : Value, v.DistinctNames ∧ before <+: v.tokens) ∧
        ∀ v : Value, v.DistinctNames → ¬ before ++ [t] <+: v.tokens ++ [.endOfInput]) := by
  refine ⟨fun v => ⟨fun h => ?_, fun ⟨hv, htake⟩ => ?_⟩, fun v => walk_silent_source, ?_,
    fun _ _ => walk_silent_refusal⟩
  · obtain ⟨hv, -, htake⟩ := walk_silent_eq_ok_iff.1 h
    exact ⟨hv, htake⟩
  · refine walk_silent_eq_ok_iff.2 ⟨hv, ?_, htake⟩
    by_contra hn
    refine hdepth w.limits.maxDepth ?_
    rw [walk_eq_run]
    exact Assembly.run_silent_too_deep hv (Nat.not_le.1 hn)
      (TokenSource.spells_list_iff.2 ⟨htake, rfl⟩)
  · rintro vs rest rfl h
    exact readTimes_documents h

/-- A walker left in the middle of an array still reads one document and leaves the next. -/
theorem walk_silent_inverts_tokens_of_two_documents :
    let w : StreamWalk := { leftover := { frames := [⟨.array #[.null], .root, true⟩], depth := 1 } }
    let ts : List Token := [.beginObject, .name "a", .null, .endObject, .endOfInput, .null]
    (∀ limit, (w.walk .silent () ts).result ≠ .error (.tooDeep limit)) ∧
      (w.walk .silent () ts).result = .ok (.object [("a", .null)]) ∧
      (w.walk .silent () ts).source = [.null] := by
  intro w ts
  have hv : (Value.object [("a", .null)]).DistinctNames := ⟨by decide, trivial, trivial⟩
  have hdepth : ∀ limit, (w.walk .silent () ts).result ≠ .error (.tooDeep limit) := by
    rw [walk_silent_eq_ok_iff.2 ⟨hv, by decide, by decide⟩]
    nofun
  obtain ⟨hok, hsource, -, -⟩ := walk_silent_inverts_tokens w ts hdepth
  have h := (hok _).2 ⟨hv, by decide⟩
  exact ⟨hdepth, h, hsource _ h⟩

end StreamWalk
end JsonWalk
