import JsonWalk.Proofs.Outline
import JsonWalk.Proofs.Requests
import JsonWalk.Proofs.TextAcceptance

/-!
# The order of the tokens of a text

The open scopes of the lexer tell which parts of a document it has handed out, and every token that
it reads goes on with the document. So a walk over a text meets no token out of place. Names may
repeat, as the lexer does not look at them.
-/

namespace JsonWalk

open Grammar

namespace Lexer

/-! ### Parts of documents -/

/-- With these containers open and these tokens handed out, a value comes next. An object is open
for the member whose value that is. -/
inductive Awaits : List Scope → List Token → Prop
  | document : Awaits [] []
  | item {scopes : List Scope} {ts : List Token} (items : List Value) : Awaits scopes ts →
    Awaits (.array :: scopes) (ts ++ .beginArray :: Value.itemTokens items)
  | memberValue {scopes : List Scope} {ts : List Token} (members : List (String × Value))
    (name : String) : Awaits scopes ts →
    Awaits (.object :: scopes) (ts ++ .beginObject :: (Value.memberTokens members ++ [.name name]))

/-- The tokens handed out when these containers are open. -/
inductive Opened : List Scope → Bool → List Token → Prop
  | nothing : Opened [] false []
  | document (v : Value) : Opened [] true v.tokens
  | emptyArray {scopes : List Scope} {ts : List Token} : Awaits scopes ts →
    Opened (.emptyArray :: scopes) true (ts ++ [.beginArray])
  | array {scopes : List Scope} {ts : List Token} (items : List Value) : Awaits scopes ts →
    Opened (.array :: scopes) true (ts ++ .beginArray :: Value.itemTokens items)
  | emptyObject {scopes : List Scope} {ts : List Token} : Awaits scopes ts →
    Opened (.emptyObject :: scopes) true (ts ++ [.beginObject])
  | object {scopes : List Scope} {ts : List Token} (members : List (String × Value)) :
    Awaits scopes ts →
    Opened (.object :: scopes) true (ts ++ .beginObject :: Value.memberTokens members)
  | member {scopes : List Scope} {ts : List Token} (members : List (String × Value))
    (name : String) : Awaits scopes ts →
    Opened (.member :: scopes) true
      (ts ++ .beginObject :: (Value.memberTokens members ++ [.name name]))

variable {scopes scopes' : List Scope} {ts us : List Token} {begun begun' : Bool}
  {t t' r : List UInt8} {u : Token}

/-- Any value can come, and the document can be completed behind it. -/
theorem Awaits.exists_document (h : Awaits scopes ts) (v : Value) :
    ∃ w : Value, ts ++ v.tokens <+: w.tokens := by
  induction h generalizing v with
  | document => exact ⟨v, List.prefix_refl _⟩
  | item items _ ih =>
    obtain ⟨w, hw⟩ := ih (.array (items ++ [v]))
    refine ⟨w, .trans ⟨[.endArray], ?_⟩ hw⟩
    simp [Value.tokens, Value.itemTokens, Value.itemTokens_append]
  | memberValue members name _ ih =>
    obtain ⟨w, hw⟩ := ih (.object (members ++ [(name, v)]))
    refine ⟨w, .trans ⟨[.endObject], ?_⟩ hw⟩
    simp [Value.tokens, Value.memberTokens, Value.memberTokens_append]

theorem Awaits.opened (h : Awaits scopes ts) (v : Value) : Opened scopes true (ts ++ v.tokens) := by
  cases h with
  | document => exact .document v
  | item items h =>
    have hitems := Opened.array (items ++ [v]) h
    rw [Value.itemTokens_append] at hitems
    simpa [Value.itemTokens] using hitems
  | memberValue members name h =>
    have hmembers := Opened.object (members ++ [(name, v)]) h
    rw [Value.memberTokens_append] at hmembers
    simpa [Value.memberTokens] using hmembers

theorem Opened.exists_document (h : Opened scopes begun ts) : ∃ v : Value, ts <+: v.tokens := by
  -- what is open is completed by a value that is not there yet, or ended as it is
  have hawaits {scopes : List Scope} {ts us : List Token} (h : Awaits scopes ts) {v : Value}
      (hus : us <+: v.tokens) : ∃ w : Value, ts ++ us <+: w.tokens := by
    obtain ⟨w, hw⟩ := h.exists_document v
    exact ⟨w, ((List.prefix_append_right_inj ts).2 hus).trans hw⟩
  cases h with
  | nothing => exact ⟨.null, List.nil_prefix⟩
  | document v => exact ⟨v, List.prefix_refl _⟩
  | emptyArray h => exact hawaits h (v := .array []) ⟨[.endArray], rfl⟩
  | array items h => exact hawaits h (v := .array items) ⟨[.endArray], rfl⟩
  | emptyObject h => exact hawaits h (v := .object []) ⟨[.endObject], rfl⟩
  | object members h => exact hawaits h (v := .object members) ⟨[.endObject], rfl⟩
  | member members name h =>
    refine hawaits h (v := .object (members ++ [(name, .null)])) ⟨[.null, .endObject], ?_⟩
    simp [Value.tokens, Value.memberTokens, Value.memberTokens_append]

/-! ### Every token goes on with the document -/

theorem Leads.awaits (h : Leads t scopes begun t' scopes') (hts : Opened scopes begun ts) :
    Awaits scopes' ts := by
  cases h with
  | document =>
    cases hts
    exact .document
  | firstItem =>
    cases hts with
    | emptyArray h => exact .item [] h
  | nextItem =>
    cases hts with
    | array items h => exact .item items h
  | memberValue =>
    cases hts with
    | member members name h => exact .memberValue members name h

theorem Reads.opened (h : Reads t scopes begun u r scopes' begun') (hu : u ≠ .endOfInput)
    (hts : Opened scopes begun ts) : Opened scopes' begun' (ts ++ [u]) := by
  cases h with
  | endOfInput => exact absurd rfl hu
  | value hlead hyields =>
    have h := hlead.awaits hts
    cases hyields with
    | beginObject => exact .emptyObject h
    | beginArray => exact .emptyArray h
    | string => exact h.opened (.string _)
    | null => exact h.opened .null
    | true => exact h.opened (.bool true)
    | false => exact h.opened (.bool false)
    | number => exact h.opened (.number _)
  | firstName =>
    cases hts with
    | emptyObject h =>
      rw [List.append_assoc]
      exact .member [] _ h
  | nextName =>
    cases hts with
    | object members h =>
      rw [List.append_assoc]
      exact .member members _ h
  | endArray hscope =>
    cases hts with
    | emptyArray h =>
      rw [List.append_assoc]
      exact h.opened (.array [])
    | array items h =>
      rw [List.append_assoc]
      exact h.opened (.array items)
    | emptyObject | object | member => rcases hscope with h | h <;> cases h
  | endObject hscope =>
    cases hts with
    | emptyObject h =>
      rw [List.append_assoc]
      exact h.opened (.object [])
    | object members h =>
      rw [List.append_assoc]
      exact h.opened (.object members)
    | emptyArray | array | member => rcases hscope with h | h <;> cases h

theorem Steps.opened (h : Steps t scopes begun us r scopes' begun') (hts : Opened scopes begun ts) :
    Opened scopes' begun' (ts ++ us) := by
  induction h generalizing ts with
  | nil => rwa [List.append_nil]
  | cons hu hend _ ih =>
    rw [List.append_cons]
    exact ih (hu.opened hend hts)

/-! ### The end of the input -/

theorem blanks_iff_forall : Blanks t [] ↔ ∀ b ∈ t, b ∈ blanks := by
  constructor
  · intro h
    generalize hr : ([] : List UInt8) = r at h
    induction h with
    | none => subst hr; exact nofun
    | more hb _ ih => exact List.forall_mem_cons.2 ⟨hb, ih hr⟩
  · intro h
    induction t with
    | nil => exact .none []
    | cons b t ih => exact .more (h b List.mem_cons_self) (ih fun c hc => h c (.tail b hc))

theorem Reads.blanks_of_endOfInput (h : Reads t scopes begun .endOfInput r scopes' begun') :
    Blanks t [] := by
  cases h with
  | value _ hyields => cases hyields
  | endOfInput _ ht => exact ht

open TokenSource (Hands)

variable {bytes : List UInt8} {y z : Lexer}

/-- The tokens of a text are those of a document, as far as they go. -/
theorem exists_prefix_of_hands (h : Hands (ofBytes bytes) ts y) : ∃ v : Value, ts <+: v.tokens := by
  rw [ofBytes_eq_atHand] at h
  obtain ⟨_, _, _, _, hsteps, _, _⟩ := of_hands_atHand (absurd rfl) h
  exact (hsteps.opened .nothing).exists_document

/-- At the end of the input there is a whole document, unless there was nothing but blanks. -/
theorem tokens_of_endOfInput (h : Hands (ofBytes bytes) ts y)
    (hend : TokenSource.next y = .ok .endOfInput z) :
    ((∃ v : Value, ts = v.tokens) ∨ ts = [] ∧ ∀ b ∈ bytes, b ∈ blanks) ∧
      TokenSource.next z = .ok .endOfInput z := by
  rw [ofBytes_eq_atHand] at h
  obtain ⟨_, r, scopes, begun, hsteps, hbegun, rfl⟩ := of_hands_atHand (absurd rfl) h
  obtain ⟨_, _, _, _, hread, rfl⟩ := of_next_atHand hbegun hend
  cases hread with
  | value _ hyields => cases hyields
  | endOfInput _ hr =>
    refine ⟨?_, next_of_endOfInput hend⟩
    have hopened : Opened [] begun ts := hsteps.opened .nothing
    cases hopened with
    | document v => exact .inl ⟨v, rfl⟩
    | nothing =>
      cases hsteps
      exact .inr ⟨rfl, blanks_iff_forall.1 hr⟩

theorem next_eq_endOfInput_of_blanks (h : ∀ b ∈ bytes, b ∈ blanks) :
    ∃ z, TokenSource.next (ofBytes bytes) = .ok .endOfInput z := by
  obtain ⟨_, hz⟩ : ∃ offset, next (ofBytes bytes) = .ok .endOfInput (atHand _ offset [] [] false) :=
    next_of_blank (blanks_iff_forall.2 h)
  exact ⟨_, hz⟩

end Lexer
end JsonWalk
