import JsonWalk.Proofs.Lexing
import JsonWalk.Proofs.SilentWalk

/-!
# Texts that are accepted

The lexer hands out the tokens of a document exactly if the text denotes the document, so a silent
walk over a text accepts just the JSON texts without repeated names.
-/

namespace JsonWalk.Lexer

open Grammar TokenSource

inductive Steps : List UInt8 → List Scope → Bool → List Token → List UInt8 → List Scope → Bool →
    Prop
  | nil (t : List UInt8) (scopes : List Scope) (begun : Bool) :
    Steps t scopes begun [] t scopes begun
  | cons {t t' r : List UInt8} {scopes scopes₁ scopes' : List Scope} {begun begun₁ begun' : Bool}
      {u : Token} {us : List Token} :
    Reads t scopes begun u t' scopes₁ begun₁ → u ≠ .endOfInput →
      Steps t' scopes₁ begun₁ us r scopes' begun' → Steps t scopes begun (u :: us) r scopes' begun'

variable {capacity offset : Nat} {t t' r : List UInt8} {scopes scopes' : List Scope}
  {begun begun' : Bool} {us ws : List Token}

theorem steps_append : Steps t scopes begun (us ++ ws) r scopes' begun' ↔
    ∃ t₁ scopes₁ begun₁, Steps t scopes begun us t₁ scopes₁ begun₁ ∧
      Steps t₁ scopes₁ begun₁ ws r scopes' begun' := by
  constructor
  · intro h
    induction us generalizing t scopes begun with
    | nil => exact ⟨t, scopes, begun, .nil t scopes begun, h⟩
    | cons u us ih =>
      cases h with
      | cons hu hend h =>
        obtain ⟨t₁, scopes₁, begun₁, h₁, h₂⟩ := ih h
        exact ⟨t₁, scopes₁, begun₁, .cons hu hend h₁, h₂⟩
  · rintro ⟨t₁, scopes₁, begun₁, h₁, h₂⟩
    induction h₁ with
    | nil => exact h₂
    | cons hu hend _ ih => exact .cons hu hend (ih h₂)

theorem steps_singleton {u : Token} : Steps t scopes begun [u] r scopes' begun' ↔
    Reads t scopes begun u r scopes' begun' ∧ u ≠ .endOfInput := by
  constructor
  · rintro (_ | ⟨hu, hend, ⟨⟩⟩)
    exact ⟨hu, hend⟩
  · rintro ⟨hu, hend⟩
    exact .cons hu hend (.nil r scopes' begun')

theorem Reads.begun_of_ne_nil {u : Token} (h : Reads t scopes begun u r scopes' begun')
    (hs : scopes' ≠ []) : begun' = true := by
  cases h with
  | endOfInput => exact absurd rfl hs
  | _ => rfl

theorem hands_atHand (h : Steps t scopes begun us r scopes' begun') (offset : Nat) :
    ∃ offset', Hands (atHand capacity offset t scopes begun) us
      (atHand capacity offset' r scopes' begun') := by
  induction h generalizing offset with
  | nil => exact ⟨offset, .nil _⟩
  | cons hu hend _ ih =>
    obtain ⟨offset₁, hnext⟩ := next_atHand hu
    obtain ⟨offset', hands⟩ := ih offset₁
    exact ⟨offset', .cons hnext hend hands⟩

theorem of_hands_atHand {y : Lexer} (hbegun : scopes ≠ [] → begun = true)
    (h : Hands (atHand capacity offset t scopes begun) us y) :
    ∃ offset' r scopes' begun', Steps t scopes begun us r scopes' begun' ∧
      (scopes' ≠ [] → begun' = true) ∧ y = atHand capacity offset' r scopes' begun' := by
  induction us generalizing offset t scopes begun with
  | nil =>
    cases h
    exact ⟨offset, t, scopes, begun, .nil t scopes begun, hbegun, rfl⟩
  | cons u us ih =>
    cases h with
    | cons hnext hend h =>
      obtain ⟨offset₁, t₁, scopes₁, begun₁, hu, rfl⟩ := of_next_atHand hbegun hnext
      obtain ⟨offset', r, scopes', begun', hus, hbegun', hy⟩ := ih hu.begun_of_ne_nil h
      exact ⟨offset', r, scopes', begun', .cons hu hend hus, hbegun', hy⟩

/-! ### Tokens of a document -/

theorem Reads.exists_yields {u : Token} (h : Reads t scopes begun u r scopes' begun')
    (hu : u ≠ .endOfInput) (hname : ∀ name, u ≠ .name name)
    (hclose : u ≠ .endArray ∧ u ≠ .endObject) :
    ∃ t' push scopes₁, Leads t scopes begun t' scopes₁ ∧ Yields t' u r push ∧
      scopes' = push ++ scopes₁ ∧ begun' = true := by
  cases h with
  | value hlead hyields => exact ⟨_, _, _, hlead, hyields, rfl, rfl⟩
  | endOfInput => exact absurd rfl hu
  | firstName => exact absurd rfl (hname _)
  | nextName => exact absurd rfl (hname _)
  | endArray => exact absurd rfl hclose.1
  | endObject => exact absurd rfl hclose.2

mutual

/-- The tokens of a document are read from a text that denotes it. -/
theorem denotes_of_steps : ∀ (v : Value) {t r : List UInt8} {scopes scopes' : List Scope}
    {begun begun' : Bool}, Steps t scopes begun v.tokens r scopes' begun' →
      ∃ t', Leads t scopes begun t' scopes' ∧ Denotes t' v r ∧ begun' = true
  | .null, _, _, _, _, _, _, h => by
    obtain ⟨hu, -⟩ := steps_singleton.1 h
    obtain ⟨t', _, _, hlead, hyields, rfl, rfl⟩ := hu.exists_yields nofun nofun ⟨nofun, nofun⟩
    cases hyields
    exact ⟨_, hlead, .null _, rfl⟩
  | .bool b, _, _, _, _, _, _, h => by
    obtain ⟨hu, -⟩ := steps_singleton.1 h
    obtain ⟨t', _, _, hlead, hyields, rfl, rfl⟩ := hu.exists_yields nofun nofun ⟨nofun, nofun⟩
    cases hyields with
    | true => exact ⟨_, hlead, .true _, rfl⟩
    | false => exact ⟨_, hlead, .false _, rfl⟩
  | .number n, _, _, _, _, _, _, h => by
    obtain ⟨hu, -⟩ := steps_singleton.1 h
    obtain ⟨t', _, _, hlead, hyields, rfl, rfl⟩ := hu.exists_yields nofun nofun ⟨nofun, nofun⟩
    cases hyields with
    | number hl hn _ => exact ⟨_, hlead, .number _ hl hn, rfl⟩
  | .string s, _, _, _, _, _, _, h => by
    obtain ⟨hu, -⟩ := steps_singleton.1 h
    obtain ⟨t', _, _, hlead, hyields, rfl, rfl⟩ := hu.exists_yields nofun nofun ⟨nofun, nofun⟩
    cases hyields with
    | string hq => exact ⟨_, hlead, .string hq, rfl⟩
  | .array items, _, _, _, _, _, _, h => by
    cases h with
    | cons hu _ h =>
      obtain ⟨t', _, _, hlead, hyields, rfl, rfl⟩ := hu.exists_yields nofun nofun ⟨nofun, nofun⟩
      cases hyields
      obtain ⟨hitems, rfl, rfl⟩ := (items_of_steps items).1 h
      exact ⟨_, hlead, hitems, rfl⟩
  | .object members, _, _, _, _, _, _, h => by
    cases h with
    | cons hu _ h =>
      obtain ⟨t', _, _, hlead, hyields, rfl, rfl⟩ := hu.exists_yields nofun nofun ⟨nofun, nofun⟩
      cases hyields
      obtain ⟨hmembers, rfl, rfl⟩ := (members_of_steps members).1 h
      exact ⟨_, hlead, hmembers, rfl⟩

theorem items_of_steps : ∀ (items : List Value) {t r : List UInt8} {scopes scopes' : List Scope}
    {begun' : Bool},
    (Steps t (.emptyArray :: scopes) true (Value.itemTokens items ++ [.endArray]) r scopes' begun' →
      Denotes ('['.toUInt8 :: t) (.array items) r ∧ scopes' = scopes ∧ begun' = true) ∧
    (Steps t (.array :: scopes) true (Value.itemTokens items ++ [.endArray]) r scopes' begun' →
      MoreItems t items r ∧ scopes' = scopes ∧ begun' = true)
  | [], _, _, _, _, _ => by
    constructor <;> intro h
    · obtain ⟨hu, -⟩ := steps_singleton.1 h
      cases hu with
      | endArray _ ht => exact ⟨.emptyArray ht, rfl, rfl⟩
      | value _ hyields => cases hyields
    · obtain ⟨hu, -⟩ := steps_singleton.1 h
      cases hu with
      | endArray _ ht => exact ⟨.done ht, rfl, rfl⟩
      | value _ hyields => cases hyields
  | v :: items, _, _, _, _, _ => by
    constructor <;> intro h
    · rw [Value.itemTokens_cons_append] at h
      obtain ⟨_, _, _, hsteps, h⟩ := steps_append.1 h
      obtain ⟨_, hlead, hv, rfl⟩ := denotes_of_steps v hsteps
      cases hlead with
      | firstItem ht =>
        obtain ⟨hitems, rfl, rfl⟩ := (items_of_steps items).2 h
        exact ⟨.array ht hv hitems, rfl, rfl⟩
    · rw [Value.itemTokens_cons_append] at h
      obtain ⟨_, _, _, hsteps, h⟩ := steps_append.1 h
      obtain ⟨_, hlead, hv, rfl⟩ := denotes_of_steps v hsteps
      cases hlead with
      | nextItem ht hmore =>
        obtain ⟨hitems, rfl, rfl⟩ := (items_of_steps items).2 h
        exact ⟨.more ht hmore hv hitems, rfl, rfl⟩

theorem members_of_steps : ∀ (members : List (String × Value)) {t r : List UInt8}
    {scopes scopes' : List Scope} {begun' : Bool},
    (Steps t (.emptyObject :: scopes) true (Value.memberTokens members ++ [.endObject]) r scopes'
        begun' →
      Denotes ('\x7b'.toUInt8 :: t) (.object members) r ∧ scopes' = scopes ∧ begun' = true) ∧
    (Steps t (.object :: scopes) true (Value.memberTokens members ++ [.endObject]) r scopes'
        begun' →
      MoreMembers t members r ∧ scopes' = scopes ∧ begun' = true)
  | [], _, _, _, _, _ => by
    constructor <;> intro h
    · obtain ⟨hu, -⟩ := steps_singleton.1 h
      cases hu with
      | endObject _ ht => exact ⟨.emptyObject ht, rfl, rfl⟩
      | value _ hyields => cases hyields
    · obtain ⟨hu, -⟩ := steps_singleton.1 h
      cases hu with
      | endObject _ ht => exact ⟨.done ht, rfl, rfl⟩
      | value _ hyields => cases hyields
  | (name, v) :: members, _, _, _, _, _ => by
    have hvalue {t r : List UInt8} {scopes scopes' : List Scope} {begun' : Bool}
        (h : Steps t (.member :: scopes) true
          (v.tokens ++ (Value.memberTokens members ++ [.endObject])) r scopes' begun') :
        ∃ t₁ t₂ t₃, Blanks t (':'.toUInt8 :: t₁) ∧ Blanks t₁ t₂ ∧ Denotes t₂ v t₃ ∧
          MoreMembers t₃ members r ∧ scopes' = scopes ∧ begun' = true := by
      obtain ⟨_, _, _, hsteps, h⟩ := steps_append.1 h
      obtain ⟨_, hlead, hv, rfl⟩ := denotes_of_steps v hsteps
      cases hlead with
      | memberValue ht hmore =>
        obtain ⟨hmembers, rfl, rfl⟩ := (members_of_steps members).2 h
        exact ⟨_, _, _, ht, hmore, hv, hmembers, rfl, rfl⟩
    constructor <;> intro h
    · rw [Value.memberTokens_cons_append] at h
      cases h with
      | cons hu _ h =>
        cases hu with
        | firstName ht hq =>
          obtain ⟨_, _, _, hcolon, hmore, hv, hmembers, rfl, rfl⟩ := hvalue h
          exact ⟨.object ht (.mk hq hcolon hmore hv) hmembers, rfl, rfl⟩
        | value _ hyields => cases hyields
    · rw [Value.memberTokens_cons_append] at h
      cases h with
      | cons hu _ h =>
        cases hu with
        | nextName ht hname hq =>
          obtain ⟨_, _, _, hcolon, hmore, hv, hmembers, rfl, rfl⟩ := hvalue h
          exact ⟨.more ht hname (.mk hq hcolon hmore hv) hmembers, rfl, rfl⟩
        | value _ hyields => cases hyields

end

/-! ### Texts of a document -/

theorem stopsNumber_of_blanks (h : Blanks t r) (hr : StopsNumber r) : StopsNumber t := by
  cases h with
  | none => exact hr
  | @more b _ _ hb _ =>
    have hspec : ∀ b ∈ blanks, ¬ isNumberByte b := by
      decide +kernel
    rintro _ ⟨⟩
    exact hspec b hb

theorem stopsNumber_of_moreItems {items : List Value} (h : MoreItems t items r) :
    StopsNumber t := by
  cases h with
  | done ht => exact stopsNumber_of_blanks ht (by rintro _ ⟨⟩; decide)
  | more ht => exact stopsNumber_of_blanks ht (by rintro _ ⟨⟩; decide)

theorem stopsNumber_of_moreMembers {members : List (String × Value)}
    (h : MoreMembers t members r) : StopsNumber t := by
  cases h with
  | done ht => exact stopsNumber_of_blanks ht (by rintro _ ⟨⟩; decide)
  | more ht => exact stopsNumber_of_blanks ht (by rintro _ ⟨⟩; decide)

theorem steps_of_yields {u : Token} {push : List Scope} (hlead : Leads t scopes begun t' scopes')
    (h : Yields t' u r push) (hu : u ≠ .endOfInput) :
    Steps t scopes begun [u] r (push ++ scopes') true :=
  steps_singleton.2 ⟨.value hlead h, hu⟩

mutual

/-- From a text that denotes a document its tokens are read. -/
theorem steps_of_denotes : ∀ (v : Value) {t t' r : List UInt8} {scopes scopes' : List Scope}
    {begun : Bool}, Leads t scopes begun t' scopes' → Denotes t' v r → StopsNumber r →
      Steps t scopes begun v.tokens r scopes' true
  | .null, _, _, _, _, _, _, hlead, h, _ => by
    cases h
    exact steps_of_yields hlead (.null _) nofun
  | .bool b, _, _, _, _, _, _, hlead, h, _ => by
    cases h with
    | true => exact steps_of_yields hlead (.true _) nofun
    | false => exact steps_of_yields hlead (.false _) nofun
  | .number n, _, _, _, _, _, _, hlead, h, hr => by
    cases h with
    | number _ hl hn => exact steps_of_yields hlead (.number hl hn hr) nofun
  | .string s, _, _, _, _, _, _, hlead, h, _ => by
    cases h with
    | string hq => exact steps_of_yields hlead (.string hq) nofun
  | .array [], _, _, _, _, _, _, hlead, h, _ => by
    cases h with
    | emptyArray ht =>
      refine .cons (.value hlead (.beginArray _)) nofun ?_
      exact steps_singleton.2 ⟨.endArray (.inl rfl) ht, nofun⟩
  | .array (v :: items), _, _, _, _, _, _, hlead, h, _ => by
    cases h with
    | array ht hv hitems =>
      refine .cons (.value hlead (.beginArray _)) nofun ?_
      rw [Value.itemTokens_cons_append]
      refine steps_append.2 ⟨_, _, _, ?_, steps_of_moreItems items hitems⟩
      exact steps_of_denotes v (.firstItem ht) hv (stopsNumber_of_moreItems hitems)
  | .object [], _, _, _, _, _, _, hlead, h, _ => by
    cases h with
    | emptyObject ht =>
      refine .cons (.value hlead (.beginObject _)) nofun ?_
      exact steps_singleton.2 ⟨.endObject (.inl rfl) ht, nofun⟩
  | .object ((name, v) :: members), _, _, _, _, _, _, hlead, h, _ => by
    cases h with
    | object ht hm hmembers =>
      obtain ⟨hq, hcolon, hmore, hv⟩ := hm
      refine .cons (.value hlead (.beginObject _)) nofun ?_
      rw [Value.memberTokens_cons_append]
      refine .cons (.firstName ht hq) nofun ?_
      refine steps_append.2 ⟨_, _, _, ?_, steps_of_moreMembers members hmembers⟩
      exact steps_of_denotes v (.memberValue hcolon hmore) hv (stopsNumber_of_moreMembers hmembers)

theorem steps_of_moreItems : ∀ (items : List Value) {t r : List UInt8} {scopes : List Scope},
    MoreItems t items r →
      Steps t (.array :: scopes) true (Value.itemTokens items ++ [.endArray]) r scopes true
  | [], _, _, _, h => by
    cases h with
    | done ht => exact steps_singleton.2 ⟨.endArray (.inr rfl) ht, nofun⟩
  | v :: items, _, _, _, h => by
    cases h with
    | more ht hmore hv hitems =>
      rw [Value.itemTokens_cons_append]
      refine steps_append.2 ⟨_, _, _, ?_, steps_of_moreItems items hitems⟩
      exact steps_of_denotes v (.nextItem ht hmore) hv (stopsNumber_of_moreItems hitems)

theorem steps_of_moreMembers : ∀ (members : List (String × Value)) {t r : List UInt8}
    {scopes : List Scope}, MoreMembers t members r →
      Steps t (.object :: scopes) true (Value.memberTokens members ++ [.endObject]) r scopes true
  | [], _, _, _, h => by
    cases h with
    | done ht => exact steps_singleton.2 ⟨.endObject (.inr rfl) ht, nofun⟩
  | (name, v) :: members, _, _, _, h => by
    cases h with
    | more ht hname hm hmembers =>
      obtain ⟨hq, hcolon, hmore, hv⟩ := hm
      rw [Value.memberTokens_cons_append]
      refine .cons (.nextName ht hname hq) nofun ?_
      refine steps_append.2 ⟨_, _, _, ?_, steps_of_moreMembers members hmembers⟩
      exact steps_of_denotes v (.memberValue hcolon hmore) hv (stopsNumber_of_moreMembers hmembers)

end

/-! ### Whole texts -/

theorem ofBytes_eq_atHand (bytes : List UInt8) :
    ofBytes bytes = atHand bytes.length 0 bytes [] false := rfl

theorem exists_spells_iff {bytes : List UInt8} {v : Value} :
    (∃ z, Spells (ofBytes bytes) v z) ↔ TextDenotes bytes v := by
  rw [ofBytes_eq_atHand]
  constructor
  · rintro ⟨z, y, hy, hz⟩
    obtain ⟨_, r, _, _, hsteps, hbegun, rfl⟩ := of_hands_atHand (absurd rfl) hy
    obtain ⟨t, hlead, hv, rfl⟩ := denotes_of_steps v hsteps
    obtain ⟨_, _, _, _, hu, -⟩ := of_next_atHand hbegun hz
    cases hlead with
    | document ht =>
      cases hu with
      | endOfInput _ hr => exact ⟨t, r, ht, hv, hr⟩
      | value _ hyields => cases hyields
  · rintro ⟨t, r, ht, hv, hr⟩
    have hstop : StopsNumber r := stopsNumber_of_blanks hr nofun
    obtain ⟨_, hy⟩ := hands_atHand (steps_of_denotes v (.document ht) hv hstop) 0
    obtain ⟨_, hz⟩ := next_atHand (.endOfInput true hr)
    exact ⟨_, _, hy, hz⟩

/-- A text is at least as long as its document is deep. -/
theorem nesting_le_of_spells {bytes : List UInt8} {v : Value} {z : Lexer}
    (h : Spells (ofBytes bytes) v z) : v.nesting ≤ bytes.length := by
  obtain ⟨y, hy, -⟩ := h
  have hspent := hy.length_add_remaining_le
  have hnesting := v.nesting_le_length_tokens
  have hbytes : TokenSource.remaining (ofBytes bytes) = bytes.length :=
    congrArg List.length (List.append_nil bytes)
  omega

end JsonWalk.Lexer

namespace JsonWalk.StreamWalk

open Grammar

theorem walkBytes_silent_eq_ok_iff {w : StreamWalk} {bytes : List UInt8} {v : Value} :
    (w.walkBytes .silent () bytes).result = .ok v ↔
      v.DistinctNames ∧ v.nesting ≤ w.limits.maxDepth ∧ TextDenotes bytes v := by
  have hwalk : w.walkBytes .silent () bytes =
      Assembly.run .silent w.limits.maxDepth {} () (Lexer.ofBytes bytes) := rfl
  rw [hwalk, Assembly.run_silent_eq_ok_iff, Lexer.exists_spells_iff]

/-- A silent walk accepts just the JSON texts whose objects have no two members of one name. -/
theorem walkBytes_accepts_grammar (w : StreamWalk) (bytes : List UInt8)
    (hdepth : bytes.length ≤ w.limits.maxDepth) (v : Value) :
    (w.walkBytes .silent () bytes).result = .ok v ↔ TextDenotes bytes v ∧ v.DistinctNames := by
  rw [walkBytes_silent_eq_ok_iff]
  constructor
  · rintro ⟨hv, -, htext⟩
    exact ⟨htext, hv⟩
  · rintro ⟨htext, hv⟩
    obtain ⟨z, hz⟩ := Lexer.exists_spells_iff.2 htext
    exact ⟨hv, (Lexer.nesting_le_of_spells hz).trans hdepth, htext⟩

/-- A text with blanks, an escape and containers inside one another. -/
theorem walkBytes_accepts_grammar_nested :
    let w : StreamWalk := {}
    let bytes := ascii " [1, \x7b\"\\u0061\":null\x7d]"
    bytes.length ≤ w.limits.maxDepth ∧
      (w.walkBytes .silent () bytes).result =
        .ok (.array [.number (.int 1), .object [("a", .null)]]) := by
  intro w bytes
  have hdepth : bytes.length ≤ w.limits.maxDepth := by decide
  have hone : Literal ⟨false, ['1'], none, none⟩ ['1'] :=
    .mk false ⟨List.cons_ne_nil _ _, List.forall_mem_singleton.2 rfl⟩ (.inr (by decide)) .none .none
  have hzero : IsHex '0' 0 := ⟨by decide, by decide⟩
  have hunit : HexUnit ['0', '0', '6', '1'] 0x61 :=
    .mk (k := 6) (l := 1) hzero hzero ⟨by decide, by decide⟩ ⟨by decide, by decide⟩
  have hname : Chars "\\u0061".toList ['a'] :=
    .escape (.units (.unit hunit (by decide))) .nil
  have hobject : Denotes (ascii "\x7b\"\\u0061\":null\x7d]") (.object [("a", .null)]) (ascii "]") :=
    .object (.none _) (.mk (.mk _ hname) (.none _) (.none _) (.null _)) (.done (.none _))
  have hrest : MoreItems (ascii ", \x7b\"\\u0061\":null\x7d]") [.object [("a", .null)]] [] :=
    .more (.none _) (.more (by decide) (.none _)) hobject (.done (.none _))
  have htext : TextDenotes bytes (.array [.number (.int 1), .object [("a", .null)]]) :=
    ⟨_, _, .more (by decide) (.none _), .array (.none _) (.number _ hone rfl) hrest, .none _⟩
  have hv : (Value.array [.number (.int 1), .object [("a", .null)]]).DistinctNames := by
    simp [Value.DistinctNames, Value.ItemsDistinct, Value.MembersDistinct]
  exact ⟨hdepth, (walkBytes_accepts_grammar w bytes hdepth _).2 ⟨htext, hv⟩⟩

end JsonWalk.StreamWalk
