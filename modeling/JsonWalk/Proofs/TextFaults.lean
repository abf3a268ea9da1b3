import JsonWalk.Proofs.TextAcceptance

/-!
# Where a text goes wrong

A fault is reported where what is at fault begins, or at the end of the text. In front of that place
there are blanks and punctuation that lead to a value or a name, or, if the text ends too early, a
part of a word or of a string.
-/

namespace JsonWalk

/-- The token neither opens a container nor names a member. -/
def Token.IsQuiet : Token → Prop
  | .beginObject | .beginArray | .name _ | .endOfInput => False
  | .endObject | .endArray | .string _ | .number _ | .bool _ | .null => True

namespace Lexer

open Grammar
open StringLiteral (quoteByte)

/-! ### What stands in front of a fault -/

/-- Goes on over strings and what is between them; the state tells whether a string is open, and if
so whether a backslash stands in front. -/
def quoteStep : Option Bool → UInt8 → Option Bool
  | none, b => if b = quoteByte then some false else none
  | some escaped, b => stringStep escaped b

/-- Every string that begins in these bytes also ends in them. -/
def ClosesStrings (front : List UInt8) : Prop := front.foldl quoteStep none = none

/-- There is no closing quote in these bytes. -/
def StaysInside (raw : List UInt8) : Prop := (raw.foldlM stringStep false).isSome

inductive Approaches (scopes : List Scope) (begun : Bool) (lead : List UInt8) : Prop
  | value (scopes' : List Scope) : (∀ t, Leads (lead ++ t) scopes begun t scopes') →
    Approaches scopes begun lead
  | name (outer : List Scope) : ClosesStrings lead → (∀ t name r, Quoted t name r →
      Reads (lead ++ t) scopes begun (.name name) r (.member :: outer) true) →
    Approaches scopes begun lead

/-- What can stand in front of a fault. A string that has not ended is one at the end of the
input. -/
inductive Unfinished (scopes : List Scope) (begun : Bool) (fault : TextFault) : List UInt8 → Prop
  | blanks {gap : List UInt8} : (∀ b ∈ gap, b ∈ blanks) → Unfinished scopes begun fault gap
  | lead {gap : List UInt8} : Approaches scopes begun gap → Unfinished scopes begun fault gap
  | word {lead front back : List UInt8} {scopes' : List Scope} {u : Token} :
    (∀ t, Leads (lead ++ t) scopes begun t scopes') → front ≠ [] → u.IsQuiet →
      (∀ r, Yields (front ++ (back ++ r)) u r []) → Unfinished scopes begun fault (lead ++ front)
  | string {lead raw : List UInt8} : fault = .endOfInput → Approaches scopes begun lead →
    StaysInside raw → Unfinished scopes begun fault (lead ++ quoteByte :: raw)

/-- The fault lies in the bytes `t`, which stand at `offset` behind `lead`. -/
def StopsIn (scopes : List Scope) (begun : Bool) (lead t : List UInt8) (offset place : Nat)
    (fault : TextFault) : Prop :=
  ∃ gap rest, t = gap ++ rest ∧ place = offset + gap.length ∧ (fault = .endOfInput → rest = []) ∧
    Unfinished scopes begun fault (lead ++ gap)

section

variable {gap front back raw : List UInt8}

theorem ClosesStrings.append (h : ClosesStrings front) (hback : ClosesStrings back) :
    ClosesStrings (front ++ back) := by
  rw [ClosesStrings, List.foldl_append, h, hback]

theorem closesStrings_of_notMem (h : quoteByte ∉ front) : ClosesStrings front := by
  induction front with
  | nil => rfl
  | cons b front ih =>
    obtain ⟨hb, hfront⟩ := not_or.1 (mt List.mem_cons.2 h)
    rw [ClosesStrings, List.foldl_cons, quoteStep, if_neg (Ne.symm hb)]
    exact ih hfront

theorem closesStrings_of_blanks (h : ∀ b ∈ gap, b ∈ blanks) : ClosesStrings gap :=
  closesStrings_of_notMem fun hmem => absurd (h quoteByte hmem) (by decide)

theorem closesStrings_between {gap' : List UInt8} {b : UInt8} (hgap : ∀ b ∈ gap, b ∈ blanks)
    (hgap' : ∀ b ∈ gap', b ∈ blanks) (hb : quoteByte ≠ b) :
    ClosesStrings (gap ++ [b] ++ gap') := by
  have hlone : ClosesStrings [b] := closesStrings_of_notMem fun h => hb (List.mem_singleton.1 h)
  exact ((closesStrings_of_blanks hgap).append hlone).append (closesStrings_of_blanks hgap')

theorem foldl_quoteStep {escaped escaped' : Bool}
    (h : raw.foldlM stringStep escaped = some escaped') :
    raw.foldl quoteStep (some escaped) = some escaped' := by
  induction raw generalizing escaped with
  | nil => exact h
  | cons b raw ih =>
    rw [List.foldlM_cons] at h
    obtain ⟨next, hnext, h⟩ := Option.bind_eq_some_iff.1 h
    rw [List.foldl_cons, quoteStep, hnext]
    exact ih h

end

section

variable {scopes : List Scope} {begun : Bool} {lead t : List UInt8} {offset place : Nat}
  {fault : TextFault}

theorem StopsIn.shift (gap : List UInt8)
    (h : StopsIn scopes begun (lead ++ gap) t (offset + gap.length) place fault) :
    StopsIn scopes begun lead (gap ++ t) offset place fault := by
  obtain ⟨gap', rest, rfl, hplace, hrest, hgap⟩ := h
  refine ⟨gap ++ gap', rest, (List.append_assoc ..).symm, ?_, hrest, ?_⟩
  · rw [hplace, List.length_append, Nat.add_assoc]
  · rwa [← List.append_assoc]

theorem stopsIn_front (h : Unfinished scopes begun fault lead) (hfault : fault ≠ .endOfInput)
    (t : List UInt8) (offset : Nat) : StopsIn scopes begun lead t offset offset fault :=
  ⟨[], t, rfl, rfl, fun h => absurd h hfault, by rwa [List.append_nil]⟩

theorem stopsIn_end (h : Unfinished scopes begun fault (lead ++ t)) (offset : Nat) :
    StopsIn scopes begun lead t offset (offset + t.length) fault :=
  ⟨t, [], (List.append_nil t).symm, rfl, fun _ => rfl, h⟩

/-- What begins at `offset` is blamed as a whole, unless the text ends inside it. -/
def Blames (t : List UInt8) (offset place : Nat) (fault : TextFault) (inside : Prop) : Prop :=
  place = offset ∧ fault ≠ .endOfInput ∨
    place = offset + t.length ∧ fault = .endOfInput ∧ inside

theorem Blames.mono {inside inside' : Prop} (h : Blames t offset place fault inside)
    (himp : inside → inside') : Blames t offset place fault inside' := by
  rcases h with h | ⟨hplace, hfault, h⟩
  · exact .inl h
  · exact .inr ⟨hplace, hfault, himp h⟩

theorem Blames.stopsIn {inside : Prop} (h : Blames t offset place fault inside)
    (hlead : Unfinished scopes begun fault lead)
    (hinside : fault = .endOfInput → inside → Unfinished scopes begun fault (lead ++ t)) :
    StopsIn scopes begun lead t offset place fault := by
  rcases h with ⟨rfl, hfault⟩ | ⟨rfl, hfault, h⟩
  · exact stopsIn_front hlead hfault t place
  · exact stopsIn_end (hinside hfault h) offset

end

/-! ### Words, numbers and strings -/

section

variable {capacity offset place : Nat} {t : List UInt8} {scopes : List Scope} {begun : Bool}
  {b : UInt8} {fault : TextFault} {z : Lexer}

theorem of_readWord_error {start : Nat} {word expected : List UInt8}
    (h : readWord start word expected (atHand capacity offset t scopes begun) =
      .error (.malformed place fault) z) :
    place = start ∧ fault ≠ .endOfInput ∨
      place = offset + t.length ∧ fault = .endOfInput ∧ t <+: expected := by
  induction expected generalizing t offset with
  | nil => cases h
  | cons c expected ih =>
    cases t with
    | nil =>
      rw [readWord, bind_of_error nextByte_atHand_nil] at h
      cases h
      exact .inr ⟨rfl, rfl, List.nil_prefix⟩
    | cons d t =>
      rw [readWord, bind_of_ok nextByte_atHand_cons] at h
      split at h
      · next hd =>
        subst hd
        rcases ih h with hstart | ⟨hplace, hfault, hprefix⟩
        · exact .inl hstart
        · refine .inr ⟨?_, hfault, (List.prefix_cons_inj d).2 hprefix⟩
          rw [hplace, List.length_cons]
          omega
      · cases h
        exact .inl ⟨rfl, by simp⟩

theorem blames_of_readLiteral {word : List UInt8} {u : Token}
    (h : readLiteral word u (atHand capacity offset t scopes begun) =
      .error (.malformed place fault) z) : Blames t offset place fault (t <+: word) := by
  rw [readLiteral, bind_of_ok (by rfl)] at h
  rcases bind_eq_error_iff.1 h with h | ⟨_, _, -, h⟩
  · exact of_readWord_error h
  · cases h

theorem blames_of_readNumber {inside : Prop}
    (h : readNumber (atHand capacity offset t scopes begun) = .error (.malformed place fault) z) :
    Blames t offset place fault inside := by
  rw [readNumber_atHand_eq] at h
  dsimp only at h
  split at h
  · cases h
  · cases h
    exact .inl ⟨rfl, by simp⟩

theorem blames_of_readString
    (h : readString (atHand capacity offset (quoteByte :: t) scopes begun) =
      .error (.malformed place fault) z) :
    Blames (quoteByte :: t) offset place fault (StaysInside t) := by
  rw [readString_atHand_eq] at h
  obtain ⟨k, hscan, -⟩ := stops_behind stringStep false t
  have happend := run_append_behind stringStep false t
  cases hb : behind stringStep false t with
  | nil =>
    rw [hb, List.append_nil] at happend
    rw [hb, happend] at h
    rw [happend] at hscan
    cases h
    refine .inr ⟨?_, rfl, ?_⟩
    · rw [List.length_cons]
      omega
    · rw [StaysInside, hscan]
      rfl
  | cons q r =>
    rw [hb] at h
    dsimp only at h
    split at h
    · cases h
    · cases h
      exact .inl ⟨rfl, by simp⟩

/-! ### Values and names -/

def EndsInValue (t : List UInt8) : Prop :=
  (∃ back u, u.IsQuiet ∧ ∀ r, Yields (t ++ (back ++ r)) u r []) ∨
    ∃ raw, t = quoteByte :: raw ∧ StaysInside raw

theorem blames_of_readValue
    (h : readValue b (atHand capacity offset (b :: t) scopes begun) =
      .error (.malformed place fault) z) :
    Blames (b :: t) offset place fault (EndsInValue (b :: t)) := by
  have hword {word : List UInt8} {u : Token} (hu : u.IsQuiet)
      (hyields : ∀ r, Yields (word ++ r) u r [])
      (h : readLiteral word u (atHand capacity offset (b :: t) scopes begun) =
        .error (.malformed place fault) z) :
      Blames (b :: t) offset place fault (EndsInValue (b :: t)) := by
    refine (blames_of_readLiteral h).mono ?_
    rintro ⟨back, hback⟩
    refine .inl ⟨back, u, hu, fun r => ?_⟩
    rw [← List.append_assoc, hback]
    exact hyields r
  unfold readValue at h
  split at h
  · next hb =>
    subst hb
    cases h
  split at h
  · next hb =>
    subst hb
    cases h
  split at h
  · next hb =>
    subst hb
    rcases bind_eq_error_iff.1 h with h | ⟨_, _, -, h⟩
    · exact (blames_of_readString h).mono fun hraw => .inr ⟨t, rfl, hraw⟩
    · cases h
  split at h
  · exact hword (u := .bool true) trivial .true h
  split at h
  · exact hword (u := .bool false) trivial .false h
  split at h
  · exact hword (u := .null) trivial .null h
  split at h
  · exact blames_of_readNumber h
  · cases h
    exact .inl ⟨rfl, by simp⟩

theorem blames_of_readName {scope : Scope}
    (h : readName b (atHand capacity offset (b :: t) (scope :: scopes) begun) =
      .error (.malformed place fault) z) :
    Blames (b :: t) offset place fault (b = quoteByte ∧ StaysInside t) := by
  unfold readName at h
  split at h
  · next hb =>
    subst hb
    rcases bind_eq_error_iff.1 h with h | ⟨_, _, -, h⟩
    · exact (blames_of_readString h).mono fun hraw => ⟨rfl, hraw⟩
    · cases h
  · cases h
    exact .inl ⟨rfl, by simp⟩

variable {scopes₀ scopes' : List Scope} {begun₀ : Bool} {lead : List UInt8}

theorem stopsIn_readValue (hlead : ∀ t, Leads (lead ++ t) scopes₀ begun₀ t scopes')
    (h : readValue b (atHand capacity offset (b :: t) scopes begun) =
      .error (.malformed place fault) z) :
    StopsIn scopes₀ begun₀ lead (b :: t) offset place fault := by
  refine (blames_of_readValue h).stopsIn (.lead (.value scopes' hlead)) ?_
  rintro hfault (⟨back, u, hu, hyields⟩ | ⟨raw, hraw, hinside⟩)
  · exact .word hlead (List.cons_ne_nil b t) hu hyields
  · rw [hraw]
    exact .string hfault (.value scopes' hlead) hinside

theorem stopsIn_readName {scope : Scope} (hlead : Approaches scopes₀ begun₀ lead)
    (h : readName b (atHand capacity offset (b :: t) (scope :: scopes) begun) =
      .error (.malformed place fault) z) :
    StopsIn scopes₀ begun₀ lead (b :: t) offset place fault := by
  refine (blames_of_readName h).stopsIn (.lead hlead) ?_
  rintro hfault ⟨rfl, hinside⟩
  exact .string hfault hlead hinside

/-! ### Tokens -/

theorem blanks_append {gap : List UInt8} (h : ∀ b ∈ gap, b ∈ blanks) (t : List UInt8) :
    Blanks (gap ++ t) t := by
  induction gap with
  | nil => exact .none t
  | cons b gap ih =>
    rw [List.forall_mem_cons] at h
    exact .more h.1 (ih h.2)

theorem mem_blanks_of_mem_takeWhile (hb : b ∈ t.takeWhile isBlank) : b ∈ blanks :=
  isBlank_iff.1 (List.mem_takeWhile_imp hb)

theorem stopsIn_expectMore {α : Type} {f : UInt8 → LexM α}
    (hlead : ∀ gap, (∀ b ∈ gap, b ∈ blanks) → Approaches scopes₀ begun₀ (lead ++ gap))
    (hf : ∀ gap offset b t, (∀ b ∈ gap, b ∈ blanks) →
      f b (atHand capacity offset (b :: t) scopes begun) = .error (.malformed place fault) z →
        StopsIn scopes₀ begun₀ (lead ++ gap) (b :: t) offset place fault)
    (h : (expectMore >>= f) (atHand capacity offset t scopes begun) =
      .error (.malformed place fault) z) :
    StopsIn scopes₀ begun₀ lead t offset place fault := by
  have hgap : ∀ b ∈ t.takeWhile isBlank, b ∈ blanks := fun _ => mem_blanks_of_mem_takeWhile
  rw [expectMore, bind_assoc, bind_of_ok skipBlanks_atHand, bind_assoc, bind_of_ok peek_atHand] at h
  rw [← t.takeWhile_append_dropWhile (p := isBlank)]
  apply StopsIn.shift
  cases hrest : t.dropWhile isBlank with
  | nil =>
    rw [hrest] at h
    cases h
    exact stopsIn_end (by rw [List.append_nil]; exact .lead (hlead _ hgap)) _
  | cons b t' =>
    rw [hrest] at h
    exact hf _ _ b t' hgap h

theorem leads_append {gap gap' : List UInt8} {scopes scopes' : List Scope} {b : UInt8}
    (hgap : ∀ b ∈ gap, b ∈ blanks) (hgap' : ∀ b ∈ gap', b ∈ blanks)
    (hlead : ∀ {t t' r}, Blanks t (b :: t') → Blanks t' r → Leads t scopes true r scopes')
    (t : List UInt8) : Leads (gap ++ [b] ++ gap' ++ t) scopes true t scopes' := by
  rw [List.append_assoc, List.append_assoc]
  exact hlead (blanks_append hgap _) (blanks_append hgap' t)

theorem stopsIn_expectValue {gap : List UInt8} {c : UInt8} (hgap : ∀ b ∈ gap, b ∈ blanks)
    (hlead : ∀ {t t' r}, Blanks t (c :: t') → Blanks t' r → Leads t scopes₀ true r scopes')
    (h : (expectMore >>= readValue) (atHand capacity (offset + 1) t scopes begun) =
      .error (.malformed place fault) z) :
    StopsIn scopes₀ true gap (c :: t) offset place fault := by
  refine StopsIn.shift [c] (stopsIn_expectMore (fun gap' hgap' => ?_)
    (fun gap' offset b t hgap' h => ?_) h)
  · exact .value scopes' (leads_append hgap hgap' hlead)
  · exact stopsIn_readValue (leads_append hgap hgap' hlead) h

theorem stopsIn_readToken {gap : List UInt8} (hgap : ∀ b ∈ gap, b ∈ blanks)
    (hbegun : scopes ≠ [] → begun = true)
    (h : readToken b (atHand capacity offset (b :: t) scopes begun) =
      .error (.malformed place fault) z) :
    StopsIn scopes begun gap (b :: t) offset place fault := by
  have hbegins : TokenBegins capacity offset t b scopes begun _ := tokenBegins_readToken hbegun
  generalize readToken b (atHand capacity offset (b :: t) scopes begun) = result at h hbegins
  cases hbegins with
  | refused hfault =>
    cases h
    exact stopsIn_front (.blanks hgap) hfault _ _
  | document b =>
    exact stopsIn_readValue (fun t => .document (blanks_append hgap t)) h
  | firstItem b scopes =>
    exact stopsIn_readValue (fun t => .firstItem (blanks_append hgap t)) h
  | nextItem scopes => exact stopsIn_expectValue hgap .nextItem h
  | firstName b scopes =>
    have hlead : Approaches (.emptyObject :: scopes) true gap :=
      .name scopes (closesStrings_of_blanks hgap) fun t name r hq =>
        .firstName (blanks_append hgap t) hq
    exact stopsIn_readName hlead h
  | nextName scopes =>
    have hlead (gap' : List UInt8) (hgap' : ∀ b ∈ gap', b ∈ blanks) :
        Approaches (.object :: scopes) true (gap ++ [','.toUInt8] ++ gap') := by
      refine .name scopes (closesStrings_between hgap hgap' (by decide)) fun t name r hq => ?_
      rw [List.append_assoc, List.append_assoc]
      exact .nextName (blanks_append hgap _) (blanks_append hgap' t) hq
    exact StopsIn.shift [','.toUInt8] (stopsIn_expectMore hlead
      (fun gap' offset b t hgap' h => stopsIn_readName (hlead gap' hgap') h) h)
  | memberValue scopes => exact stopsIn_expectValue hgap .memberValue h
  | endArray _ _ => cases h
  | endObject _ _ => cases h

/-- In front of a fault there is nothing that no document has. -/
theorem stopsIn_next (hbegun : scopes ≠ [] → begun = true)
    (h : next (atHand capacity offset t scopes begun) = .error (.malformed place fault) z) :
    StopsIn scopes begun [] t offset place fault := by
  have hgap : ∀ b ∈ t.takeWhile isBlank, b ∈ blanks := fun _ => mem_blanks_of_mem_takeWhile
  rw [next, bind_of_ok skipBlanks_atHand, bind_of_ok peek_atHand] at h
  rw [← t.takeWhile_append_dropWhile (p := isBlank)]
  apply StopsIn.shift
  cases hrest : t.dropWhile isBlank with
  | nil =>
    rw [hrest] at h
    cases scopes with
    | nil => cases h
    | cons scope scopes =>
      cases h
      exact stopsIn_end (by rw [List.append_nil]; exact .blanks hgap) _
  | cons b t' =>
    rw [hrest] at h
    exact stopsIn_readToken hgap hbegun h

end

end Lexer
end JsonWalk
