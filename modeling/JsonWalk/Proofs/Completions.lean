import JsonWalk.Proofs.Disorder
import JsonWalk.Proofs.PrintedTexts
import JsonWalk.Proofs.TextFaults
import Mathlib.Data.Fintype.EquivFin

/-!
# Texts that can be completed

What a lexer has read before a fault can go on to a whole document: a part of a word is spelled to
its end, a name that no member has yet gets a value, and what is open is closed from the inside to
the outside. So a text that is at fault is a valid beginning up to the place that is reported.
-/

namespace JsonWalk

open Grammar
open StringLiteral (quoteByte)

namespace Lexer

/-! ### What comes behind a token -/

section

variable {t t' r r' : List UInt8} {scopes scopes' push : List Scope} {begun begun' : Bool}
  {u : Token} {us : List Token} {s : String}

theorem exists_gap_of_blanks (h : Blanks t r) : ∃ gap, t = gap ++ r ∧ ∀ b ∈ gap, b ∈ blanks := by
  induction h with
  | none => exact ⟨[], rfl, nofun⟩
  | @more b _ _ hb _ ih =>
    obtain ⟨gap, rfl, hgap⟩ := ih
    exact ⟨b :: gap, rfl, List.forall_mem_cons.2 ⟨hb, hgap⟩⟩

theorem exists_front_of_quoted (h : Quoted t s r) :
    ∃ front, t = front ++ r ∧ ClosesStrings front ∧ ∀ r', Quoted (front ++ r') s r' := by
  obtain ⟨r, hchars⟩ := h
  rename_i text cs
  refine ⟨'"'.toUInt8 :: (Utf8.encode text ++ ['"'.toUInt8]), by simp, ?_, fun r' => ?_⟩
  · have hdecoded : Chars text (String.ofList cs).toList := by rwa [String.toList_ofList]
    obtain ⟨hscan, -⟩ := StringLiteral.decode_eq_ok_iff_chars.2 ⟨text, rfl, hdecoded⟩
    have hopen : quoteStep none '"'.toUInt8 = some false := rfl
    have hclose : quoteStep (some false) '"'.toUInt8 = none := rfl
    rw [ClosesStrings, List.foldl_cons, List.foldl_append, hopen, foldl_quoteStep hscan]
    exact hclose
  · simpa using Quoted.mk r' hchars

/-- The bytes behind a token matter only if it is a number, which they must not go on with. -/
theorem Yields.exists_front (h : Yields t u r push) :
    ∃ front, t = front ++ r ∧ ClosesStrings front ∧
      ∀ r', (StopsNumber r → StopsNumber r') → Yields (front ++ r') u r' push := by
  have hplain {front : List UInt8} (h : quoteByte ∉ front) : ClosesStrings front :=
    closesStrings_of_notMem h
  cases h with
  | beginObject => exact ⟨['\x7b'.toUInt8], rfl, hplain (by decide), fun r' _ => .beginObject r'⟩
  | beginArray => exact ⟨['['.toUInt8], rfl, hplain (by decide), fun r' _ => .beginArray r'⟩
  | string hq =>
    obtain ⟨front, rfl, hcloses, hfront⟩ := exists_front_of_quoted hq
    exact ⟨front, rfl, hcloses, fun r' _ => .string (hfront r')⟩
  | null => exact ⟨_, rfl, hplain (by decide +kernel), fun r' _ => .null r'⟩
  | true => exact ⟨_, rfl, hplain (by decide +kernel), fun r' _ => .true r'⟩
  | false => exact ⟨_, rfl, hplain (by decide +kernel), fun r' _ => .false r'⟩
  | number hl hn hr =>
    obtain ⟨-, hbytes⟩ := numberChars_encode (isNumberChar_of_literal hl)
    refine ⟨_, rfl, hplain fun hmem => ?_, fun r' hstops => .number hl hn (hstops hr)⟩
    exact absurd (hbytes quoteByte hmem) (by decide)

theorem Leads.exists_front (h : Leads t scopes begun r scopes') :
    ∃ front, t = front ++ r ∧ ClosesStrings front ∧
      ∀ r', Leads (front ++ r') scopes begun r' scopes' := by
  cases h with
  | document ht =>
    obtain ⟨gap, rfl, hgap⟩ := exists_gap_of_blanks ht
    exact ⟨gap, rfl, closesStrings_of_blanks hgap, fun r' => .document (blanks_append hgap r')⟩
  | firstItem ht =>
    obtain ⟨gap, rfl, hgap⟩ := exists_gap_of_blanks ht
    exact ⟨gap, rfl, closesStrings_of_blanks hgap, fun r' => .firstItem (blanks_append hgap r')⟩
  | nextItem ht hmore =>
    obtain ⟨gap, rfl, hgap⟩ := exists_gap_of_blanks ht
    obtain ⟨gap', rfl, hgap'⟩ := exists_gap_of_blanks hmore
    exact ⟨gap ++ [','.toUInt8] ++ gap', by simp, closesStrings_between hgap hgap' (by decide),
      leads_append hgap hgap' .nextItem⟩
  | memberValue ht hmore =>
    obtain ⟨gap, rfl, hgap⟩ := exists_gap_of_blanks ht
    obtain ⟨gap', rfl, hgap'⟩ := exists_gap_of_blanks hmore
    exact ⟨gap ++ [':'.toUInt8] ++ gap', by simp, closesStrings_between hgap hgap' (by decide),
      leads_append hgap hgap' .memberValue⟩

theorem Reads.exists_front (h : Reads t scopes begun u r scopes' begun') (hu : u ≠ .endOfInput) :
    ∃ front, t = front ++ r ∧ ClosesStrings front ∧ ∀ r', (StopsNumber r → StopsNumber r') →
      Reads (front ++ r') scopes begun u r' scopes' begun' := by
  cases h with
  | endOfInput => exact absurd rfl hu
  | value hlead hyields =>
    obtain ⟨front, rfl, hcloses, hfront⟩ := hlead.exists_front
    obtain ⟨front', rfl, hcloses', hfront'⟩ := hyields.exists_front
    refine ⟨front ++ front', (List.append_assoc ..).symm, hcloses.append hcloses',
      fun r' hstops => ?_⟩
    rw [List.append_assoc]
    exact .value (hfront _) (hfront' r' hstops)
  | firstName ht hq =>
    obtain ⟨gap, rfl, hgap⟩ := exists_gap_of_blanks ht
    obtain ⟨front, rfl, hcloses, hfront⟩ := exists_front_of_quoted hq
    refine ⟨gap ++ front, (List.append_assoc ..).symm,
      (closesStrings_of_blanks hgap).append hcloses, fun r' _ => ?_⟩
    rw [List.append_assoc]
    exact .firstName (blanks_append hgap _) (hfront r')
  | nextName ht hmore hq =>
    obtain ⟨gap, rfl, hgap⟩ := exists_gap_of_blanks ht
    obtain ⟨gap', rfl, hgap'⟩ := exists_gap_of_blanks hmore
    obtain ⟨front, rfl, hcloses, hfront⟩ := exists_front_of_quoted hq
    refine ⟨gap ++ [','.toUInt8] ++ gap' ++ front, by simp,
      (closesStrings_between hgap hgap' (by decide)).append hcloses, fun r' _ => ?_⟩
    simp only [List.append_assoc]
    exact .nextName (blanks_append hgap _) (blanks_append hgap' _) (hfront r')
  | endArray hscope ht =>
    obtain ⟨gap, rfl, hgap⟩ := exists_gap_of_blanks ht
    refine ⟨gap ++ [']'.toUInt8], by simp,
      (closesStrings_of_blanks hgap).append (closesStrings_of_notMem (by decide)), fun r' _ => ?_⟩
    rw [List.append_assoc]
    exact .endArray hscope (blanks_append hgap _)
  | endObject hscope ht =>
    obtain ⟨gap, rfl, hgap⟩ := exists_gap_of_blanks ht
    refine ⟨gap ++ ['\x7d'.toUInt8], by simp,
      (closesStrings_of_blanks hgap).append (closesStrings_of_notMem (by decide)), fun r' _ => ?_⟩
    rw [List.append_assoc]
    exact .endObject hscope (blanks_append hgap _)

theorem stopsNumber_append {front : List UInt8} (h : StopsNumber (front ++ r))
    (hnil : front = [] → StopsNumber r') : StopsNumber (front ++ r') := by
  cases front with
  | nil => exact hnil rfl
  | cons b front => exact h

theorem Steps.exists_front (h : Steps t scopes begun us r scopes' begun') :
    ∃ front, t = front ++ r ∧ ClosesStrings front ∧ ∀ r', (StopsNumber r → StopsNumber r') →
      Steps (front ++ r') scopes begun us r' scopes' begun' := by
  induction h with
  | nil => exact ⟨[], rfl, rfl, fun r' _ => .nil r' _ _⟩
  | cons hu hend _ ih =>
    obtain ⟨front', rfl, hcloses', hfront'⟩ := ih
    obtain ⟨front, rfl, hcloses, hfront⟩ := hu.exists_front hend
    refine ⟨front ++ front', (List.append_assoc ..).symm, hcloses.append hcloses',
      fun r' hstops => ?_⟩
    rw [List.append_assoc]
    refine .cons (hfront _ fun h => ?_) hend (hfront' r' hstops)
    exact stopsNumber_append h fun hnil => hstops (by rwa [hnil] at h)

end

/-! ### Closing what is open -/

def closers : List Scope → List UInt8
  | [] => []
  | .emptyArray :: scopes | .array :: scopes => ']'.toUInt8 :: closers scopes
  | .emptyObject :: scopes | .object :: scopes | .member :: scopes =>
    '\x7d'.toUInt8 :: closers scopes

def closing : List Scope → List Token
  | [] => []
  | .emptyArray :: scopes | .array :: scopes => .endArray :: closing scopes
  | .emptyObject :: scopes | .object :: scopes | .member :: scopes => .endObject :: closing scopes

/-- With these tokens the document ends, and behind it there are only blanks. -/
def Finishes (t : List UInt8) (scopes : List Scope) (begun : Bool) (us : List Token) : Prop :=
  ∃ r, Steps t scopes begun us r [] true ∧ Blanks r []

/-- The tokens fit an object that has members of these names, whatever the limit. -/
inductive Harmless (names : List String) : List Token → Prop
  | quiet {us : List Token} : (∀ u ∈ us, u.IsQuiet) → Harmless names us
  | name {name : String} {us : List Token} : name ∉ names → (∀ u ∈ us, u.IsQuiet) →
    Harmless names (.name name :: us)

/-- The bytes go on to the end of a document, with tokens that come to no harm. If there are none a
number can stand in front. -/
def CanFinish (gap : List UInt8) (scopes : List Scope) (begun : Bool) (names : List String) :
    Prop :=
  ∃ back us, Finishes (gap ++ back) scopes begun us ∧ Harmless names us ∧
    (gap = [] → StopsNumber back)

section

variable {t t' gap lead : List UInt8} {scopes scopes' : List Scope} {begun : Bool} {u : Token}
  {ts us : List Token} {fault : TextFault}

theorem stopsNumber_cons {b : UInt8} (hb : ¬ isNumberByte b) (t : List UInt8) :
    StopsNumber (b :: t) := by
  rintro _ ⟨⟩
  exact hb

theorem stopsNumber_closers : ∀ scopes, StopsNumber (closers scopes)
  | [] => nofun
  | .emptyArray :: _ | .array :: _ | .emptyObject :: _ | .object :: _ | .member :: _ =>
    stopsNumber_cons (by decide) _

theorem isQuiet_of_mem_closing : ∀ {scopes : List Scope}, ∀ u ∈ closing scopes, u.IsQuiet
  | [] => nofun
  | .emptyArray :: _ | .array :: _ | .emptyObject :: _ | .object :: _ | .member :: _ =>
    List.forall_mem_cons.2 ⟨trivial, isQuiet_of_mem_closing⟩

theorem isQuiet_of_mem_value (hu : u.IsQuiet) : ∀ u' ∈ u :: closing scopes, u'.IsQuiet :=
  List.forall_mem_cons.2 ⟨hu, isQuiet_of_mem_closing⟩

theorem finishes_closers (hmember : .member ∉ scopes) (ht : Blanks t (closers scopes)) :
    Finishes t scopes true (closing scopes) := by
  induction scopes generalizing t with
  | nil => exact ⟨t, .nil t [] true, ht⟩
  | cons scope scopes ih =>
    obtain ⟨hscope, hscopes⟩ := not_or.1 (mt List.mem_cons.2 hmember)
    obtain ⟨r, hsteps, hr⟩ := ih hscopes (.none _)
    cases scope with
    | emptyArray => exact ⟨r, .cons (.endArray (.inl rfl) ht) (by simp) hsteps, hr⟩
    | array => exact ⟨r, .cons (.endArray (.inr rfl) ht) (by simp) hsteps, hr⟩
    | emptyObject => exact ⟨r, .cons (.endObject (.inl rfl) ht) (by simp) hsteps, hr⟩
    | object => exact ⟨r, .cons (.endObject (.inr rfl) ht) (by simp) hsteps, hr⟩
    | member => exact absurd rfl hscope

theorem finishes_value (hlead : Leads t scopes begun t' scopes')
    (hyields : Yields t' u (closers scopes') []) (hu : u ≠ .endOfInput)
    (hmember : .member ∉ scopes') : Finishes t scopes begun (u :: closing scopes') := by
  obtain ⟨r, hsteps, hr⟩ := finishes_closers hmember (.none _)
  exact ⟨r, .cons (.value hlead hyields) hu hsteps, hr⟩

theorem finishes_memberValue (hgap : ∀ b ∈ gap, b ∈ blanks) (hmember : .member ∉ scopes) :
    Finishes (gap ++ ':'.toUInt8 :: (ascii "null" ++ closers (.object :: scopes)))
      (.member :: scopes) true (.null :: closing (.object :: scopes)) :=
  finishes_value (.memberValue (blanks_append hgap _) (.none _)) (.null _) (by simp)
    (by simpa using hmember)

theorem Awaits.member_notMem (h : Awaits scopes ts) : .member ∉ scopes := by
  induction h with
  | document => exact List.not_mem_nil
  | item _ _ ih | memberValue _ _ _ ih => simpa using ih

theorem Approaches.closesStrings (h : Approaches scopes begun lead) : ClosesStrings lead := by
  cases h with
  | value scopes' hlead =>
    obtain ⟨front, hfront, hcloses, -⟩ := (hlead []).exists_front
    rwa [List.append_cancel_right hfront]
  | name _ hcloses => exact hcloses

/-- A value is completed by an empty string, and a name by one that is new, with a value. -/
theorem Approaches.exists_finishes (h : Approaches scopes begun lead) (hts : Opened scopes begun ts)
    (names : List String) :
    ∃ back us, Finishes (lead ++ quoteByte :: back) scopes begun us ∧ Harmless names us := by
  cases h with
  | value scopes' hlead =>
    have hmember := ((hlead []).awaits hts).member_notMem
    have hempty : Utf8.encode (Value.stringText "") = [quoteByte, quoteByte] := by decide +kernel
    have hquoted := Value.quoted_stringText "" (closers scopes')
    rw [hempty] at hquoted
    exact ⟨quoteByte :: closers scopes', .string "" :: closing scopes',
      finishes_value (hlead _) (.string hquoted) (by simp) hmember,
      .quiet (isQuiet_of_mem_value trivial)⟩
  | name outer _ hlead =>
    obtain ⟨name, hname⟩ := Infinite.exists_notMem_finset names.toFinset
    rw [List.mem_toFinset] at hname
    let behind := ':'.toUInt8 :: (ascii "null" ++ closers (.object :: outer))
    have hquoted := Value.quoted_stringText name behind
    obtain ⟨back, hback⟩ := exists_cons_of_quoted hquoted
    rw [hback] at hquoted
    have hread := hlead _ name _ hquoted
    have hopened : Opened (.member :: outer) true (ts ++ [.name name]) := hread.opened (by simp) hts
    have hmember : .member ∉ outer := by
      generalize ts ++ [.name name] = ts' at hopened
      cases hopened with
      | member _ _ hawaits => exact hawaits.member_notMem
    obtain ⟨r, hsteps, hr⟩ : Finishes ([] ++ behind) (.member :: outer) true
      (.null :: closing (.object :: outer)) := finishes_memberValue (List.forall_mem_nil _) hmember
    exact ⟨back, _, ⟨r, .cons hread (by simp) hsteps, hr⟩,
      .name hname (isQuiet_of_mem_value trivial)⟩

/-- What stands in front of a fault can be completed, unless it ends in a string. -/
theorem Unfinished.exists_finishes (h : Unfinished scopes begun fault gap)
    (hts : Opened scopes begun ts) (names : List String) :
    CanFinish gap scopes begun names ∨
    fault = .endOfInput ∧ ∃ lead raw back us, gap = lead ++ quoteByte :: raw ∧
      ClosesStrings lead ∧ StaysInside raw ∧ Finishes (lead ++ quoteByte :: back) scopes begun us ∧
      Harmless names us := by
  have hlead {gap : List UInt8} (h : Approaches scopes begun gap) :
      CanFinish gap scopes begun names := by
    obtain ⟨back, us, hfinishes, hus⟩ := h.exists_finishes hts names
    exact ⟨_, us, hfinishes, hus, fun _ => stopsNumber_cons (by decide) back⟩
  cases h with
  | lead h => exact .inl (hlead h)
  | @word lead front back scopes' u hleads hfront hu hyields =>
    have hmember := ((hleads []).awaits hts).member_notMem
    refine .inl ⟨back ++ closers scopes', u :: closing scopes', ?_,
      .quiet (isQuiet_of_mem_value hu), fun hnil => ?_⟩
    · rw [List.append_assoc]
      refine finishes_value (hleads _) (hyields _) ?_ hmember
      rintro rfl
      exact hu
    · exact absurd (List.append_eq_nil_iff.1 hnil).2 hfront
  | @string lead raw hfault h hraw =>
    obtain ⟨back, us, hfinishes, hus⟩ := h.exists_finishes hts names
    exact .inr ⟨hfault, lead, raw, back, us, rfl, h.closesStrings, hraw, hfinishes, hus⟩
  | blanks hgap =>
    have hclose {scopes : List Scope} (hmember : .member ∉ scopes) :
        CanFinish gap scopes true names :=
      ⟨closers scopes, closing scopes, finishes_closers hmember (blanks_append hgap _),
        .quiet isQuiet_of_mem_closing, fun _ => stopsNumber_closers scopes⟩
    cases hts with
    | nothing => exact .inl (hlead (.value [] fun t => .document (blanks_append hgap t)))
    | document => exact .inl (hclose List.not_mem_nil)
    | emptyArray h | array _ h | emptyObject h | object _ h =>
      exact .inl (hclose (by simpa using h.member_notMem))
    | member _ _ h =>
      exact .inl ⟨_, _, finishes_memberValue hgap h.member_notMem,
        .quiet (isQuiet_of_mem_value trivial), fun _ => stopsNumber_cons (by decide) _⟩

end

open TokenSource (Hands)

theorem extent_of_hands {ts : List Token} {x y : Lexer} (h : Hands x ts y) :
    y.extent = x.extent := by
  induction h with
  | nil => rfl
  | @cons x _ _ _ _ hnext _ _ ih =>
    have hextent : (after (TokenSource.next x)).extent = x.extent := (accounted_next x).extent_eq
    rw [hnext] at hextent
    exact ih.trans hextent

end Lexer

/-! ### Tokens that are taken -/

namespace Outline

variable {limit : Nat} {o : Outline} {us : List Token} {e : WalkError}

def names (o : Outline) : List String :=
  match o.shapes with
  | .object names :: _ => names
  | _ => []

theorem error_of_isQuiet {u : Token} (hu : u.IsQuiet) (h : o.feed limit u = .error e) :
    ∃ found within, e = .structural (.token found) within := by
  have hholding {found : TokenKind} (h : o.holding found = .error e) :
      ∃ found within, e = .structural (.token found) within := by
    rw [holding] at h
    split at h
    · cases h
    · cases h
      exact ⟨_, _, rfl⟩
  cases u with
  | beginObject | beginArray | name | endOfInput => exact absurd hu id
  | string | number | bool | null => exact hholding h
  | endObject =>
    rw [feed] at h
    split at h
    · cases h
    · cases h
      exact ⟨_, _, rfl⟩
  | endArray =>
    rw [feed] at h
    split at h
    · cases h
    · cases h
      exact ⟨_, _, rfl⟩

theorem error_of_harmless (hus : Lexer.Harmless o.names us) (h : o.feedAll limit us = .error e) :
    ∃ found within, e = .structural (.token found) within := by
  have hquiet {o : Outline} {us : List Token} (hus : ∀ u ∈ us, u.IsQuiet)
      (h : o.feedAll limit us = .error e) :
      ∃ found within, e = .structural (.token found) within := by
    induction us generalizing o with
    | nil => cases h
    | cons u us ih =>
      obtain ⟨hu, hus⟩ := List.forall_mem_cons.1 hus
      cases hfeed : o.feed limit u with
      | error e' =>
        rw [feedAll, hfeed] at h
        cases h
        exact error_of_isQuiet hu hfeed
      | ok o' =>
        rw [feedAll, hfeed] at h
        exact ih hus h
  cases hus with
  | quiet hus => exact hquiet hus h
  | @name name us hname hus =>
    cases hfeed : o.feed limit (.name name) with
    | ok o' =>
      rw [feedAll, hfeed] at h
      exact hquiet hus h
    | error e' =>
      rw [feedAll, hfeed] at h
      cases h
      have hbeginning : o.beginning name = .error e := hfeed
      rw [beginning] at hbeginning
      split at hbeginning
      · next names outer hshapes =>
        rw [Outline.names, hshapes] at hname
        rw [if_neg hname] at hbeginning
        cases hbeginning
      · cases hbeginning
        exact ⟨_, _, rfl⟩

/-- The tokens of a document are taken if they come to no harm at the end. -/
theorem feedAll_tokens_of_harmless {ts : List Token} {v : Value} (hv : ts ++ us = v.tokens)
    (hts : ({} : Outline).feedAll limit ts = .ok o) (hus : Lexer.Harmless o.names us) :
    ({} : Outline).feedAll limit v.tokens = .ok { done := true } := by
  cases hall : ({} : Outline).feedAll limit v.tokens with
  | ok o' => rw [feedAll_tokens_of_ok hall]
  | error e =>
    have hrest : o.feedAll limit us = .error e := by
      rw [← hv, feedAll_append, hts] at hall
      exact hall
    obtain ⟨found, within, rfl⟩ := error_of_harmless hus hrest
    rcases error_of_prefix (List.prefix_refl v.tokens) hall with h | h <;> cases h

end Outline

namespace StreamWalk

open Lexer
open TokenSource (Hands)

variable {w : StreamWalk} {bytes : List UInt8}

/-- The bytes begin a text that a silent walk accepts. -/
def Completes (w : StreamWalk) (front : List UInt8) : Prop :=
  ∃ back v, (w.walkBytes .silent () (front ++ back)).result = .ok v

/-- The text ends inside a string, at whose opening quote it was still a valid beginning. -/
def EndsInString (w : StreamWalk) (bytes : List UInt8) : Prop :=
  ∃ front raw, bytes = front ++ quoteByte :: raw ∧ ClosesStrings front ∧ StaysInside raw ∧
    w.Completes (front ++ [quoteByte])

theorem exists_ok_of_finishes {ts us : List Token} {r : List UInt8} {scopes : List Scope}
    {begun : Bool} {o : Outline} (hsteps : Steps bytes [] false ts r scopes begun)
    (hts : ({} : Outline).feedAll w.limits.maxDepth ts = .ok o)
    (hfinishes : Finishes r scopes begun us) (hus : Harmless o.names us) :
    ∃ v, (w.walkBytes .silent () bytes).result = .ok v := by
  obtain ⟨r', hsteps', hr⟩ := hfinishes
  have hwhole : Steps bytes [] false (ts ++ us) r' [] true :=
    steps_append.2 ⟨_, _, _, hsteps, hsteps'⟩
  obtain ⟨v, hv⟩ : ∃ v : Value, ts ++ us = v.tokens := by
    have hopened : Opened [] true (ts ++ us) := hwhole.opened .nothing
    generalize ts ++ us = all at hopened
    cases hopened with
    | document v => exact ⟨v, rfl⟩
  have hall := Outline.feedAll_tokens_of_harmless hv hts hus
  obtain ⟨a, ha, houtline⟩ : ∃ a, AssemblyM.feedAll .silent w.limits.maxDepth (ts ++ us) {} () =
      .ok a () ∧ a.outline = { done := true } := by
    have hends := AssemblyM.ends_feedAll Listener.neverFails_silent.behaves w.limits.maxDepth
      (ts ++ us) {}
    rw [hv] at hends ⊢
    cases hfeed : AssemblyM.feedAll .silent w.limits.maxDepth v.tokens {} () with
    | ok a s => exact ⟨a, rfl, Except.ok.inj ((hends.of_ok hfeed).2.symm.trans hall)⟩
    | error e s =>
      rcases (hends.of_error hfeed).2 with h | h
      · cases hall.symm.trans h
      · exact h.elim
  have hfinish := a.finish_outline
  rw [houtline] at hfinish
  obtain ⟨offset, hy⟩ : ∃ offset, Hands (atHand bytes.length 0 bytes [] false) (ts ++ us)
      (atHand bytes.length offset r' [] true) := hands_atHand hwhole 0
  obtain ⟨_, hz⟩ := next_atHand (.endOfInput true hr)
  rw [walkBytes, walk_eq_run, ofBytes_eq_atHand, Assembly.run_of_hands hy ha,
    Assembly.run_of_endOfInput hz]
  cases hresult : a.finish with
  | ok v => exact ⟨v, rfl⟩
  | error e =>
    rw [hresult] at hfinish
    cases hfinish

theorem exists_of_malformed {place : Nat} {fault : TextFault}
    (h : (w.walkBytes .silent () bytes).result = .error (.malformed place fault)) :
    ∃ ts y z o, Hands (ofBytes bytes) ts y ∧ ({} : Outline).feedAll w.limits.maxDepth ts = .ok o ∧
      Lexer.next y = .error (.malformed place fault) z := by
  have hends := AssemblyM.ends_feedAll Listener.neverFails_silent.behaves w.limits.maxDepth
  have hrun := Assembly.concludes_run .silent w.limits.maxDepth {} () (ofBytes bytes)
  rw [walkBytes, walk_eq_run] at h
  generalize Assembly.run .silent w.limits.maxDepth {} () (ofBytes bytes) = ending at h hrun
  cases hrun with
  | refused hts hfeed =>
    cases h
    obtain ⟨v, hv⟩ := exists_prefix_of_hands hts
    rcases ((hends _ {}).of_error hfeed).2 with ho | h
    · rcases Outline.error_of_prefix hv ho with h | h <;> cases h
    · exact h.elim
  | @ended _ _ _ a _ hts hfeed hz =>
    have hfinish : a.finish = .error (.malformed place fault) := h
    rw [Assembly.finish] at hfinish
    split at hfinish <;> cases hfinish
  | @failed ts y z a _ _ hts hfeed hz =>
    cases h
    exact ⟨ts, y, z, a.outline, hts, ((hends ts {}).of_ok hfeed).2, hz⟩

/-- A fault is found inside the text, and a fault about its end at its end. What is in front of it
can go on to an accepted text, unless the text ends inside a string. -/
theorem walkBytes_malformed_behind_completable {place : Nat} {fault : TextFault}
    (h : (w.walkBytes .silent () bytes).result = .error (.malformed place fault)) :
    place ≤ bytes.length ∧ (fault = .endOfInput → place = bytes.length) ∧
      (w.Completes (bytes.take place) ∨ fault = .endOfInput ∧ w.EndsInString bytes) := by
  obtain ⟨ts, y, z, o, hts, ho, hz⟩ := exists_of_malformed h
  have hextent := extent_of_hands hts
  rw [ofBytes_eq_atHand] at hts
  obtain ⟨offset, r, scopes, begun, hsteps, hbegun, rfl⟩ := of_hands_atHand (absurd rfl) hts
  obtain ⟨gap, rest, rfl, rfl, hrest, hgap⟩ := stopsIn_next hbegun hz
  obtain ⟨front, rfl, hcloses, hfront⟩ := hsteps.exists_front
  have hoffset : front.length = offset := by
    simp only [extent, content, ofBytes, ofInput, atHand, Input.content, Input.ofBytes,
      Input.pendingBytes, List.length_append] at hextent
    omega
  have hopened : Opened scopes begun ts := hsteps.opened .nothing
  refine ⟨?_, ?_, ?_⟩
  · simp only [List.length_append]
    omega
  · intro hfault
    rw [hrest hfault, List.append_nil, List.length_append, hoffset]
  · have htake : (front ++ (gap ++ rest)).take (offset + gap.length) = front ++ gap := by
      rw [← hoffset, ← List.length_append, ← List.append_assoc, List.take_left]
    rw [htake]
    rcases hgap.exists_finishes hopened o.names with
      ⟨back, us, hfinishes, hus, hnil⟩ |
        ⟨hfault, lead, raw, back, us, rfl, hcloses', hraw, hfinishes, hus⟩
    · have hstops (h : StopsNumber (gap ++ rest)) : StopsNumber (gap ++ back) :=
        stopsNumber_append h hnil
      obtain ⟨v, hv⟩ := exists_ok_of_finishes (hfront _ hstops) ho hfinishes hus
      exact .inl ⟨back, v, by rwa [List.append_assoc]⟩
    · have hstops (h : StopsNumber (lead ++ quoteByte :: raw ++ rest)) :
          StopsNumber (lead ++ quoteByte :: back) := by
        rw [List.append_assoc] at h
        exact stopsNumber_append h fun _ => stopsNumber_cons (by decide) back
      obtain ⟨v, hv⟩ := exists_ok_of_finishes (hfront _ hstops) ho hfinishes hus
      refine .inr ⟨hfault, front ++ lead, raw, ?_, hcloses.append hcloses', hraw, back, v, ?_⟩
      · rw [hrest hfault]
        simp
      · simpa using hv

/-- A comma that no member follows, in a walk that allows no second level. -/
theorem walkBytes_malformed_behind_completable_of_comma :
    let w : StreamWalk := { limits := { maxDepth := 1 } }
    let bytes := ascii "\x7b\"a\":1, \x7d"
    (w.walkBytes .silent () bytes).result = .error (.malformed 8 .expectedName) ∧
      8 ≤ bytes.length ∧ (TextFault.expectedName = .endOfInput → 8 = bytes.length) ∧
        (w.Completes (bytes.take 8) ∨ TextFault.expectedName = .endOfInput ∧
          w.EndsInString bytes) := by
  intro w bytes
  have hwalk : (w.walkBytes .silent () bytes).result = .error (.malformed 8 .expectedName) := by
    have hfault : ((w.walkBytes .silent () bytes).result.map fun _ => ()) =
        .error (.malformed 8 .expectedName) := by
      decide +kernel
    cases hresult : (w.walkBytes .silent () bytes).result with
    | ok v =>
      rw [hresult] at hfault
      cases hfault
    | error e =>
      rw [hresult] at hfault
      cases hfault
      rfl
  exact ⟨hwalk, walkBytes_malformed_behind_completable hwalk⟩

end StreamWalk
end JsonWalk
