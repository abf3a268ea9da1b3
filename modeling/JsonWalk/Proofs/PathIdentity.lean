import JsonWalk.Proofs.Numerals
import JsonWalk.Proofs.PatternPrinting
import JsonWalk.Proofs.PrintedTexts
import JsonWalk.Proofs.Selecting
import Mathlib.Tactic.TFAE

/-!
# Nodes by the texts of their paths

The written form of a path can be cut into its segments in one way only. So different paths have
different texts, but for one pair: the root and a member of it whose name is empty are both written
as the empty text.
-/

namespace JsonWalk

namespace Segment

/-! ### Cutting off a segment -/

def readName : List Char → List Char × List Char
  | [] => ([], [])
  | '\\' :: c :: text => (c :: (readName text).1, (readName text).2)
  | '.' :: text => ([], '.' :: text)
  | c :: text => (c :: (readName text).1, (readName text).2)

def cut : List Char → Segment × List Char
  | '@' :: text =>
    (.index (Nat.ofDigitChars 10 (text.span Char.isDigit).1 0), (text.span Char.isDigit).2)
  | text => (.member (String.ofList (readName text).1), (readName text).2)

/-- Here a written segment ends. -/
def Ends (t : List Char) : Prop := t = [] ∨ ∃ rest, t = '.' :: rest

variable {s s' : Segment} {t t' : List Char}

theorem escape_cons (c : Char) (cs : List Char) :
    escape (c :: cs) = (if isSpecial c then ['\\', c] else [c]) ++ escape cs := rfl

theorem readName_escape (ht : Ends t) (cs : List Char) : readName (escape cs ++ t) = (cs, t) := by
  induction cs with
  | nil => obtain rfl | ⟨rest, rfl⟩ := ht <;> simp [escape, readName]
  | cons c cs ih =>
    rw [escape_cons]
    by_cases hc : isSpecial c
    · simp [hc, readName, ih]
    · have hplain : c ≠ '\\' ∧ c ≠ '.' :=
        ⟨fun heq => hc (heq ▸ by decide), fun heq => hc (heq ▸ by decide)⟩
      simp [hc, readName, hplain, ih]

/-- A name that is written with escapes does not look like a position. -/
theorem cut_escape (ht : Ends t) (cs : List Char) :
    cut (escape cs ++ t) = (.member (String.ofList cs), t) := by
  have hname (h : ∀ rest, escape cs ++ t ≠ '@' :: rest) :
      cut (escape cs ++ t) = (.member (String.ofList cs), t) := by
    rw [cut, readName_escape ht]
    exact h
  apply hname
  cases cs with
  | nil => obtain rfl | ⟨rest, rfl⟩ := ht <;> simp [escape]
  | cons c cs =>
    rw [escape_cons]
    by_cases hc : isSpecial c
    · simp [hc]
    · have hplain : c ≠ '@' := fun heq => hc (heq ▸ by decide)
      simp [hc, hplain]

theorem cut_append (ht : Ends t) (s : Segment) : cut (s.chars ++ t) = (s, t) := by
  cases s with
  | member name => rw [chars, cut_escape ht, String.ofList_toList]
  | index position =>
    have hdigits : ∀ c ∈ Decimal.digits position, c.isDigit :=
      fun _ => Decimal.isDigit_of_mem_digits
    have hends : ∀ c ∈ t.head?, ¬ c.isDigit := by
      obtain rfl | ⟨rest, rfl⟩ := ht <;> simp
    have hspan := Numeral.span_digits hdigits hends
    have hvalue : Nat.ofDigitChars 10 (Decimal.digits position) 0 = position :=
      Nat.ofDigitChars_ten_toDigits
    rw [chars, List.cons_append, cut, hspan, hvalue]

theorem chars_append_inj (ht : Ends t) (ht' : Ends t') (h : s.chars ++ t = s'.chars ++ t') :
    s = s' ∧ t = t' := by
  have hcut := congrArg cut h
  rwa [cut_append ht, cut_append ht', Prod.mk.injEq] at hcut

end Segment

namespace Path

/-! ### Paths -/

def restChars : Path → List Char
  | [] => []
  | s :: rest => '.' :: chars (s :: rest)

theorem chars_cons (s : Segment) (rest : Path) : chars (s :: rest) = s.chars ++ restChars rest := by
  cases rest with
  | nil => exact (List.append_nil _).symm
  | cons t rest => rfl

theorem ends_restChars (rest : Path) : Segment.Ends (restChars rest) := by
  cases rest with
  | nil => exact .inl rfl
  | cons s rest => exact .inr ⟨_, rfl⟩

theorem eq_of_chars_cons {s s' : Segment} {rest rest' : Path}
    (h : chars (s :: rest) = chars (s' :: rest')) : s :: rest = s' :: rest' := by
  induction rest generalizing s s' rest' with
  | nil =>
    rw [chars_cons, chars_cons] at h
    obtain ⟨rfl, hrest⟩ :=
      Segment.chars_append_inj (ends_restChars []) (ends_restChars rest') h
    cases rest' with
    | nil => rfl
    | cons t' rest' => cases hrest
  | cons t rest ih =>
    rw [chars_cons, chars_cons] at h
    obtain ⟨rfl, hrest⟩ :=
      Segment.chars_append_inj (ends_restChars (t :: rest)) (ends_restChars rest') h
    cases rest' with
    | nil => cases hrest
    | cons t' rest' => exact congrArg (s :: ·) (ih (List.cons_injective hrest))

theorem chars_eq_nil_iff {p : Path} : p.chars = [] ↔ p = [] ∨ p = [.member ""] := by
  constructor
  · intro h
    cases p with
    | nil => exact .inl rfl
    | cons s rest =>
      have hempty : chars (s :: rest) = chars [.member ""] := h
      exact .inr (eq_of_chars_cons hempty)
  · rintro (rfl | rfl) <;> rfl

/-- The root and its member without a name are the only two that are written alike. -/
theorem text_eq_iff {p q : Path} : p.text = q.text ↔
    p = q ∨ (p = [] ∧ q = [.member ""]) ∨ (p = [.member ""] ∧ q = []) := by
  rw [text, text, String.ofList_inj]
  cases p with
  | nil =>
    rw [eq_comm, show chars [] = [] from rfl, chars_eq_nil_iff]
    simp [eq_comm]
  | cons s rest =>
    cases q with
    | nil =>
      rw [show chars [] = [] from rfl, chars_eq_nil_iff]
      simp
    | cons s' rest' =>
      constructor
      · exact fun h => .inl (eq_of_chars_cons h)
      · rintro (heq | ⟨hnil, -⟩ | ⟨-, hnil⟩)
        · exact congrArg chars heq
        · cases hnil
        · cases hnil

end Path

/-! ### Hits are nodes -/

namespace Query

variable {σ : Type} {pattern : Pattern} {limit : Option Nat} {p : Predicate σ} {maxDepth : Nat}
  {row row' : List Hit}

/-- What is found by a scan that ends well was found before, or is one of these. -/
def Finds (row : List Hit) (scan : EStateM WalkError (Found σ) Unit) : Prop :=
  ∀ f f', scan f = .ok () f' → ∀ h ∈ f'.hits, h ∈ f.hits ∨ h ∈ row

namespace Finds

variable {scan scan' : EStateM WalkError (Found σ) Unit}

theorem still : Finds row (pure () : EStateM WalkError (Found σ) Unit) := by
  rintro f _ ⟨⟩ h hmem
  exact .inl hmem

theorem throw (e : WalkError) : Finds row (throw e : EStateM WalkError (Found σ) Unit) := by
  rintro f _ ⟨⟩

theorem offer (path : Path) (v : Value) :
    Finds [⟨path, v⟩] (modify (Query.offer pattern limit p path v)) := by
  rintro f _ ⟨⟩ h hmem
  rw [Query.offer] at hmem
  split at hmem
  · exact .inl hmem
  split at hmem
  · dsimp only at hmem
    split at hmem
    · exact (Array.mem_push.1 hmem).imp_right List.mem_singleton.2
    · exact .inl hmem
  · exact .inl hmem

theorem bind (hs : Finds row scan) (hs' : Finds row' scan') :
    Finds (row ++ row') (scan >>= fun _ => scan') := by
  intro f f' h hit hmem
  obtain ⟨_, f₁, h₁, h₂⟩ := bind_eq_ok_iff.1 h
  rw [List.mem_append]
  obtain hbefore | hrow := hs' f₁ f' h₂ hit hmem
  · exact (hs f f₁ h₁ hit hbefore).imp_right .inl
  · exact .inr (.inr hrow)

/-- A scan does nothing if no more hits are wanted. -/
theorem wanted (hs : Finds row scan)
    (h : ∀ f, scan' f = if f.isFull limit then .ok () f else scan f) : Finds row scan' := by
  intro f f' hok
  rw [h] at hok
  split at hok
  · exact still f f' hok
  · exact hs f f' hok

theorem unlessDeep {c : Prop} [Decidable c] (e : WalkError) (hs : Finds row scan) :
    Finds row (if c then MonadExcept.throw e else scan) := by
  split
  · exact throw e
  · exact hs

end Finds

mutual

theorem finds_scanValue (path : Path) (depth : Nat) : ∀ v : Value,
    Finds (v.nodes path) (scanValue pattern limit p maxDepth path depth v)
  | .null | .bool _ | .number _ | .string _ => by
    rw [scanValue]
    exact .unlessDeep _ (.offer path _)
  | .array items => by
    rw [scanValue_array]
    exact .unlessDeep _ (.bind (finds_scanItems path (depth + 1) 0 items) (.offer path _))
  | .object members => by
    rw [scanValue_object]
    exact .unlessDeep _ (.bind (finds_scanMembers path (depth + 1) members) (.offer path _))

theorem finds_scanItems (path : Path) (depth position : Nat) : ∀ items : List Value,
    Finds (Value.itemNodes path position items)
      (scanItems pattern limit p maxDepth path depth position items)
  | [] => .still
  | v :: rest =>
    .wanted (.bind (finds_scanValue _ depth v) (finds_scanItems path depth (position + 1) rest))
      fun _ => scanItems_cons

theorem finds_scanMembers (path : Path) (depth : Nat) : ∀ members : List (String × Value),
    Finds (Value.memberNodes path members)
      (scanMembers pattern limit p maxDepth path depth members)
  | [] => .still
  | (_, v) :: rest =>
    .wanted (.bind (finds_scanValue _ depth v) (finds_scanMembers path depth rest))
      fun _ => scanMembers_cons

end

/-- A query finds nodes of the document, however much of it lies too deep. -/
theorem mem_nodes_of_find {q : Query} {v : Value} {s s' : σ} {hits : List Hit}
    (h : q.find v limit p s = (.ok hits, s')) {hit : Hit} (hmem : hit ∈ hits) :
    hit ∈ v.nodes [] := by
  rw [find] at h
  split at h
  · next f hscan =>
    cases h
    exact (finds_scanValue [] 0 v _ f hscan hit (Array.mem_def.2 hmem)).resolve_left (by simp)
  · cases h

theorem find_identity {v : Value} :
    (⟨.identity, { maxDepth := v.nesting }⟩ : Query).find v none .always () =
      (.ok (v.nodes []), ()) := by
  have hall : candidates .identity v = v.nodes [] := by
    refine List.filter_eq_self.2 fun h _ => Pattern.accepts_iff.2 ?_
    exact Pattern.foldlM_pass_nil h.path
  rw [Predicate.always, find_ofTest _ _ (Nat.le_refl _), hall, List.filter_true]

/-- No two of the hits with one text have different paths. -/
def Identified (hits : List Hit) : Prop :=
  ∀ h ∈ hits, ∀ h' ∈ hits, h.path.text = h'.path.text → h.path = h'.path

end Query

/-- Hits are identified by the texts of their paths, in each document but those whose root has a
member without a name. There the root and this member are written alike, and no other two nodes
are. -/
theorem Path.text_identifies_nodes (w : StreamWalk) (bytes : List UInt8) (v : Value)
    (h : (w.walkBytes .silent () bytes).result = .ok v) :
    (∀ p q : Path, p.text = q.text ↔
      p = q ∨ (p = [] ∧ q = [.member ""]) ∨ (p = [.member ""] ∧ q = [])) ∧
    List.TFAE [v.at? [.member ""] = none,
      ∀ p q : Path, (v.at? p).isSome → (v.at? q).isSome → p.text = q.text → p = q,
      ∀ (σ : Type) (q : Query) (limit : Option Nat) (p : Predicate σ) (s s' : σ)
        (hits : List Hit), q.find v limit p s = (.ok hits, s') → Query.Identified hits,
      ∀ (σ : Type) (q : Query) (limit : Option Nat) (p : Predicate σ) (s s' : σ)
        (hits : List Hit), q.findBytes bytes limit p s = (.ok hits, s') →
          Query.Identified hits] := by
  obtain ⟨hnames, hnesting, htext⟩ := StreamWalk.walkBytes_silent_eq_ok_iff.1 h
  have hat {hit : Hit} : hit ∈ v.nodes [] ↔ v.at? hit.path = some hit.value := by
    have hmem : hit ∈ v.nodes [] ↔ ∃ rest, hit.path = [] ++ rest ∧ v.at? rest = some hit.value :=
      Value.mem_nodes_iff hnames
    simpa using hmem
  refine ⟨fun p q => text_eq_iff, ?_⟩
  tfae_have 1 → 2 := by
    intro hnone p q hp hq hpq
    obtain heq | ⟨-, rfl⟩ | ⟨rfl, -⟩ := text_eq_iff.1 hpq
    · exact heq
    · simp [hnone] at hq
    · simp [hnone] at hp
  tfae_have 2 → 3 := by
    intro hinj σ q limit p s s' hits hfind hit hmem hit' hmem' heq
    have hnode := hat.1 (Query.mem_nodes_of_find hfind hmem)
    have hnode' := hat.1 (Query.mem_nodes_of_find hfind hmem')
    exact hinj _ _ (Option.isSome_of_eq_some hnode) (Option.isSome_of_eq_some hnode') heq
  tfae_have 3 → 4 := by
    intro hfinds σ q limit p s s' hits hfound
    have hagree : Query.Agree q.limits.maxDepth v (q.findBytes bytes limit p s)
        (q.find v limit p s) := Query.agree_of_text hnames htext
    exact hfinds σ q limit p s s' hits (hagree.scan_of_text hits s' hfound)
  tfae_have 4 → 1 := by
    intro hfinds
    by_contra hsome
    obtain ⟨x, hx⟩ := Option.ne_none_iff_exists'.1 hsome
    let q : Query := ⟨.identity, { maxDepth := v.nesting }⟩
    have hagree : Query.Agree q.limits.maxDepth v (q.findBytes bytes none .always ())
        (q.find v none .always ()) := Query.agree_of_text hnames htext
    obtain ⟨hits, s, hfound, hscan⟩ := hagree.both_ok (Nat.le_refl _)
    rw [Query.find_identity] at hscan
    cases hscan
    have hroot : ⟨[], v⟩ ∈ v.nodes [] := hat.2 (Value.at?_nil v)
    have hmember : ⟨[.member ""], x⟩ ∈ v.nodes [] := hat.2 hx
    cases hfinds _ _ _ _ _ _ _ hfound _ hroot _ hmember rfl
  tfae_finish

/-- Further inside a member without a name does no harm. -/
theorem Path.text_identifies_nodes_around_empty_name :
    let v : Value := .object [("a", .object [("", .null)])]
    (StreamWalk.walkBytes {} .silent () (Utf8.encode v.chars)).result = .ok v ∧
      ∀ p q : Path, (v.at? p).isSome → (v.at? q).isSome → p.text = q.text → p = q := by
  intro v
  have hnames : v.DistinctNames := by
    simp [v, Value.DistinctNames, Value.MembersDistinct]
  have hlegible : v.IsLegible := ⟨⟨trivial, trivial⟩, trivial⟩
  have h : (StreamWalk.walkBytes {} .silent () (Utf8.encode v.chars)).result = .ok v :=
    StreamWalk.walkBytes_silent_eq_ok_iff.2 ⟨hnames, by decide, Value.textDenotes_chars hlegible⟩
  obtain ⟨-, hidentified⟩ := text_identifies_nodes {} (Utf8.encode v.chars) v h
  exact ⟨h, (hidentified.out 0 1).1 rfl⟩

/-- A query for everything finds the root and its member without a name under one text. -/
theorem Path.text_confuses_empty_name :
    let v : Value := .object [("", .null)]
    let hits : List Hit := [⟨[.member ""], .null⟩, ⟨[], v⟩]
    (StreamWalk.walkBytes {} .silent () (Utf8.encode v.chars)).result = .ok v ∧
      Pattern.compile "" = .ok .identity ∧
      Query.findBytes { pattern := .identity } (Utf8.encode v.chars) none .always () =
        (.ok hits, ()) ∧
      ¬ Query.Identified hits := by
  intro v hits
  have hnames : v.DistinctNames := by
    simp [v, Value.DistinctNames, Value.MembersDistinct]
  have htext : Grammar.TextDenotes (Utf8.encode v.chars) v :=
    Value.textDenotes_chars ⟨trivial, trivial⟩
  let q : Query := { pattern := .identity }
  have hagree : Query.Agree q.limits.maxDepth v
      (q.findBytes (Utf8.encode v.chars) none .always ()) (q.find v none .always ()) :=
    Query.agree_of_text hnames htext
  obtain ⟨found, s, hfound, hscan⟩ := hagree.both_ok (by decide)
  have hhits : q.find v none .always () = (.ok hits, ()) := rfl
  cases hhits.symm.trans hscan
  refine ⟨StreamWalk.walkBytes_silent_eq_ok_iff.2 ⟨hnames, by decide, htext⟩, by decide +kernel,
    hfound, fun h => ?_⟩
  cases h ⟨[], v⟩ (by simp [hits]) ⟨[.member ""], .null⟩ (by simp [hits]) rfl

end JsonWalk
