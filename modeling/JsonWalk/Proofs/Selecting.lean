import JsonWalk.Proofs.Nodes
import JsonWalk.Proofs.TextQueries

/-!
# What a query selects

A query over a document asks its predicate about the nodes whose paths the pattern accepts, in the
order in which a walk leaves them, until enough of them are accepted, and finds those.
-/

namespace JsonWalk

variable {σ : Type}

namespace Predicate

/-- What a predicate accepts of hits that it is asked about one after another, and its state behind
the last. -/
def select (p : Predicate σ) (s : σ) : List Hit → List Hit × σ
  | [] => ([], s)
  | h :: rest =>
    let (answer, s) := p h.value s
    let (accepted, s) := select p s rest
    (if answer then h :: accepted else accepted, s)

theorem select_concat (p : Predicate σ) (s : σ) (hits : List Hit) (h : Hit) :
    p.select s (hits ++ [h]) =
      let (accepted, s) := p.select s hits
      let (answer, s) := p h.value s
      (if answer then accepted ++ [h] else accepted, s) := by
  induction hits generalizing s with
  | nil => rfl
  | cons g hits ih =>
    rw [List.cons_append, select, select]
    rcases p g.value s with ⟨answer, t⟩
    dsimp only
    rw [ih]
    rcases p.select t hits with ⟨accepted, u⟩
    dsimp only
    rcases p h.value u with ⟨answer', w⟩
    cases answer <;> cases answer' <;> rfl

theorem select_ofTest (test : Value → Bool) (s : σ) (hits : List Hit) :
    (ofTest test : Predicate σ).select s hits = (hits.filter (test ·.value), s) := by
  induction hits with
  | nil => rfl
  | cons h hits ih => simp only [select, ofTest, ih, List.filter_cons]

end Predicate

namespace Query

/-- The nodes whose paths a pattern accepts, in the order in which a walk leaves them. -/
def candidates (pattern : Pattern) (v : Value) : List Hit :=
  (v.nodes []).filter (pattern.accepts ·.path)

/-- The predicate has been asked about the first candidates, as long as fewer than the limit were
accepted, and about all of them unless the limit was reached. -/
structure Asks (limit : Option Nat) (p : Predicate σ) (s : σ) (candidates asked : List Hit) :
    Prop where
  asked_first : asked <+: candidates
  room : ∀ earlier n, limit = some n → earlier <+: asked → earlier ≠ asked →
    (p.select s earlier).1.length < n
  within : ∀ n, limit = some n → (p.select s asked).1.length ≤ n
  enough : asked = candidates ∨ limit = some (p.select s asked).1.length

variable {pattern : Pattern} {limit : Option Nat} {p : Predicate σ} {maxDepth : Nat} {s : σ}

namespace Asks

variable {candidates asked asked' : List Hit} {h : Hit}

theorem nil : Asks limit p s [] [] where
  asked_first := List.prefix_rfl
  room _ _ _ hfirst hne := absurd (List.prefix_nil.1 hfirst) hne
  within _ _ := Nat.zero_le _
  enough := .inl rfl

theorem concat_of_full (ha : Asks limit p s candidates asked)
    (hfull : limit = some (p.select s asked).1.length) :
    Asks limit p s (candidates ++ [h]) asked :=
  { ha with
    asked_first := ha.asked_first.trans (List.prefix_append _ _)
    enough := .inr hfull }

theorem concat (ha : Asks limit p s candidates asked)
    (hroom : ∀ n, limit = some n → (p.select s asked).1.length < n) :
    Asks limit p s (candidates ++ [h]) (asked ++ [h]) where
  asked_first := by
    obtain heq | hfull := ha.enough
    · exact heq ▸ List.prefix_rfl
    · exact absurd (hroom _ hfull) (Nat.lt_irrefl _)
  room earlier n hn hfirst hne := by
    obtain heq | hfirst := List.prefix_concat_iff.1 hfirst
    · exact absurd heq hne
    · by_cases heq : earlier = asked
      · exact heq ▸ hroom n hn
      · exact ha.room earlier n hn hfirst heq
  within n hn := by
    have hlt := hroom n hn
    rw [Predicate.select_concat]
    dsimp only
    split
    · rw [List.length_append]
      exact hlt
    · exact Nat.le_of_lt hlt
  enough := by
    obtain heq | hfull := ha.enough
    · exact .inl (by rw [heq])
    · exact absurd (hroom _ hfull) (Nat.lt_irrefl _)

/-- There is one point where to stop. -/
theorem eq_of_first (ha : Asks limit p s candidates asked)
    (ha' : Asks limit p s candidates asked') (h : asked <+: asked') : asked = asked' := by
  by_contra hne
  obtain heq | hfull := ha.enough
  · exact hne (h.eq_of_length_le (heq ▸ ha'.asked_first.length_le))
  · exact Nat.lt_irrefl _ (ha'.room asked _ hfull h hne)

theorem unique (ha : Asks limit p s candidates asked) (ha' : Asks limit p s candidates asked') :
    asked = asked' := by
  obtain h | h := List.prefix_or_prefix_of_prefix ha.asked_first ha'.asked_first
  · exact ha.eq_of_first ha' h
  · exact (ha'.eq_of_first ha h).symm

end Asks

/-! ### A scan offers the nodes -/

def offerAll (pattern : Pattern) (limit : Option Nat) (p : Predicate σ) (hits : List Hit)
    (f : Found σ) : Found σ :=
  hits.foldl (fun f h => offer pattern limit p h.path h.value f) f

theorem offerAll_append (hits hits' : List Hit) (f : Found σ) :
    offerAll pattern limit p (hits ++ hits') f =
      offerAll pattern limit p hits' (offerAll pattern limit p hits f) :=
  List.foldl_append

theorem offerAll_of_isFull {f : Found σ} (hits : List Hit) (h : f.isFull limit) :
    offerAll pattern limit p hits f = f := by
  induction hits with
  | nil => rfl
  | cons g hits ih =>
    have hcons : offerAll pattern limit p (g :: hits) f =
        offerAll pattern limit p hits (offer pattern limit p g.path g.value f) := rfl
    rw [hcons, offer_of_isFull h, ih]

mutual

/-- Within the depth a scan offers all nodes. It breaks off where offering does nothing any more. -/
theorem scanValue_eq_offerAll (path : Path) {depth : Nat} (f : Found σ) :
    ∀ {v : Value}, depth + v.nesting ≤ maxDepth →
      scanValue pattern limit p maxDepth path depth v f =
        .ok () (offerAll pattern limit p (v.nodes path) f)
  | .null, h | .bool _, h | .number _, h | .string _, h => by
    rw [scanValue_scalar rfl (Nat.le_of_add_right_le h)]
    rfl
  | .array items, h => by
    rw [Value.nesting] at h
    have hitems : depth + 1 + Value.itemsNesting items ≤ maxDepth := by omega
    rw [scanValue_array, if_neg (by omega),
      bind_of_ok (scanItems_eq_offerAll path 0 f hitems), Value.nodes, offerAll_append]
    rfl
  | .object members, h => by
    rw [Value.nesting] at h
    have hmembers : depth + 1 + Value.membersNesting members ≤ maxDepth := by omega
    rw [scanValue_object, if_neg (by omega),
      bind_of_ok (scanMembers_eq_offerAll path f hmembers), Value.nodes, offerAll_append]
    rfl

theorem scanItems_eq_offerAll (path : Path) {depth : Nat} (position : Nat) (f : Found σ) :
    ∀ {items : List Value}, depth + Value.itemsNesting items ≤ maxDepth →
      scanItems pattern limit p maxDepth path depth position items f =
        .ok () (offerAll pattern limit p (Value.itemNodes path position items) f)
  | [], _ => rfl
  | v :: rest, h => by
    by_cases hf : f.isFull limit
    · rw [scanItems_of_isFull _ hf, offerAll_of_isFull _ hf]
    · rw [Value.itemsNesting] at h
      have hv : depth + v.nesting ≤ maxDepth := by omega
      have hrest : depth + Value.itemsNesting rest ≤ maxDepth := by omega
      rw [scanItems_cons, if_neg hf, bind_of_ok (scanValue_eq_offerAll _ f hv),
        scanItems_eq_offerAll path (position + 1) _ hrest, Value.itemNodes, offerAll_append]

theorem scanMembers_eq_offerAll (path : Path) {depth : Nat} (f : Found σ) :
    ∀ {members : List (String × Value)}, depth + Value.membersNesting members ≤ maxDepth →
      scanMembers pattern limit p maxDepth path depth members f =
        .ok () (offerAll pattern limit p (Value.memberNodes path members) f)
  | [], _ => rfl
  | (name, v) :: rest, h => by
    by_cases hf : f.isFull limit
    · rw [scanMembers_of_isFull _ hf, offerAll_of_isFull _ hf]
    · rw [Value.membersNesting] at h
      have hv : depth + v.nesting ≤ maxDepth := by omega
      have hrest : depth + Value.membersNesting rest ≤ maxDepth := by omega
      rw [scanMembers_cons, if_neg hf, bind_of_ok (scanValue_eq_offerAll _ f hv),
        scanMembers_eq_offerAll path _ hrest, Value.memberNodes, offerAll_append]

end

/-! ### Offering asks about the candidates -/

/-- What is found when the predicate has been asked about some hits. -/
def found (p : Predicate σ) (s : σ) (asked : List Hit) : Found σ :=
  ⟨(p.select s asked).1.toArray, (p.select s asked).2⟩

theorem isFull_found_iff {asked : List Hit} :
    (found p s asked).isFull limit ↔ ∃ n, limit = some n ∧ n ≤ (p.select s asked).1.length := by
  cases limit <;> simp [Found.isFull, found]

theorem offer_found {asked : List Hit} {h : Hit}
    (hroom : ¬ (found p s asked).isFull limit) (haccepts : pattern.accepts h.path) :
    offer pattern limit p h.path h.value (found p s asked) = found p s (asked ++ [h]) := by
  rw [offer, if_neg hroom, if_pos haccepts, found, found, Predicate.select_concat]
  rcases p.select s asked with ⟨accepted, t⟩
  dsimp only
  rcases p h.value t with ⟨_ | _, u⟩
  · rfl
  · simp

theorem offer_of_not_accepts {f : Found σ} {h : Hit} (haccepts : ¬ pattern.accepts h.path) :
    offer pattern limit p h.path h.value f = f := by
  rw [offer, if_neg haccepts, ite_self]

theorem exists_asks_offerAll (hits : List Hit) :
    ∃ asked, Asks limit p s (hits.filter (pattern.accepts ·.path)) asked ∧
      offerAll pattern limit p hits { state := s } = found p s asked := by
  induction hits using List.reverseRecOn with
  | nil => exact ⟨[], .nil, rfl⟩
  | append_singleton hits h ih =>
    obtain ⟨asked, hasks, hoffered⟩ := ih
    have hlast : offerAll pattern limit p (hits ++ [h]) { state := s } =
        offer pattern limit p h.path h.value (found p s asked) := by
      rw [offerAll_append, hoffered]
      rfl
    rw [List.filter_append, hlast]
    by_cases haccepts : pattern.accepts h.path
    · simp only [List.filter_cons, haccepts, if_true, List.filter_nil]
      by_cases hfull : (found p s asked).isFull limit
      · obtain ⟨n, hn, hle⟩ := isFull_found_iff.1 hfull
        have hcount := Nat.le_antisymm hle (hasks.within n hn)
        exact ⟨asked, hasks.concat_of_full (hcount ▸ hn), offer_of_isFull hfull⟩
      · refine ⟨asked ++ [h], hasks.concat fun n hn => ?_, offer_found hfull haccepts⟩
        exact Nat.lt_of_not_le fun hle => hfull (isFull_found_iff.2 ⟨n, hn, hle⟩)
    · simp only [List.filter_cons, haccepts, Bool.false_eq_true, if_false, List.filter_nil,
        List.append_nil]
      exact ⟨asked, hasks, offer_of_not_accepts haccepts⟩

theorem find_eq_offerAll {q : Query} {v : Value} (h : v.nesting ≤ q.limits.maxDepth) :
    q.find v limit p s =
      (.ok (offerAll q.pattern limit p (v.nodes []) { state := s }).hits.toList,
        (offerAll q.pattern limit p (v.nodes []) { state := s }).state) := by
  rw [find, scanValue_eq_offerAll [] _ ((Nat.zero_add _).trans_le h)]

theorem find_of_asks {q : Query} {v : Value} {asked : List Hit}
    (h : v.nesting ≤ q.limits.maxDepth) (ha : Asks limit p s (candidates q.pattern v) asked) :
    q.find v limit p s = (.ok (p.select s asked).1, (p.select s asked).2) := by
  obtain ⟨asked', ha', hoffered⟩ := exists_asks_offerAll (v.nodes [])
  rw [find_eq_offerAll h, hoffered, ha.unique ha']
  rfl

end Query

/-! ### What the predicate is asked, and predicates that remember nothing -/

theorem Predicate.select_logged (p : Predicate σ) (s : σ) (log : List Value) (hits : List Hit) :
    p.logged.select (s, log) hits =
      ((p.select s hits).1, (p.select s hits).2, log ++ hits.map (·.value)) := by
  induction hits generalizing s log with
  | nil => simp [select]
  | cons h hits ih => simp [select, logged, ih]

namespace Query

section

variable {limit : Option Nat} {p : Predicate σ} {s : σ} {row asked : List Hit}

/-- The log has no say in what is asked. -/
theorem Asks.logged (ha : Asks limit p s row asked) : Asks limit p.logged (s, []) row asked where
  asked_first := ha.asked_first
  room := by simpa only [Predicate.select_logged] using ha.room
  within := by simpa only [Predicate.select_logged] using ha.within
  enough := by simpa only [Predicate.select_logged] using ha.enough

theorem Asks.eq_of_no_limit (ha : Asks none p s row asked) : asked = row :=
  ha.enough.resolve_right nofun

theorem Asks.filter_eq_take {n : Nat} {test : Value → Bool}
    (ha : Asks (some n) (.ofTest test) s row asked) :
    asked.filter (test ·.value) = (row.filter (test ·.value)).take n := by
  have hle := ha.within n rfl
  have henough := ha.enough
  rw [Predicate.select_ofTest] at hle henough
  obtain heq | hfull := henough
  · rw [← heq, List.take_of_length_le hle]
  · rw [Option.some_inj] at hfull
    rw [hfull]
    exact List.prefix_iff_eq_take.1 (ha.asked_first.filter _)

end

theorem exists_asks (pattern : Pattern) (limit : Option Nat) (p : Predicate σ) (s : σ) (v : Value) :
    ∃ asked, Asks limit p s (candidates pattern v) asked := by
  obtain ⟨asked, ha, -⟩ := exists_asks_offerAll (v.nodes [])
  exact ⟨asked, ha⟩

section

variable {q : Query} {v : Value} (test : Value → Bool) (s : σ)

theorem find_ofTest (h : v.nesting ≤ q.limits.maxDepth) :
    q.find v none (.ofTest test) s =
      (.ok ((candidates q.pattern v).filter (test ·.value)), s) := by
  obtain ⟨asked, ha⟩ := exists_asks q.pattern none (.ofTest test) s v
  rw [find_of_asks h ha, Predicate.select_ofTest, ha.eq_of_no_limit]

theorem find_ofTest_some (h : v.nesting ≤ q.limits.maxDepth) (n : Nat) :
    q.find v (some n) (.ofTest test) s =
      (.ok (((candidates q.pattern v).filter (test ·.value)).take n), s) := by
  obtain ⟨asked, ha⟩ := exists_asks q.pattern (some n) (.ofTest test) s v
  rw [find_of_asks h ha, Predicate.select_ofTest, ha.filter_eq_take]

end

/-- A query over a document within the depth asks about the values whose paths the pattern accepts,
each of them once, in the order in which a walk leaves them, up to the limit, and finds those that
the predicate accepts. A predicate that remembers nothing accepts the same values under every
limit. -/
theorem find_selects_nodes (q : Query) (v : Value) (hv : v.DistinctNames)
    (hn : v.nesting ≤ q.limits.maxDepth) (limit : Option Nat) (p : Predicate σ) (s : σ)
    (test : Value → Bool) :
    let hits := (candidates q.pattern v).filter (test ·.value)
    (∀ path w, ⟨path, w⟩ ∈ v.nodes [] ↔ v.at? path = some w) ∧
    (v.nodes []).Pairwise (fun h h' => ¬ h.path <+: h'.path) ∧
    (∃ asked, Asks limit p s (candidates q.pattern v) asked ∧
      q.find v limit p s = (.ok (p.select s asked).1, (p.select s asked).2) ∧
      q.find v limit p.logged (s, []) =
        (.ok (p.select s asked).1, (p.select s asked).2, asked.map (·.value))) ∧
    q.find v none (.ofTest test) s = (.ok hits, s) ∧
    q.all v (.ofTest test) s = (.ok (hits.map (·.value)), s) ∧
    q.first v (.ofTest test) s = (.ok (hits.head?.map (·.value)), s) ∧
    ∀ n, q.find v (some n) (.ofTest test) s = (.ok (hits.take n), s) ∧
      q.firstN v n (.ofTest test) s = (.ok ((hits.take n).map (·.value)), s) := by
  intro hits
  refine ⟨fun path w => ?_, Value.pairwise_nodes [] hv, ?_, find_ofTest test s hn, ?_, ?_,
    fun n => ⟨find_ofTest_some test s hn n, ?_⟩⟩
  · simp [Value.mem_nodes_iff hv]
  · obtain ⟨asked, ha⟩ := exists_asks q.pattern limit p s v
    refine ⟨asked, ha, find_of_asks hn ha, ?_⟩
    rw [find_of_asks hn ha.logged, Predicate.select_logged, List.nil_append]
  · rw [all, find_ofTest test s hn]
    rfl
  · have hlatest (hits : List Hit) : (hits.take 1).getLast? = hits.head? := by cases hits <;> rfl
    simp only [first, find_ofTest_some test s hn, latest, Except.map, hlatest, hits]
  · rw [firstN, find_ofTest_some test s hn]
    rfl

/-- The pattern passes over what is outside of the member, and the limit over its array. -/
theorem find_selects_nodes_of_member :
    let v : Value := .object [("a", .array [.null, .bool true]), ("b", .null)]
    let q : Query := { pattern := ⟨[.literal (.member "a")]⟩, limits := { maxDepth := 2 } }
    v.DistinctNames ∧ v.nesting ≤ q.limits.maxDepth ∧
      q.first v (.ofTest (·.kind = .null)) 0 = (.ok (some .null), 0) ∧
      ∃ asked, Asks (some 1) .everySecond 0 (candidates q.pattern v) asked ∧
        (.ok (Predicate.everySecond.select 0 asked).1, (Predicate.everySecond.select 0 asked).2) =
          ((.ok [⟨[.member "a", .index 1], .bool true⟩], 2) :
            Except WalkError (List Hit) × Nat) := by
  intro v q
  have hv : v.DistinctNames := ⟨by decide, ⟨trivial, trivial, trivial⟩, trivial, trivial⟩
  have hn : v.nesting ≤ q.limits.maxDepth := by decide
  obtain ⟨-, -, ⟨asked, ha, hfind, -⟩, -, -, hfirst, -⟩ :=
    find_selects_nodes q v hv hn (some 1) .everySecond 0 (·.kind = .null)
  exact ⟨hv, hn, hfirst, asked, ha, hfind.symm⟩

end Query
end JsonWalk
