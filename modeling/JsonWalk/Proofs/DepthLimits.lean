import JsonWalk.Proofs.DepthCuts
import JsonWalk.Proofs.Selecting

/-!
# One limit of the depth for walks and queries

Tree walks, walks over tokens and queries count the open arrays and objects each in its own way, and
come to the same verdict at the same place: before the first array or object of the document that
lies too deep. What comes before it happens, and nothing else.
-/

namespace JsonWalk

variable {σ τ : Type}

/-- What a limit of the depth makes of a document with a nesting. -/
def depthVerdict (limit nesting : Nat) : Except WalkError Unit :=
  if limit < nesting then .error (.tooDeep limit) else .ok ()

namespace Value

variable {limit : Nat} {path : Path} {t : List Report}

theorem any_isTooDeep_around {kind : NodeKind} {place : Place} :
    (Report.around kind path place t).any (Report.isTooDeep limit) =
      ((kind.isContainer && decide (limit ≤ path.length)) || t.any (Report.isTooDeep limit)) := by
  rw [Report.around, List.any_cons, List.any_append, List.any_cons, List.any_nil]
  simp only [Report.isTooDeep, Bool.or_false]

theorem any_isTooDeep_around_iff {kind : NodeKind} {place : Place} {n : Nat}
    (hkind : kind.isContainer) (hdepth : path.length ≤ limit)
    (h : path.length + 1 ≤ limit → (t.any (Report.isTooDeep limit) ↔ limit < path.length + 1 + n)) :
    (Report.around kind path place t).any (Report.isTooDeep limit) ↔
      limit < path.length + (n + 1) := by
  rw [any_isTooDeep_around, hkind, Bool.true_and, Bool.or_eq_true, decide_eq_true_iff]
  by_cases hd : path.length + 1 ≤ limit
  · rw [h hd]
    omega
  · exact iff_of_true (.inl (by omega)) (by omega)

mutual

theorem any_isTooDeep_trace (path : Path) (place : Place) (hdepth : path.length ≤ limit) :
    ∀ {v : Value}, (v.trace path place).any (Report.isTooDeep limit) ↔
      limit < path.length + v.nesting
  | .null | .bool _ | .number _ | .string _ => by
    rw [trace, any_isTooDeep_around, nesting]
    exact iff_of_false Bool.false_ne_true (Nat.not_lt.2 hdepth)
  | .array items =>
    any_isTooDeep_around_iff rfl hdepth fun h => any_isTooDeep_itemsTrace path 0 h
  | .object members =>
    any_isTooDeep_around_iff rfl hdepth fun h => any_isTooDeep_membersTrace path h

theorem any_isTooDeep_itemsTrace (path : Path) (position : Nat) (hdepth : path.length + 1 ≤ limit) :
    ∀ {items : List Value}, (itemsTrace path position items).any (Report.isTooDeep limit) ↔
      limit < path.length + 1 + itemsNesting items
  | [] => iff_of_false Bool.false_ne_true (Nat.not_lt.2 hdepth)
  | v :: rest => by
    have hlength : (path ++ [Segment.index position]).length = path.length + 1 := List.length_append
    have hv := any_isTooDeep_trace (path ++ [.index position]) (.element position)
      (hlength.trans_le hdepth) (v := v)
    rw [hlength] at hv
    rw [itemsTrace, List.any_append, Bool.or_eq_true, hv,
      any_isTooDeep_itemsTrace path (position + 1) hdepth, itemsNesting]
    omega

theorem any_isTooDeep_membersTrace (path : Path) (hdepth : path.length + 1 ≤ limit) :
    ∀ {members : List (String × Value)},
      (membersTrace path members).any (Report.isTooDeep limit) ↔
        limit < path.length + 1 + membersNesting members
  | [] => iff_of_false Bool.false_ne_true (Nat.not_lt.2 hdepth)
  | (name, v) :: rest => by
    have hlength : (path ++ [Segment.member name]).length = path.length + 1 := List.length_append
    have hv := any_isTooDeep_trace (path ++ [.member name]) (.memberValue name)
      (hlength.trans_le hdepth) (v := v)
    have hmember : NodeKind.member.isContainer = false := rfl
    rw [hlength] at hv
    rw [membersTrace, List.any_append, any_isTooDeep_around, hmember, Bool.false_and, Bool.false_or,
      Bool.or_eq_true, hv, any_isTooDeep_membersTrace path hdepth, membersNesting]
    omega

end

end Value

/-- The path of a value that is left. The members around values are passed over. -/
def Report.leftValue? : Report → Option Path
  | .entered _ _ => none
  | .left kind path _ _ => if kind = .member then none else some path

namespace Query

variable {pattern : Pattern} {p : Predicate τ} {limit : Nat} {deep : Report → Bool}
  {e : WalkError} {t t' : List Report} {hits hits' : List Hit}

/-! ### Scans that are cut off -/

theorem not_isFull_of_offerAll {budget : Option Nat} {f : Found τ}
    (h : ¬ (offerAll pattern budget p hits f).isFull budget) : ¬ f.isFull budget := by
  intro hf
  rw [offerAll_of_isFull hits hf] at h
  exact h hf

/-- As long as more is wanted, a scan offers the values that the trace leaves before the first deep
report. If there is such a report, the scan fails there with the error `e`. -/
def Offers (pattern : Pattern) (p : Predicate τ) (deep : Report → Bool) (e : WalkError)
    (t : List Report) (hits : List Hit) (scan : Option Nat → EStateM WalkError (Found τ) Unit) :
    Prop :=
  ∃ left, left <+: hits ∧
    left.map (·.path) = (t.takeWhile (!deep ·)).filterMap Report.leftValue? ∧
    (t.any deep = false → left = hits) ∧
    ∀ budget f, ¬ (offerAll pattern budget p left f).isFull budget →
      scan budget f =
        if t.any deep then .error e (offerAll pattern budget p left f)
        else .ok () (offerAll pattern budget p left f)

namespace Offers

variable {scan scan' scan'' : Option Nat → EStateM WalkError (Found τ) Unit}

theorem still : Offers pattern p deep e [] [] fun _ => pure () :=
  ⟨[], List.prefix_rfl, rfl, fun _ => rfl, fun _ _ _ => rfl⟩

theorem silent {r : Report} (hdeep : deep r = false) (hr : r.leftValue? = none) :
    Offers pattern p deep e [r] [] fun _ => pure () := by
  refine ⟨[], List.prefix_rfl, ?_, fun _ => rfl, fun budget f _ => ?_⟩
  · rw [List.takeWhile_cons, hdeep, Bool.not_false, if_pos rfl, List.filterMap_cons, hr]
    rfl
  · rw [List.any_cons, hdeep]
    rfl

theorem left {kind : NodeKind} {path : Path} {place : Place} {v : Value} (hkind : kind ≠ .member)
    (hdeep : deep (.left kind path place.property place.position) = false) :
    Offers pattern p deep e [.left kind path place.property place.position] [⟨path, v⟩]
      fun budget => modify (offer pattern budget p path v) := by
  refine ⟨[⟨path, v⟩], List.prefix_rfl, ?_, fun _ => rfl, fun budget f _ => ?_⟩
  · rw [List.takeWhile_cons, hdeep, Bool.not_false, if_pos rfl, List.filterMap_cons,
      Report.leftValue?, if_neg hkind]
    rfl
  · rw [List.any_cons, hdeep]
    rfl

theorem throw {r : Report} (hr : deep r = true) :
    Offers pattern p deep e (r :: t) hits fun _ => throw e := by
  refine ⟨[], List.nil_prefix, ?_, fun h => ?_, fun budget f _ => ?_⟩
  · rw [List.takeWhile_cons, hr]
    rfl
  · rw [List.any_cons, hr] at h
    cases h
  · rw [List.any_cons, hr]
    rfl

theorem append (h : Offers pattern p deep e t hits scan)
    (h' : Offers pattern p deep e t' hits' scan')
    (hscan : ∀ budget f, ¬ f.isFull budget →
      scan'' budget f = (scan budget >>= fun _ => scan' budget) f) :
    Offers pattern p deep e (t ++ t') (hits ++ hits') scan'' := by
  obtain ⟨left, hfirst, hpaths, hall, hleft⟩ := h
  rw [Offers, List.any_append]
  cases hdeep : t.any deep with
  | true =>
    refine ⟨left, hfirst.trans (List.prefix_append _ _), ?_, nofun, fun budget f hroom => ?_⟩
    · rw [takeWhile_append_of_any hdeep, hpaths]
    · have herror := hleft budget f hroom
      rw [if_pos hdeep] at herror
      rw [hscan budget f (not_isFull_of_offerAll hroom), bind_of_error herror]
      rfl
  | false =>
    obtain rfl := hall hdeep
    obtain ⟨left', hfirst', hpaths', hall', hleft'⟩ := h'
    refine ⟨left ++ left', (List.prefix_append_right_inj _).2 hfirst', ?_, fun h => ?_,
      fun budget f hroom => ?_⟩
    · rw [takeWhile_append_of_not_any hdeep, List.filterMap_append, List.map_append, hpaths',
        hpaths, takeWhile_of_not_any hdeep]
    · rw [hall' h]
    · rw [offerAll_append] at hroom ⊢
      have hfirst := not_isFull_of_offerAll hroom
      have hok := hleft budget f hfirst
      rw [hdeep, if_neg Bool.false_ne_true] at hok
      rw [hscan budget f (not_isFull_of_offerAll hfirst), bind_of_ok hok, hleft' budget _ hroom]
      rfl

theorem around {kind : NodeKind} {path : Path} {place : Place}
    (hdeep : deep (.entered kind path) = false) (h : Offers pattern p deep e t hits scan)
    (hleft : Offers pattern p deep e [.left kind path place.property place.position] hits' scan') :
    Offers pattern p deep e (Report.around kind path place t) (hits ++ hits')
      fun budget => scan budget >>= fun _ => scan' budget :=
  (silent hdeep rfl).append (h.append hleft fun _ _ _ => rfl) fun _ _ _ => rfl

theorem member {path : Path} {name : String}
    (h : Offers pattern p (Report.isTooDeep limit) e t hits scan) :
    Offers pattern p (Report.isTooDeep limit) e (Report.around .member path (.member name) t) hits
      scan := by
  have hmember : Offers pattern p (Report.isTooDeep limit) e
      (Report.around .member path (.member name) t) (hits ++ [])
      fun budget => scan budget >>= fun _ => pure () := h.around rfl (.silent rfl rfl)
  simpa only [List.append_nil, bind_pure_unit] using hmember

end Offers

theorem offers_scanScalar {path : Path} {place : Place} {v : Value}
    (hv : v.kind.isContainer = false) (hdepth : path.length ≤ limit) :
    Offers pattern p (Report.isTooDeep limit) (.tooDeep limit) (Report.around v.kind path place [])
      [⟨path, v⟩] fun budget => scanValue pattern budget p limit path path.length v := by
  have hdeep : Report.isTooDeep limit (.entered v.kind path) = false := by
    rw [Report.isTooDeep, hv, Bool.false_and]
  simp only [scanValue_scalar hv hdepth]
  exact Offers.still.around hdeep (.left v.kind_ne_member rfl)

theorem offers_scanContainer {path : Path} {place : Place} {v : Value}
    (hv : v.kind.isContainer) {inside : Option Nat → EStateM WalkError (Found τ) Unit}
    (h : path.length + 1 ≤ limit →
      Offers pattern p (Report.isTooDeep limit) (.tooDeep limit) t hits inside) :
    Offers pattern p (Report.isTooDeep limit) (.tooDeep limit) (Report.around v.kind path place t)
      (hits ++ [⟨path, v⟩]) fun budget =>
        if limit < path.length + 1 then throw (.tooDeep limit)
        else inside budget >>= fun _ => modify (offer pattern budget p path v) := by
  by_cases hd : limit < path.length + 1
  · have hdeep : Report.isTooDeep limit (.entered v.kind path) = true := by
      rw [Report.isTooDeep, hv, Bool.true_and, decide_eq_true (Nat.lt_succ_iff.1 hd)]
    simp only [if_pos hd]
    exact .throw hdeep
  · have hdeep : Report.isTooDeep limit (.entered v.kind path) = false := by
      rw [Report.isTooDeep, hv, Bool.true_and, decide_eq_false (by omega)]
    simp only [if_neg hd]
    exact (h (Nat.not_lt.1 hd)).around hdeep (.left v.kind_ne_member rfl)

mutual

/-- A scan offers the values that come before the first array or object that lies too deep. -/
theorem offers_scanValue (path : Path) (place : Place) {depth : Nat} (hdepth : path.length = depth)
    (hlimit : depth ≤ limit) : ∀ v : Value,
      Offers pattern p (Report.isTooDeep limit) (.tooDeep limit) (v.trace path place)
        (v.nodes path) fun budget => scanValue pattern budget p limit path depth v
  | .null | .bool _ | .number _ | .string _ => by
    subst hdepth
    exact offers_scanScalar rfl hlimit
  | .array items => by
    subst hdepth
    simp only [scanValue_array]
    exact offers_scanContainer rfl fun h => offers_scanItems path 0 rfl h items
  | .object members => by
    subst hdepth
    simp only [scanValue_object]
    exact offers_scanContainer rfl fun h => offers_scanMembers path rfl h members

theorem offers_scanItems (path : Path) (position : Nat) {depth : Nat}
    (hdepth : path.length + 1 = depth) (hlimit : depth ≤ limit) : ∀ items : List Value,
      Offers pattern p (Report.isTooDeep limit) (.tooDeep limit)
        (Value.itemsTrace path position items) (Value.itemNodes path position items)
        fun budget => scanItems pattern budget p limit path depth position items
  | [] => .still
  | v :: rest => by
    have hlength : (path ++ [Segment.index position]).length = depth :=
      List.length_append.trans hdepth
    refine (offers_scanValue _ (.element position) hlength hlimit v).append
      (offers_scanItems path (position + 1) hdepth hlimit rest) fun budget f hf => ?_
    rw [scanItems_cons, if_neg hf]

theorem offers_scanMembers (path : Path) {depth : Nat} (hdepth : path.length + 1 = depth)
    (hlimit : depth ≤ limit) : ∀ members : List (String × Value),
      Offers pattern p (Report.isTooDeep limit) (.tooDeep limit) (Value.membersTrace path members)
        (Value.memberNodes path members)
        fun budget => scanMembers pattern budget p limit path depth members
  | [] => .still
  | (name, v) :: rest => by
    have hlength : (path ++ [Segment.member name]).length = depth :=
      List.length_append.trans hdepth
    refine (offers_scanValue _ (.memberValue name) hlength hlimit v).member.append
      (offers_scanMembers path hdepth hlimit rest) fun budget f hf => ?_
    rw [scanMembers_cons, if_neg hf]

end

/-! ### Queries that are cut off -/

theorem length_select_le (s : τ) {asked asked' : List Hit} (h : asked <+: asked') :
    (p.select s asked).1.length ≤ (p.select s asked').1.length := by
  obtain ⟨rest, rfl⟩ := h
  induction rest using List.reverseRecOn with
  | nil => rw [List.append_nil]
  | append_singleton rest h ih =>
    rw [← List.append_assoc, Predicate.select_concat]
    dsimp only
    split
    · rw [List.length_append]
      exact Nat.le_add_right_of_le ih
    · exact ih

/-- Offering hits asks about all of the ones with accepted paths if more is wanted at the end. -/
theorem offerAll_of_room {budget : Option Nat} {s : τ}
    (hroom : ∀ n, budget = some n →
      (p.select s (hits.filter (pattern.accepts ·.path))).1.length < n) :
    offerAll pattern budget p hits { state := s } =
      found p s (hits.filter (pattern.accepts ·.path)) := by
  obtain ⟨asked, hasks, hoffered⟩ : ∃ asked,
      Asks budget p s (hits.filter (pattern.accepts ·.path)) asked ∧
        offerAll pattern budget p hits { state := s } = found p s asked :=
    exists_asks_offerAll hits
  obtain heq | hfull := hasks.enough
  · rw [hoffered, heq]
  · exact absurd (hroom _ hfull) (Nat.not_lt.2 (length_select_le s hasks.asked_first))

theorem filter_paths (hits : List Hit) (accepts : Path → Bool) :
    (hits.filter (accepts ·.path)).map (·.path) = (hits.map (·.path)).filter accepts := by
  rw [List.filter_map]
  rfl

/-- A query asks about the candidates that come before the first array or object that lies too deep,
and fails there. -/
theorem exists_find_eq (pattern : Pattern) (limits : Limits) (p : Predicate τ) (v : Value) :
    ∃ asked, asked <+: candidates pattern v ∧
      asked.map (·.path) =
        (((v.trace [] .root).takeWhile (!·.isTooDeep limits.maxDepth)).filterMap
          Report.leftValue?).filter pattern.accepts ∧
      ∀ (budget : Option Nat) (s : τ),
        (∀ n, budget = some n → (p.select s asked).1.length < n) →
          Query.find { pattern, limits } v budget p s =
            ((depthVerdict limits.maxDepth v.nesting).map fun _ => (p.select s asked).1,
              (p.select s asked).2) := by
  have hoffers : Offers pattern p (Report.isTooDeep limits.maxDepth) (.tooDeep limits.maxDepth)
      (v.trace [] .root) (v.nodes [])
      fun budget => scanValue pattern budget p limits.maxDepth [] 0 v :=
    offers_scanValue [] .root rfl (Nat.zero_le _) v
  obtain ⟨left, hfirst, hpaths, -, hscan⟩ := hoffers
  refine ⟨left.filter (pattern.accepts ·.path), hfirst.filter _, ?_, fun budget s hroom => ?_⟩
  · rw [filter_paths, hpaths]
  · have hoffered := offerAll_of_room hroom
    have hnotFull : ¬ (offerAll pattern budget p left { state := s }).isFull budget := by
      rw [hoffered, isFull_found_iff]
      rintro ⟨n, hn, hle⟩
      exact absurd (hroom n hn) (Nat.not_lt.2 hle)
    have hdeep := Value.any_isTooDeep_trace [] .root (Nat.zero_le limits.maxDepth) (v := v)
    rw [List.length_nil, Nat.zero_add] at hdeep
    have hend : scanValue pattern budget p limits.maxDepth [] 0 v { state := s } =
        if limits.maxDepth < v.nesting then
          .error (.tooDeep limits.maxDepth) (found p s (left.filter (pattern.accepts ·.path)))
        else .ok () (found p s (left.filter (pattern.accepts ·.path))) := by
      simpa only [hdeep, hoffered] using hscan budget { state := s } hnotFull
    by_cases hd : limits.maxDepth < v.nesting
    · simp only [find, hend, depthVerdict, if_pos hd]
      rfl
    · simp only [find, hend, depthVerdict, if_neg hd]
      rfl

end Query

/-! ### One verdict -/

section

variable {l : Listener σ} {v : Value}

theorem Walked.state_outcome (w : Walked σ Value) : w.outcome.2 = w.state := by
  obtain ⟨v, s, _ | e⟩ := w <;> rfl

theorem TokenSource.spells_tokens (v : Value) : Spells v.tokens v ([] : List Token) :=
  ⟨[], hands_list_iff.2 ⟨(List.append_nil _).symm, v.endOfInput_notMem_tokens⟩, rfl⟩

theorem StreamWalk.outcome_walk_tokens (hv : v.DistinctNames) (w : StreamWalk) (l : Listener σ)
    (s : σ) : (w.walk l s v.tokens).outcome =
      match passValue l w.limits.maxDepth [] .root 0 v s with
      | .ok v s => (.ok v, s)
      | .error e s => (.error e, s) :=
  Assembly.outcome_run_of_spells s hv (TokenSource.spells_tokens v)

/-- A walk over the tokens of a document makes the calls of a walk with room enough, up to the first
array or object that lies too deep. -/
theorem StreamWalk.walk_tokens_cut (hfails : l.NeverFails) (hskips : l.NeverSkips)
    (hv : v.DistinctNames) (w free : StreamWalk)
    (hfree : v.nesting ≤ free.limits.maxDepth) (s : σ) :
    let calls := (free.walk l.logged (s, []) v.tokens).state.2
    calls.map Call.report = v.trace [] .root ∧
      (w.walk l.logged (s, []) v.tokens).state.2 =
        calls.takeWhile (!·.report.isTooDeep w.limits.maxDepth) ∧
      (w.walk l.logged (s, []) v.tokens).result.map (fun _ => ()) =
        depthVerdict w.limits.maxDepth v.nesting := by
  have hcuts : Cuts (Report.isTooDeep w.limits.maxDepth) (.tooDeep w.limits.maxDepth)
      (v.trace [] .root) (passValue l.logged w.limits.maxDepth [] .root 0 v)
      (passValue l.logged free.limits.maxDepth [] .root 0 v) :=
    cuts_passValue hfails hskips [] .root rfl ((Nat.zero_add _).trans_le hfree)
  obtain ⟨calls, a, t, hwhole, hreports, hcut⟩ := hcuts s []
  have hcalls : (free.walk l.logged (s, []) v.tokens).state.2 = calls := by
    have hend := outcome_walk_tokens hv free l.logged (s, [])
    rw [hwhole] at hend
    exact congrArg (·.2.2) hend
  have hdeep : (calls.any (·.report.isTooDeep w.limits.maxDepth)) ↔
      w.limits.maxDepth < v.nesting := by
    have htrace := Value.any_isTooDeep_trace [] .root (Nat.zero_le w.limits.maxDepth) (v := v)
    rw [← hreports, List.any_map, List.length_nil, Nat.zero_add] at htrace
    exact htrace
  have hend := outcome_walk_tokens hv w l.logged (s, [])
  rw [hcalls, depthVerdict]
  refine ⟨hreports, ?_⟩
  by_cases hlimit : w.limits.maxDepth < v.nesting
  · rw [if_pos (hdeep.2 hlimit)] at hcut
    obtain ⟨u, hu⟩ := hcut
    rw [hu] at hend
    rw [if_pos hlimit]
    exact ⟨congrArg (·.2.2) hend, congrArg (·.1.map fun _ => ()) hend⟩
  · rw [if_neg (mt hdeep.1 hlimit)] at hcut
    rw [hcut] at hend
    rw [if_neg hlimit, takeWhile_of_not_any (Bool.eq_false_iff.2 (mt hdeep.1 hlimit))]
    exact ⟨congrArg (·.2.2) hend, congrArg (·.1.map fun _ => ()) hend⟩

theorem eq_of_first_of_paths {row asked asked' : List Hit} (h : asked <+: row)
    (h' : asked' <+: row) (hpaths : asked.map (·.path) = asked'.map (·.path)) :
    asked = asked' := by
  have hlength : asked.length = asked'.length := by
    simpa only [List.length_map] using congrArg List.length hpaths
  exact (List.prefix_of_prefix_length_le h h' (Nat.le_of_eq hlength)).eq_of_length hlength

/-- A tree walk, a walk over tokens and a query with room for more hits end well if the document is
nested no deeper than the limit, and otherwise fail with that limit. The listener, which neither
skips nor fails, is called and the predicate is asked as without a limit until the first array or
object that lies too deep would be entered, and no more. -/
theorem depth_limits_agree (hfails : l.NeverFails) (hskips : l.NeverSkips) (hv : v.DistinctNames)
    (limits : Limits) (leftover : Assembly) (pattern : Pattern) (p : Predicate τ) (s : σ) (u : τ) :
    let limit := limits.maxDepth
    let verdict := depthVerdict limit v.nesting
    let tree (depth : Nat) : TreeWalk := { maxDepth := depth }
    let stream : StreamWalk := { limits, leftover }
    let query (limits : Limits) : Query := { pattern, limits }
    ((tree limit).walk l s v).outcome.1.map (fun _ => ()) = verdict ∧
    (stream.walk l s v.tokens).result.map (fun _ => ()) = verdict ∧
    (∀ free, v.nesting ≤ free →
      let calls := ((tree free).walk l.logged (s, []) v).state.2
      let before := calls.takeWhile (!·.report.isTooDeep limit)
      calls.map Call.report = v.trace [] .root ∧
      ((tree limit).walk l.logged (s, []) v).state.2 = before ∧
      (stream.walk l.logged (s, []) v.tokens).state.2 = before) ∧
    (∀ free : Limits, v.nesting ≤ free.maxDepth →
      ((query free).find v none p.logged (u, [])).2.2 =
        (Query.candidates pattern v).map (·.value)) ∧
    ∃ asked, asked <+: Query.candidates pattern v ∧
      asked.map (·.path) = (((v.trace [] .root).takeWhile (!·.isTooDeep limit)).filterMap
        Report.leftValue?).filter pattern.accepts ∧
      ∀ budget, (∀ n, budget = some n → (p.select u asked).1.length < n) →
        (query limits).find v budget p u =
          (verdict.map fun _ => (p.select u asked).1, (p.select u asked).2) ∧
        (query limits).find v budget p.logged (u, []) =
          (verdict.map fun _ => (p.select u asked).1, (p.select u asked).2,
            asked.map (·.value)) := by
  intro limit verdict tree stream query
  have htree {σ : Type} {l : Listener σ} (hskips : l.NeverSkips) (w : StreamWalk) (s : σ) :
      (w.walk l s v.tokens).outcome = ((tree w.limits.maxDepth).walk l s v).outcome :=
    StreamWalk.outcome_walk hv (.inl hskips) (TokenSource.spells_tokens v)
  have hcalls (w : StreamWalk) : (w.walk l.logged (s, []) v.tokens).state.2 =
      ((tree w.limits.maxDepth).walk l.logged (s, []) v).state.2 := by
    rw [← Walked.state_outcome, ← htree hskips.logged w]
    rfl
  have hstream : (stream.walk l s v.tokens).result.map (fun _ => ()) = verdict := by
    obtain ⟨-, -, hverdict⟩ := StreamWalk.walk_tokens_cut hfails hskips hv stream
      { limits := { maxDepth := v.nesting } } (Nat.le_refl _) s
    exact (Assembly.run_agree hfails hfails.logged limit rfl s (s, []) v.tokens).1.trans hverdict
  refine ⟨?_, hstream, fun free hfree => ?_, fun free hfree => ?_, ?_⟩
  · rw [← hstream]
    exact congrArg (·.1.map fun _ => ()) (htree hskips stream s).symm
  · let roomy : StreamWalk := { limits := { maxDepth := free } }
    obtain ⟨hreports, hbefore, -⟩ := StreamWalk.walk_tokens_cut hfails hskips hv stream roomy
      hfree s
    rw [hcalls roomy] at hreports hbefore
    exact ⟨hreports, (hcalls stream).symm.trans hbefore, hbefore⟩
  · obtain ⟨asked, ha⟩ := Query.exists_asks pattern none p u v
    rw [Query.find_of_asks hfree ha.logged, Predicate.select_logged, ha.eq_of_no_limit]
    rfl
  · obtain ⟨asked, hfirst, hpaths, hfind⟩ := Query.exists_find_eq pattern limits p v
    obtain ⟨asked', hfirst', hpaths', hfind'⟩ := Query.exists_find_eq pattern limits p.logged v
    obtain rfl := eq_of_first_of_paths hfirst hfirst' (hpaths.trans hpaths'.symm)
    refine ⟨asked, hfirst, hpaths, fun budget hroom => ⟨hfind budget u hroom, ?_⟩⟩
    have hlogged := hfind' budget (u, [])
    simp only [Predicate.select_logged, List.nil_append] at hlogged
    exact hlogged hroom

/-- The second element goes too deep after the listener has detached the first, and nobody is asked
about the third. -/
theorem depth_limits_agree_before_deep_sibling :
    let v : Value := .array [.array [.null], .object [("k", .array [.array []])], .array [.null]]
    let l : Listener Nat :=
      { onEnter := fun _ s => { state := s + 1 },
        onExit := fun e s => { state := s, taken := e.kind = .array } }
    let limits : Limits := { maxDepth := 2 }
    let query : Query := { pattern := ⟨[]⟩, limits }
    l.NeverFails ∧ l.NeverSkips ∧ v.DistinctNames ∧
      (StreamWalk.walk { limits } l 0 v.tokens).result.map (fun _ => ()) = .error (.tooDeep 2) ∧
      (TreeWalk.walk { maxDepth := 2 } l.logged (0, []) v).state.2.map Call.report =
        [.entered .array [], .entered .array [.index 0], .entered .null [.index 0, .index 0],
          .left .null [.index 0, .index 0] none (some 0), .left .array [.index 0] none (some 0),
          .entered .object [.index 1], .entered .member [.index 1, .member "k"]] ∧
      query.find v (some 2) .everySecond 0 = (.error (.tooDeep 2), 2) := by
  intro v l limits query
  have hfails : l.NeverFails := ⟨fun _ _ => rfl, fun _ _ => rfl⟩
  have hskips : l.NeverSkips := ⟨fun _ _ => rfl⟩
  have hv : v.DistinctNames := ⟨⟨trivial, trivial⟩, ⟨by decide, ⟨⟨trivial, trivial⟩, trivial⟩⟩,
    ⟨trivial, trivial⟩, trivial⟩
  obtain ⟨-, hstream, hcalls, -, asked, hfirst, hpaths, hfind⟩ :=
    depth_limits_agree hfails hskips hv limits {} ⟨[]⟩ .everySecond 0 0
  have hasked : asked = [⟨[.index 0, .index 0], .null⟩, ⟨[.index 0], .array [.null]⟩] := by
    have hlength : asked.length = 2 := by
      have h := congrArg List.length hpaths
      rw [List.length_map] at h
      exact h
    rw [List.prefix_iff_eq_take.1 hfirst, hlength]
    rfl
  subst hasked
  obtain ⟨hreports, hbefore, -⟩ := hcalls 4 (by decide)
  have hcut : (TreeWalk.walk { maxDepth := 2 } l.logged (0, []) v).state.2.map Call.report =
      (v.trace [] .root).takeWhile (!·.isTooDeep 2) := by
    rw [hbefore, ← hreports, List.takeWhile_map]
    rfl
  have hroom : ∀ n, some 2 = some n → 1 < n := by
    rintro n ⟨⟩
    decide
  obtain ⟨hquery, -⟩ := hfind (some 2) hroom
  exact ⟨hfails, hskips, hv, hstream, hcut, hquery⟩
end
end JsonWalk
