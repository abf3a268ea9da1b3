import JsonWalk.Proofs.Tracing

/-!
# Walks that a limit of the depth ends

A limit of the depth cuts a walk off before the first array or object that lies too deep. All calls
before that are the ones of a walk that nothing limits, and the one about the array or object itself
is missing.
-/

namespace JsonWalk

variable {σ : Type}

/-- The report is of entering an array or object with at least `limit` others around it. Every step
of a path leads into one of those. -/
def Report.isTooDeep (limit : Nat) : Report → Bool
  | .entered kind path => kind.isContainer && decide (limit ≤ path.length)
  | .left _ _ _ _ => false

theorem takeWhile_append_of_any {α : Type} {p : α → Bool} {xs : List α} (h : xs.any p)
    (ys : List α) : (xs ++ ys).takeWhile (!p ·) = xs.takeWhile (!p ·) := by
  induction xs with
  | nil => cases h
  | cons x xs ih =>
    rw [List.cons_append, List.takeWhile_cons, List.takeWhile_cons]
    cases hx : p x with
    | true => rfl
    | false =>
      rw [List.any_cons, hx, Bool.false_or] at h
      simp only [Bool.not_false, if_true, ih h]

theorem takeWhile_append_of_not_any {α : Type} {p : α → Bool} {xs : List α}
    (h : xs.any p = false) (ys : List α) :
    (xs ++ ys).takeWhile (!p ·) = xs ++ ys.takeWhile (!p ·) := by
  apply List.takeWhile_append_of_pos
  intro x hx
  rw [Bool.eq_false_iff.2 (List.any_eq_false.1 h x hx)]
  rfl

theorem takeWhile_of_not_any {α : Type} {p : α → Bool} {xs : List α} (h : xs.any p = false) :
    xs.takeWhile (!p ·) = xs := by
  have happend := takeWhile_append_of_not_any h []
  rwa [List.takeWhile_nil, List.append_nil] at happend

/-! ### Listeners with a log -/

section

variable {l : Listener σ}

theorem Listener.NeverFails.logged (hl : l.NeverFails) : l.logged.NeverFails where
  onEnter e s := hl.onEnter e s.1
  onExit e s := hl.onExit e s.1

theorem Listener.NeverSkips.logged (hl : l.NeverSkips) : l.logged.NeverSkips where
  onEnter e s := hl.onEnter e s.1

theorem Listener.logged_enter (hfails : l.NeverFails) (hskips : l.NeverSkips) (kind : NodeKind)
    (path : Path) (s : σ) (log : List Call) :
    l.logged.enter kind path (s, log) =
      .ok false ((l.onEnter { kind, path } s).state,
        log ++ [⟨.entered kind path, false, none⟩]) := by
  simp only [enter, logged, hfails.onEnter, hskips.onEnter]

end

/-! ### Actions that are cut off -/

/-- All calls of `whole` together report the trace. The calls of `cut` are the same, up to the first
one whose report is deep: instead of that one comes the error `e`. -/
def Cuts {α : Type} (deep : Report → Bool) (e : WalkError) (t : List Report)
    (cut whole : EStateM WalkError (σ × List Call) α) : Prop :=
  ∀ s log, ∃ calls a s', whole (s, log) = .ok a (s', log ++ calls) ∧ calls.map Call.report = t ∧
    if calls.any (deep ·.report) then
      ∃ u, cut (s, log) = .error e (u, log ++ calls.takeWhile (!deep ·.report))
    else cut (s, log) = .ok a (s', log ++ calls)

namespace Cuts

variable {l : Listener σ} {α β : Type} {deep deep' : Report → Bool} {e e' : WalkError}
  {t t' : List Report} {m whole : EStateM WalkError (σ × List Call) α}
  {f g : α → EStateM WalkError (σ × List Call) β}

theorem pure (a : α) : Cuts deep e [] (pure a : EStateM WalkError (σ × List Call) α) (pure a) :=
  fun s log => ⟨[], a, s, by rw [List.append_nil]; rfl, rfl, by rw [List.append_nil]; rfl⟩

theorem bind (h : Cuts deep e t m whole) (hf : ∀ a, Cuts deep e t' (f a) (g a)) :
    Cuts deep e (t ++ t') (m >>= f) (whole >>= g) := by
  intro s log
  obtain ⟨calls, a, s₁, hwhole, rfl, hm⟩ := h s log
  obtain ⟨calls', b, s₂, hg, rfl, hcut⟩ := hf a s₁ (log ++ calls)
  refine ⟨calls ++ calls', b, s₂, ?_, List.map_append, ?_⟩
  · rw [bind_of_ok hwhole, hg, List.append_assoc]
  · rw [List.any_append]
    cases hdeep : calls.any (deep ·.report) with
    | true =>
      rw [if_pos hdeep] at hm
      obtain ⟨u, hu⟩ := hm
      exact ⟨u, by rw [bind_of_error hu, takeWhile_append_of_any hdeep]⟩
    | false =>
      rw [hdeep, if_neg Bool.false_ne_true] at hm
      simp only [Bool.false_or, bind_of_ok hm, takeWhile_append_of_not_any hdeep,
        ← List.append_assoc]
      exact hcut

theorem bind_pure (h : Cuts deep e t m whole) (f : α → β) :
    Cuts deep e t (m >>= fun a => Pure.pure (f a)) (whole >>= fun a => Pure.pure (f a)) := by
  have hbind := h.bind fun a => Cuts.pure (f a)
  rwa [List.append_nil] at hbind

theorem enter_bind {f g : Bool → EStateM WalkError (σ × List Call) β} (hfails : l.NeverFails)
    (hskips : l.NeverSkips) {kind : NodeKind} {path : Path}
    (hdeep : deep (.entered kind path) = false) (h : Cuts deep e t (f false) (g false)) :
    Cuts deep e (.entered kind path :: t) (l.logged.enter kind path >>= f)
      (l.logged.enter kind path >>= g) := by
  intro s log
  have henter := Listener.logged_enter hfails hskips kind path s log
  obtain ⟨calls, a, s', hg, rfl, hf⟩ :=
    h (l.onEnter { kind, path } s).state (log ++ [⟨.entered kind path, false, none⟩])
  refine ⟨⟨.entered kind path, false, none⟩ :: calls, a, s', ?_, rfl, ?_⟩
  · rw [bind_of_ok henter, hg, ← List.append_cons]
  · have hcall : deep (⟨.entered kind path, false, none⟩ : Call).report = false := hdeep
    simp only [List.append_assoc, List.singleton_append] at hf
    simp only [bind_of_ok henter, List.any_cons, List.takeWhile_cons, hcall, Bool.false_or,
      Bool.not_false, if_true]
    exact hf

theorem leave (hfails : l.NeverFails) {kind : NodeKind} {path : Path} {place : Place} {v : Value}
    (hdeep : deep (.left kind path place.property place.position) = false) :
    Cuts deep e [.left kind path place.property place.position]
      (l.logged.leave kind path place v) (l.logged.leave kind path place v) := by
  intro s log
  simp only [Listener.leave, Listener.logged, hfails.onExit]
  refine ⟨[_], _, _, rfl, rfl, ?_⟩
  rw [List.any_cons, Call.report, Event.report, hdeep]
  rfl

theorem throw {r : Report} (h : Cuts deep' e' (r :: t) whole whole) (hr : deep r = true) :
    Cuts deep e (r :: t) (throw e) whole := by
  intro s log
  obtain ⟨calls, a, s', hwhole, hcalls, -⟩ := h s log
  refine ⟨calls, a, s', hwhole, hcalls, ?_⟩
  obtain ⟨c, rest, rfl, rfl, -⟩ := List.map_eq_cons_iff.1 hcalls
  simp only [List.any_cons, List.takeWhile_cons, hr, Bool.true_or, Bool.not_true, if_true,
    Bool.false_eq_true, if_false, List.append_nil]
  exact ⟨s, rfl⟩

theorem full (h : Cuts deep e t m whole) : Cuts (fun _ => false) e t whole whole := by
  intro s log
  obtain ⟨calls, a, s', hwhole, hcalls, -⟩ := h s log
  refine ⟨calls, a, s', hwhole, hcalls, ?_⟩
  rw [List.any_eq_false.2 fun _ _ => Bool.false_ne_true]
  exact hwhole

theorem around {inside inside' : EStateM WalkError (σ × List Call) α}
    {close : α → EStateM WalkError (σ × List Call) β}
    {aside aside' : EStateM WalkError (σ × List Call) β} (hfails : l.NeverFails)
    (hskips : l.NeverSkips) {kind : NodeKind} {path : Path} {place : Place}
    (hdeep : deep (.entered kind path) = false) (hinside : Cuts deep e t inside inside')
    (hclose : ∀ a, Cuts deep e [.left kind path place.property place.position] (close a)
      (close a)) :
    Cuts deep e (Report.around kind path place t)
      (l.logged.enter kind path >>= fun skipped => if skipped then aside else inside >>= close)
      (l.logged.enter kind path >>= fun skipped => if skipped then aside' else inside' >>= close) :=
  enter_bind hfails hskips hdeep (hinside.bind hclose)

end Cuts

section

variable {l : Listener σ} {limit free : Nat}

theorem cuts_leave (hfails : l.NeverFails) {α : Type} (limit : Nat) (kind : NodeKind) (path : Path)
    (place : Place) (v : Value) (after : Option Value → α) :
    Cuts (Report.isTooDeep limit) (.tooDeep limit)
      [.left kind path place.property place.position]
      (l.logged.leave kind path place v >>= fun left => pure (after left))
      (l.logged.leave kind path place v >>= fun left => pure (after left)) :=
  (Cuts.leave hfails rfl).bind_pure after

theorem cuts_passScalar (hfails : l.NeverFails) (hskips : l.NeverSkips) {path : Path}
    {place : Place} {v : Value} (hv : v.kind.isContainer = false) :
    Cuts (Report.isTooDeep limit) (.tooDeep limit) (Report.around v.kind path place [])
      (passScalar l.logged path place v) (passScalar l.logged path place v) := by
  have hdeep : Report.isTooDeep limit (.entered v.kind path) = false := by
    rw [Report.isTooDeep, hv, Bool.false_and]
  exact Cuts.enter_bind hfails hskips hdeep (cuts_leave hfails _ _ _ _ _ _)

theorem cuts_passContainer (hfails : l.NeverFails) (hskips : l.NeverSkips) {α : Type}
    {kind : NodeKind} {path : Path} {place : Place} {t : List Report} (hkind : kind.isContainer)
    {inside inside' : EStateM WalkError (σ × List Call) α} {make : α → Value}
    {aside aside' : EStateM WalkError (σ × List Call) Value} (hfree : path.length + 1 ≤ free)
    (hinside : Cuts (Report.isTooDeep limit) (.tooDeep limit) t inside inside') :
    Cuts (Report.isTooDeep limit) (.tooDeep limit) (Report.around kind path place t)
      (if limit < path.length + 1 then throw (.tooDeep limit)
      else l.logged.enter kind path >>= fun skipped =>
        if skipped then aside
        else inside >>= fun a => l.logged.leave kind path place (make a) >>= fun left =>
          pure (left.getD .null))
      (if free < path.length + 1 then throw (.tooDeep free)
      else l.logged.enter kind path >>= fun skipped =>
        if skipped then aside'
        else inside' >>= fun a => l.logged.leave kind path place (make a) >>= fun left =>
          pure (left.getD .null)) := by
  have hclose (a : α) := cuts_leave hfails limit kind path place (make a) (·.getD .null)
  rw [if_neg (Nat.not_lt.2 hfree)]
  by_cases hd : limit < path.length + 1
  · rw [if_pos hd]
    have hdeep : Report.isTooDeep limit (.entered kind path) = true := by
      rw [Report.isTooDeep, hkind, Bool.true_and, decide_eq_true (Nat.lt_succ_iff.1 hd)]
    exact (hinside.full.around hfails hskips rfl fun a => (hclose a).full).throw hdeep
  · rw [if_neg hd]
    have hdeep : Report.isTooDeep limit (.entered kind path) = false := by
      rw [Report.isTooDeep, hkind, Bool.true_and, decide_eq_false (by omega)]
    exact hinside.around hfails hskips hdeep hclose

theorem cuts_member (hfails : l.NeverFails) (hskips : l.NeverSkips) {path : Path} {name : String}
    {t : List Report} {inside inside' : EStateM WalkError (σ × List Call) Value}
    {aside aside' : EStateM WalkError (σ × List Call) (Option Value)}
    (h : Cuts (Report.isTooDeep limit) (.tooDeep limit) t inside inside') :
    Cuts (Report.isTooDeep limit) (.tooDeep limit)
      (Report.around .member path (.member name) t)
      (l.logged.enter .member path >>= fun skipped =>
        if skipped then aside else inside >>= fun v => l.logged.leave .member path (.member name) v)
      (l.logged.enter .member path >>= fun skipped =>
        if skipped then aside'
        else inside' >>= fun v => l.logged.leave .member path (.member name) v) :=
  h.around hfails hskips rfl fun _ => .leave hfails rfl

mutual

/-- A walk without skipping is cut off where a walk with room enough comes to what is too deep. -/
theorem cuts_passValue (hfails : l.NeverFails) (hskips : l.NeverSkips) (path : Path)
    (place : Place) {depth : Nat} (hdepth : path.length = depth) :
    ∀ {v : Value}, depth + v.nesting ≤ free →
      Cuts (Report.isTooDeep limit) (.tooDeep limit) (v.trace path place)
        (passValue l.logged limit path place depth v) (passValue l.logged free path place depth v)
  | .null, _ | .bool _, _ | .number _, _ | .string _, _ => cuts_passScalar hfails hskips rfl
  | .array items, h => by
    subst hdepth
    rw [Value.nesting] at h
    have hitems : path.length + 1 + Value.itemsNesting items ≤ free := by omega
    exact cuts_passContainer hfails hskips rfl (by omega)
      (cuts_passItems hfails hskips path 0 rfl hitems)
  | .object members, h => by
    subst hdepth
    rw [Value.nesting] at h
    have hmembers : path.length + 1 + Value.membersNesting members ≤ free := by omega
    exact cuts_passContainer hfails hskips rfl (by omega)
      (cuts_passMembers hfails hskips path rfl hmembers)

theorem cuts_passItems (hfails : l.NeverFails) (hskips : l.NeverSkips) (path : Path)
    (position : Nat) {depth : Nat} (hdepth : path.length + 1 = depth) :
    ∀ {items : List Value}, depth + Value.itemsNesting items ≤ free →
      Cuts (Report.isTooDeep limit) (.tooDeep limit) (Value.itemsTrace path position items)
        (passItems l.logged limit path depth position items)
        (passItems l.logged free path depth position items)
  | [], _ => .pure []
  | v :: rest, h => by
    rw [Value.itemsNesting] at h
    have hnesting : depth + v.nesting ≤ free := by omega
    have hrest : depth + Value.itemsNesting rest ≤ free := by omega
    exact (cuts_passValue hfails hskips _ _ (List.length_append.trans hdepth) hnesting).bind
      fun v => (cuts_passItems hfails hskips path (position + 1) hdepth hrest).bind_pure (v :: ·)

theorem cuts_passMembers (hfails : l.NeverFails) (hskips : l.NeverSkips) (path : Path)
    {depth : Nat} (hdepth : path.length + 1 = depth) :
    ∀ {members : List (String × Value)}, depth + Value.membersNesting members ≤ free →
      Cuts (Report.isTooDeep limit) (.tooDeep limit) (Value.membersTrace path members)
        (passMembers l.logged limit path depth members)
        (passMembers l.logged free path depth members)
  | [], _ => .pure []
  | (name, v) :: rest, h => by
    rw [Value.membersNesting] at h
    have hnesting : depth + v.nesting ≤ free := by omega
    have hrest : depth + Value.membersNesting rest ≤ free := by omega
    have hv := cuts_passValue hfails hskips (path ++ [.member name]) (.memberValue name)
      (List.length_append.trans hdepth) hnesting
    rw [passMembers_cons, passMembers_cons]
    exact (cuts_member hfails hskips hv).bind fun kept =>
      (cuts_passMembers hfails hskips path hdepth hrest).bind_pure
        ((kept.map (name, ·)).toList ++ ·)

end

end

end JsonWalk
