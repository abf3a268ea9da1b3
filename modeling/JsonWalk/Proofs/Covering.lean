import JsonWalk.Proofs.PatternTexts

/-!
# Paths that a pattern covers

Read as a wildcard pattern, a list of elements covers a path that begins with one block of segments
for each of them. The walk along a path never goes back, so it may miss a cover, but it accepts
nothing else. It misses none if no double star has to give back what it has taken.
-/

namespace JsonWalk.Pattern

/-- Some prefix of the path falls into blocks, one for each element in order. -/
inductive Covers : List Element → Path → Prop
  | nil (path : Path) : Covers [] path
  | literal (s : Segment) {es : List Element} {path : Path} : Covers es path →
    Covers (.literal s :: es) (s :: path)
  | anyOne (terminal : Option Segment) (s : Segment) {es : List Element} {path : Path} :
    Covers es path → Covers (.anyOne terminal :: es) (s :: path)
  | anyDepth (terminal : Option Segment) (block : Path) {es : List Element} {path : Path} :
    Covers es path → Covers (.anyDepth terminal :: es) (block ++ path)

/-- Every double star has a literal right behind it, and behind the first double star every literal
has one right in front. -/
structure NeverGoesBack (es : List Element) : Prop where
  followed : ∀ i t, es[i]? = some (.anyDepth t) → ∃ s, es[i + 1]? = some (.literal s)
  preceded : ∀ i j t s, i ≤ j → es[i]? = some (.anyDepth t) → es[j + 1]? = some (.literal s) →
    ∃ t', es[j]? = some (.anyDepth t')

/-! ### The walk, element by element -/

def pass (es : List Element) (segment : Segment) : Option (List Element) :=
  match es with
  | [] => some []
  | e :: rest =>
    match e.step segment with
    | .advance count => some ((e :: rest).drop count)
    | .stay => some (e :: rest)
    | .mismatch => none

section

variable {p : Pattern} {es : List Element} {path : Path} {s : Segment}

theorem map_drop_advance (p : Pattern) (cursor : Nat) (s : Segment) :
    (p.advance cursor s).map p.elements.drop = pass (p.elements.drop cursor) s := by
  rw [advance]
  cases h : p.elements[cursor]? with
  | none =>
    rw [List.drop_eq_nil_of_le (List.getElem?_eq_none_iff.1 h)]
    exact congrArg some (List.drop_eq_nil_of_le (List.getElem?_eq_none_iff.1 h))
  | some e =>
    obtain ⟨hlt, rfl⟩ := List.getElem?_eq_some_iff.1 h
    have hdrop := List.drop_eq_getElem_cons hlt
    rw [hdrop, pass]
    dsimp only
    cases p.elements[cursor].step s with
    | advance count => simp only [Option.map_some, ← hdrop, List.drop_drop]
    | stay => exact congrArg some hdrop
    | mismatch => rfl

theorem map_drop_walk (p : Pattern) (cursor : Nat) (path : Path) :
    (p.walk cursor path).map p.elements.drop = path.foldlM pass (p.elements.drop cursor) := by
  induction path generalizing cursor with
  | nil => rfl
  | cons s rest ih =>
    rw [walk, List.foldlM_cons, ← map_drop_advance]
    cases p.advance cursor s with
    | none => rfl
    | some next => exact ih next

theorem accepts_iff : p.accepts path ↔ path.foldlM pass p.elements = some [] := by
  have h := map_drop_walk p 0 path
  rw [List.drop_zero] at h
  rw [← h, accepts]
  cases p.walk 0 path <;> simp

end

/-! ### Wildcards and what follows them -/

/-- Behind every wildcard there is an element, and the wildcard is bound to the literal that this
one asks for. -/
inductive Bound : List Element → Prop
  | nil : Bound []
  | literal (s : Segment) {es : List Element} : Bound es → Bound (.literal s :: es)
  | anyOne {e : Element} {es : List Element} : Bound (e :: es) →
    Bound (.anyOne e.target :: e :: es)
  | anyDepth {e : Element} {es : List Element} : Bound (e :: es) →
    Bound (.anyDepth e.target :: e :: es)

/-- What is left of a pattern if every literal has a double star right in front. -/
inductive Loose : List Element → Prop
  | nil : Loose []
  | anyOne (terminal : Option Segment) {es : List Element} : Loose es →
    Loose (.anyOne terminal :: es)
  | anyDepth (terminal : Option Segment) (s : Segment) {es : List Element} : Loose es →
    Loose (.anyDepth terminal :: .literal s :: es)

section

variable {es : List Element} {path : Path} {s : Segment}

theorem bound_bind (as : List Atom) : Bound (bind as) := by
  induction as with
  | nil => exact .nil
  | cons a as ih =>
    cases a with
    | literal s => exact .literal s ih
    | star =>
      rw [bind]
      cases h : bind as with
      | nil => exact .nil
      | cons e es => exact .anyOne (h ▸ ih)
    | doubleStar =>
      rw [bind]
      cases h : bind as with
      | nil => exact .nil
      | cons e es => exact .anyDepth (h ▸ ih)

theorem bound_of_compile {text : String} {p : Pattern} (h : compile text = .ok p) :
    Bound p.elements := by
  obtain ⟨as, -, rfl⟩ := compile_eq_ok_iff.1 h
  exact bound_bind as

theorem Bound.tail {e : Element} (h : Bound (e :: es)) : Bound es := by
  cases h with
  | literal _ h => exact h
  | anyOne h => exact h
  | anyDepth h => exact h

theorem Covers.of_target {e : Element} (h : Covers es path) (he : e.target = some s) :
    Covers (e :: es) (s :: path) := by
  cases e with
  | literal t =>
    cases he
    exact .literal s h
  | anyOne t => exact .anyOne t s h
  | anyDepth t => exact .anyDepth t [s] h

theorem Covers.cons_anyDepth {t : Option Segment} (h : Covers (.anyDepth t :: es) path)
    (s : Segment) : Covers (.anyDepth t :: es) (s :: path) := by
  cases h with
  | anyDepth _ block h => exact .anyDepth t (s :: block) h

theorem covers_of_foldlM_pass (hb : Bound es) (h : path.foldlM pass es = some []) :
    Covers es path := by
  induction path generalizing es with
  | nil =>
    cases h
    exact .nil []
  | cons s rest ih =>
    rw [List.foldlM_cons] at h
    obtain ⟨left, hleft, h⟩ := Option.bind_eq_some_iff.1 h
    cases hb with
    | nil => exact .nil _
    | literal t hb =>
      by_cases hs : s = t
      · subst hs
        simp only [pass, Element.step, if_true] at hleft
        cases hleft
        exact .literal s (ih hb h)
      · simp only [pass, Element.step, if_neg hs] at hleft
        cases hleft
    | anyOne hb =>
      cases hleft
      exact .anyOne _ s (ih hb h)
    | @anyDepth e es hb =>
      by_cases hs : e.target = some s
      · simp only [pass, Element.step, if_pos hs] at hleft
        cases hleft
        exact .anyDepth _ [] ((ih hb.tail h).of_target hs)
      · simp only [pass, Element.step, if_neg hs] at hleft
        cases hleft
        exact (ih (.anyDepth hb) h).cons_anyDepth s

theorem Loose.covers_cons (hl : Loose es) (h : Covers es path) (s : Segment) :
    Covers es (s :: path) := by
  induction hl generalizing path s with
  | nil => exact .nil _
  | anyOne t _ ih =>
    cases h with
    | anyOne _ next h => exact .anyOne t s (ih h next)
  | anyDepth => exact h.cons_anyDepth s

theorem Loose.covers_append (hl : Loose es) (h : Covers es path) (front : Path) :
    Covers es (front ++ path) := by
  induction front with
  | nil => exact h
  | cons s front ih => exact hl.covers_cons ih s

/-- A double star takes what stands in front of the literal behind it. -/
theorem exists_of_covers_anyDepth {t : Option Segment} {c : Segment}
    (h : Covers (.anyDepth t :: .literal c :: es) path) :
    ∃ block rest, path = block ++ c :: rest ∧ Covers es rest := by
  cases h with
  | anyDepth _ block h =>
    cases h with
    | literal _ h => exact ⟨block, _, rfl, h⟩

theorem foldlM_pass_nil (path : Path) : path.foldlM pass [] = some [] := by
  induction path with
  | nil => rfl
  | cons s rest ih =>
    rw [List.foldlM_cons]
    exact ih

/-- The first place for the literal behind a double star is as good as any other, so the walk misses
no cover of what is loose. -/
theorem Loose.foldlM_pass (hl : Loose es) (hb : Bound es) (h : Covers es path) :
    path.foldlM pass es = some [] := by
  induction path generalizing es with
  | nil =>
    cases hl with
    | nil => rfl
    | anyOne => cases h
    | anyDepth =>
      obtain ⟨block, rest, hpath, -⟩ := exists_of_covers_anyDepth h
      exact absurd hpath.symm (List.append_ne_nil_of_right_ne_nil _ (List.cons_ne_nil _ _))
  | cons s rest ih =>
    rw [List.foldlM_cons]
    cases hl with
    | nil => exact foldlM_pass_nil rest
    | anyOne t hl =>
      cases h with
      | anyOne _ _ h => exact ih hl hb.tail h
    | @anyDepth t c es hl =>
      obtain ⟨block, behind, hpath, hbehind⟩ := exists_of_covers_anyDepth h
      have ht : t = some c := by
        cases hb
        rfl
      subst ht
      by_cases hs : c = s
      · subst hs
        have hpass : pass (.anyDepth (some c) :: .literal c :: es) c = some es := by
          simp only [pass, Element.step, if_true, List.drop_succ_cons, List.drop_zero]
        rw [hpass]
        apply ih hl hb.tail.tail
        cases block with
        | nil =>
          cases hpath
          exact hbehind
        | cons b block =>
          cases hpath
          exact hl.covers_append (hl.covers_cons hbehind c) block
      · have hpass : pass (.anyDepth (some c) :: .literal c :: es) s =
            some (.anyDepth (some c) :: .literal c :: es) := by
          simp only [pass, Element.step, Option.some.injEq, if_neg hs]
        rw [hpass]
        apply ih (.anyDepth _ c hl) hb
        cases block with
        | nil =>
          cases hpath
          exact absurd rfl hs
        | cons b block =>
          cases hpath
          exact .anyDepth _ block (.literal c hbehind)

/-! ### Patterns that never go back -/

namespace NeverGoesBack

theorem tail {e : Element} (h : NeverGoesBack (e :: es)) : NeverGoesBack es where
  followed i t hi := h.followed (i + 1) t hi
  preceded i j t s hij hi hj := h.preceded (i + 1) (j + 1) t s (Nat.succ_le_succ hij) hi hj

theorem of_no_anyDepth (h : ∀ t, .anyDepth t ∉ es) : NeverGoesBack es where
  followed _ t hi := absurd (List.mem_of_getElem? hi) (h t)
  preceded _ _ t _ _ hi := absurd (List.mem_of_getElem? hi) (h t)

end NeverGoesBack

theorem loose_of_preceded : ∀ {es : List Element},
    (∀ i t, es[i]? = some (.anyDepth t) → ∃ s, es[i + 1]? = some (.literal s)) →
    (∀ j s, es[j + 1]? = some (.literal s) → ∃ t, es[j]? = some (.anyDepth t)) →
    (∀ s, es.head? ≠ some (.literal s)) → Loose es
  | [], _, _, _ => .nil
  | .literal s :: _, _, _, hhead => absurd rfl (hhead s)
  | .anyOne t :: es, hfollowed, hpreceded, _ => by
    refine .anyOne t (loose_of_preceded (fun i => hfollowed (i + 1))
      (fun j => hpreceded (j + 1)) fun s hs => ?_)
    obtain ⟨_, ht⟩ := hpreceded 0 s (by simpa [List.head?_eq_getElem?] using hs)
    cases ht
  | [.anyDepth t], hfollowed, _, _ => by
    obtain ⟨_, hs⟩ := hfollowed 0 t rfl
    cases hs
  | .anyDepth t :: e :: es, hfollowed, hpreceded, _ => by
    obtain ⟨c, hc⟩ := hfollowed 0 t rfl
    obtain rfl : e = .literal c := Option.some.inj hc
    refine .anyDepth t c (loose_of_preceded (fun i => hfollowed (i + 2))
      (fun j => hpreceded (j + 2)) fun s hs => ?_)
    obtain ⟨_, ht⟩ := hpreceded 1 s (by simpa [List.head?_eq_getElem?] using hs)
    cases ht

theorem NeverGoesBack.foldlM_pass (hn : NeverGoesBack es) (hb : Bound es) (h : Covers es path) :
    path.foldlM pass es = some [] := by
  induction h with
  | nil path => exact foldlM_pass_nil path
  | @literal s es path _ ih =>
    have hpass : pass (.literal s :: es) s = some es := by
      simp only [pass, Element.step, if_true, List.drop_succ_cons, List.drop_zero]
    rw [List.foldlM_cons, hpass]
    exact ih hn.tail hb.tail
  | anyOne t s _ ih =>
    rw [List.foldlM_cons]
    exact ih hn.tail hb.tail
  | anyDepth t block h =>
    have hl : Loose (.anyDepth t :: _) := loose_of_preceded hn.followed
      (fun j s hj => hn.preceded 0 j t s (Nat.zero_le j) rfl hj) nofun
    exact hl.foldlM_pass hb (.anyDepth t block h)

end

/-- What a pattern accepts it covers, and it accepts all that it covers if no double star has to
give back a segment, above all if there is no double star. -/
theorem accepts_only_covered {text : String} {p : Pattern} (h : compile text = .ok p)
    (path : Path) :
    (p.accepts path → Covers p.elements path) ∧
      (NeverGoesBack p.elements → (p.accepts path ↔ Covers p.elements path)) ∧
      ((∀ t, .anyDepth t ∉ p.elements) → (p.accepts path ↔ Covers p.elements path)) := by
  have hb := bound_of_compile h
  have hsound : p.accepts path → Covers p.elements path := fun h =>
    covers_of_foldlM_pass hb (accepts_iff.1 h)
  have hexact (hn : NeverGoesBack p.elements) : p.accepts path ↔ Covers p.elements path :=
    ⟨hsound, fun h => accepts_iff.2 (hn.foldlM_pass hb h)⟩
  exact ⟨hsound, hexact, fun hno => hexact (.of_no_anyDepth hno)⟩

/-- A double star, a star, and another double star that has to pass over a first `c`. -/
theorem accepts_only_covered_two_double_stars :
    let p : Pattern := ⟨[.anyDepth (some (.member "a")), .literal (.member "a"),
      .anyOne (some (.member "c")), .anyDepth (some (.member "c")), .literal (.member "c")]⟩
    let path : Path := [.index 0, .member "a", .member "c", .index 1, .member "c", .index 2]
    compile "**.a.*.**.c" = .ok p ∧ NeverGoesBack p.elements ∧ Covers p.elements path ∧
      p.accepts path := by
  intro p path
  have hp : compile "**.a.*.**.c" = .ok p := by decide +kernel
  have hn : NeverGoesBack p.elements :=
    { followed := fun i _ hi => by
        match i with
        | 0 | 3 => exact ⟨_, rfl⟩
        | 1 | 2 | 4 | _ + 5 => cases hi
      preceded := fun _ j _ _ _ _ hj => by
        match j with
        | 0 | 3 => exact ⟨_, rfl⟩
        | 1 | 2 | _ + 4 => cases hj }
  have hc : Covers p.elements path :=
    .anyDepth _ [_] (.literal _ (.anyOne _ _ (.anyDepth _ [_] (.literal _ (.nil _)))))
  obtain ⟨-, hexact, -⟩ := accepts_only_covered hp path
  exact ⟨hp, hn, hc, (hexact hn).2 hc⟩

/-- A literal behind the first one can need what a double star has taken. -/
example : compile "**.a.b" = .ok ⟨[.anyDepth (some (.member "a")), .literal (.member "a"),
      .literal (.member "b")]⟩ ∧
    (⟨[.anyDepth (some (.member "a")), .literal (.member "a"), .literal (.member "b")]⟩ :
      Pattern).accepts [.member "a", .member "a", .member "b"] = false := by
  decide +kernel

end JsonWalk.Pattern
