import JsonWalk.Proofs.Covering

/-!
# Runs of wildcards

What a run of wildcards covers depends on the number of its single stars and on whether there is a
double star in it, but not on their order. The walk is more particular: a double star that meets its
terminal takes the element behind it for the literal, so it may be followed by nothing else.
-/

namespace JsonWalk.Pattern

/-- The run with its single stars in front and one double star for all that it has. -/
def starsFirst (run : List Atom) : List Atom :=
  List.replicate (run.count .star) .star ++ [.doubleStar]

def Atom.before (c : Segment) : Atom → Element
  | .literal s => .literal s
  | .star => .anyOne (some c)
  | .doubleStar => .anyDepth (some c)

/-! ### The elements of a run -/

section

variable {front run rest : List Atom} {c : Segment}

theorem isWildcard_of_mem_starsFirst {a : Atom} (h : a ∈ starsFirst run) : a.isWildcard := by
  rw [starsFirst, List.mem_append, List.mem_singleton] at h
  obtain h | rfl := h
  · rw [List.eq_of_mem_replicate h]
    rfl
  · rfl

theorem bind_wildcards (hrun : ∀ a ∈ run, a.isWildcard) : bind run = [] := by
  induction run with
  | nil => rfl
  | cons a run ih =>
    rw [List.forall_mem_cons] at hrun
    cases a with
    | literal s => cases hrun.1
    | star | doubleStar => rw [bind, ih hrun.2]

theorem bind_append_wildcards (front : List Atom) (hrun : ∀ a ∈ run, a.isWildcard) :
    bind (front ++ run) = bind front := by
  induction front with
  | nil => exact bind_wildcards hrun
  | cons a front ih => cases a <;> simp only [List.cons_append, bind, ih]

theorem bind_cons_wildcard {a : Atom} {e : Element} {es : List Element} (ha : a.isWildcard)
    (hrest : bind rest = e :: es) (he : e.target = some c) :
    bind (a :: rest) = a.before c :: e :: es := by
  cases a with
  | literal s => cases ha
  | star | doubleStar => rw [bind, hrest, Atom.before, ← he]

theorem bind_run (hrun : ∀ a ∈ run, a.isWildcard) :
    bind (run ++ .literal c :: rest) = run.map (Atom.before c) ++ .literal c :: bind rest := by
  induction run with
  | nil => rfl
  | cons a run ih =>
    rw [List.forall_mem_cons] at hrun
    rw [List.map_cons, List.cons_append, List.cons_append]
    cases run with
    | nil => exact bind_cons_wildcard hrun.1 rfl rfl
    | cons b run =>
      refine bind_cons_wildcard hrun.1 (ih hrun.2) ?_
      cases b with
      | literal s => cases hrun.2 _ List.mem_cons_self
      | star | doubleStar => rfl

theorem bind_append_literal_ne_nil (front : List Atom) : bind (front ++ [.literal c]) ≠ [] := by
  induction front with
  | nil => exact List.cons_ne_nil _ _
  | cons a front ih =>
    obtain ⟨e, es, hes⟩ := List.exists_cons_of_ne_nil ih
    cases a <;> simp [bind, hes]

theorem bind_append_literal (front : List Atom) :
    bind (front ++ .literal c :: rest) = bind (front ++ [.literal c]) ++ bind rest := by
  induction front with
  | nil => rfl
  | cons a front ih =>
    cases a with
    | literal s => exact congrArg (Element.literal s :: ·) ih
    | star | doubleStar =>
      obtain ⟨e, es, hes⟩ := List.exists_cons_of_ne_nil (bind_append_literal_ne_nil (c := c) front)
      rw [List.cons_append, List.cons_append, bind, bind, ih, hes]
      rfl

theorem bind_front (hfront : ∀ a ∈ front.getLast?, ¬ a.isWildcard) :
    bind (front ++ rest) = bind front ++ bind rest := by
  induction front using List.reverseRecOn with
  | nil => rfl
  | append_singleton front a =>
    cases a with
    | literal c => rw [List.append_assoc, List.singleton_append, bind_append_literal]
    | star | doubleStar => exact absurd rfl (hfront _ List.getLast?_concat)

end

/-! ### What a run covers -/

/-- A run can cover this number of segments. -/
def Spans (run : List Atom) (n : Nat) : Prop :=
  run.count .star ≤ n ∧ (.doubleStar ∉ run → n ≤ run.count .star)

section

variable {run : List Atom} {es es' front : List Element} {c : Segment} {path : Path} {n : Nat}

theorem spans_starsFirst (h : .doubleStar ∈ run) : Spans (starsFirst run) n ↔ Spans run n := by
  have hcount : (starsFirst run).count .star = run.count .star := by
    simp [starsFirst, List.count_append, List.count_replicate_self]
  have hmem : .doubleStar ∈ starsFirst run := by simp [starsFirst]
  simp [Spans, hcount, h, hmem]

theorem covers_run_iff (hrun : ∀ a ∈ run, a.isWildcard) :
    Covers (run.map (Atom.before c) ++ es) path ↔
      ∃ block rest, path = block ++ rest ∧ Spans run block.length ∧ Covers es rest := by
  induction run generalizing path with
  | nil =>
    constructor
    · exact fun h => ⟨[], path, rfl, ⟨Nat.le_refl 0, fun _ => Nat.le_refl 0⟩, h⟩
    · rintro ⟨block, rest, rfl, hspans, h⟩
      rw [List.eq_nil_of_length_eq_zero (Nat.le_zero.1 (hspans.2 List.not_mem_nil))]
      exact h
  | cons a run ih =>
    rw [List.forall_mem_cons] at hrun
    cases a with
    | literal s => cases hrun.1
    | star =>
      have hspans (n : Nat) : Spans (.star :: run) (n + 1) ↔ Spans run n := by simp [Spans]
      constructor
      · rintro (_ | _ | ⟨_, s, h⟩ | _)
        obtain ⟨block, rest, rfl, hblock, h⟩ := (ih hrun.2).1 h
        exact ⟨s :: block, rest, rfl, (hspans _).2 hblock, h⟩
      · rintro ⟨block, rest, rfl, hblock, h⟩
        cases block with
        | nil => simp [Spans] at hblock
        | cons s block =>
          exact .anyOne _ s ((ih hrun.2).2 ⟨block, rest, rfl, (hspans _).1 hblock, h⟩)
    | doubleStar =>
      have hspans (n : Nat) : Spans (.doubleStar :: run) n ↔ run.count .star ≤ n := by simp [Spans]
      constructor
      · rintro (_ | _ | _ | ⟨_, taken, h⟩)
        obtain ⟨block, rest, rfl, hblock, h⟩ := (ih hrun.2).1 h
        refine ⟨taken ++ block, rest, (List.append_assoc ..).symm, (hspans _).2 ?_, h⟩
        rw [List.length_append]
        exact Nat.le_add_left_of_le hblock.1
      · rintro ⟨block, rest, rfl, hblock, h⟩
        -- the double star takes what the rest of the run can do without
        have hle := (hspans _).1 hblock
        rw [← List.take_append_drop (block.length - run.count .star) block, List.append_assoc]
        refine .anyDepth _ _ ((ih hrun.2).2 ⟨_, rest, rfl, ?_, h⟩)
        rw [Spans, List.length_drop]
        omega

theorem Covers.append_left (h : ∀ path, Covers es path → Covers es' path)
    (hc : Covers (front ++ es) path) : Covers (front ++ es') path := by
  induction front generalizing path with
  | nil => exact h path hc
  | cons e front ih =>
    cases hc with
    | literal s hc => exact .literal s (ih hc)
    | anyOne t s hc => exact .anyOne t s (ih hc)
    | anyDepth t block hc => exact .anyDepth t block (ih hc)

theorem covers_starsFirst_iff (hrun : ∀ a ∈ run, a.isWildcard) (hdouble : .doubleStar ∈ run) :
    Covers (front ++ (run.map (Atom.before c) ++ es)) path ↔
      Covers (front ++ ((starsFirst run).map (Atom.before c) ++ es)) path := by
  have hsame (path : Path) : Covers (run.map (Atom.before c) ++ es) path ↔
      Covers ((starsFirst run).map (Atom.before c) ++ es) path := by
    rw [covers_run_iff hrun, covers_run_iff fun _ => isWildcard_of_mem_starsFirst]
    simp only [spans_starsFirst hdouble]
  exact ⟨.append_left fun path => (hsame path).1, .append_left fun path => (hsame path).2⟩

end

/-! ### The shortest way -/

/-- How many segments it takes at least to satisfy all elements. A double star that is done has the
element behind it done, too. -/
def fewest : List Element → Nat
  | [] => 0
  | .anyDepth _ :: _ :: es => fewest es + 1
  | _ :: es => fewest es + 1

section

variable {es : List Element} {c x : Segment} {path : Path}

theorem pass_literal : pass (.literal c :: es) c = some es := by
  simp only [pass, Element.step, if_true, List.drop_succ_cons, List.drop_zero]

theorem pass_anyDepth {e : Element} : pass (.anyDepth (some c) :: e :: es) c = some es := by
  simp only [pass, Element.step, if_true, List.drop_succ_cons, List.drop_zero]

theorem fewest_le_of_pass {left : List Element} {s : Segment} (h : pass es s = some left) :
    fewest es ≤ fewest left + 1 := by
  cases es with
  | nil => exact Nat.zero_le _
  | cons e es =>
    cases e with
    | literal t =>
      by_cases hs : s = t
      · subst hs
        cases pass_literal.symm.trans h
        exact Nat.le_refl _
      · simp only [pass, Element.step, if_neg hs] at h
        cases h
    | anyOne t =>
      cases h
      exact Nat.le_refl _
    | anyDepth t =>
      by_cases hs : t = some s
      · subst hs
        cases es with
        | nil => exact Nat.le_add_left 1 _
        | cons e es =>
          cases pass_anyDepth.symm.trans h
          exact Nat.le_refl _
      · simp only [pass, Element.step, if_neg hs] at h
        cases h
        exact Nat.le_succ _

theorem fewest_le (h : path.foldlM pass es = some []) : fewest es ≤ path.length := by
  induction path generalizing es with
  | nil =>
    cases h
    exact Nat.le_refl 0
  | cons s rest ih =>
    rw [List.foldlM_cons] at h
    obtain ⟨left, hleft, h⟩ := Option.bind_eq_some_iff.1 h
    exact (fewest_le_of_pass hleft).trans (Nat.succ_le_succ (ih h))

theorem fewest_append_literal : ∀ front : List Element,
    fewest es < fewest (front ++ .literal c :: es)
  | [] | [.anyDepth _] => Nat.lt_succ_self _
  | .anyDepth _ :: _ :: front => Nat.lt_succ_of_lt (fewest_append_literal front)
  | .literal _ :: front | .anyOne _ :: front => Nat.lt_succ_of_lt (fewest_append_literal front)

theorem Bound.exists_target (h : Bound es) : ∀ e ∈ es.head?, ∃ c, e.target = some c := by
  induction h with
  | nil => exact nofun
  | literal s =>
    rintro _ ⟨⟩
    exact ⟨s, rfl⟩
  | @anyOne e _ _ ih | @anyDepth e _ _ ih =>
    rintro _ ⟨⟩
    exact ih e rfl

/-- There is a way that takes no more segments than it must, whatever comes behind. -/
theorem exists_shortest : ∀ {es : List Element}, Bound es → ∃ path : Path,
    path.length = fewest es ∧
      ∀ (later : Path) (rest : List Element),
        (path ++ later).foldlM pass (es ++ rest) = later.foldlM pass rest
  | [], _ => ⟨[], rfl, fun _ _ => rfl⟩
  | .literal s :: es, hb => by
    obtain ⟨path, hlength, hpath⟩ := exists_shortest hb.tail
    refine ⟨s :: path, congrArg Nat.succ hlength, fun later rest => ?_⟩
    rw [List.cons_append, List.cons_append, List.foldlM_cons, pass_literal]
    exact hpath later rest
  | .anyOne t :: es, hb => by
    obtain ⟨path, hlength, hpath⟩ := exists_shortest hb.tail
    exact ⟨.index 0 :: path, congrArg Nat.succ hlength, hpath⟩
  | [.anyDepth t], hb => by cases hb
  | .anyDepth t :: e :: es, hb => by
    obtain ⟨path, hlength, hpath⟩ := exists_shortest hb.tail.tail
    obtain ⟨c, hc⟩ := hb.exists_target _ rfl
    obtain rfl : t = some c := hc
    refine ⟨c :: path, congrArg Nat.succ hlength, fun later rest => ?_⟩
    rw [List.cons_append, List.cons_append, List.cons_append, List.foldlM_cons, pass_anyDepth]
    exact hpath later rest

/-! ### Where the walk goes -/

theorem foldlM_pass_stars (n : Nat) (x : Segment) :
    (List.replicate n x ++ path).foldlM pass (List.replicate n (.anyOne (some c)) ++ es) =
      path.foldlM pass es := by
  induction n with
  | zero => rfl
  | succ n ih => exact ih

theorem foldlM_pass_waits (hx : x ≠ c) (n : Nat) :
    (List.replicate n x ++ path).foldlM pass (.anyDepth (some c) :: es) =
      path.foldlM pass (.anyDepth (some c) :: es) := by
  have hpass : pass (.anyDepth (some c) :: es) x = some (.anyDepth (some c) :: es) := by
    simp only [pass, Element.step, Option.some.injEq, if_neg hx.symm]
  induction n with
  | zero => rfl
  | succ n ih =>
    rw [List.replicate_succ, List.cons_append, List.foldlM_cons, hpass]
    exact ih

theorem exists_of_doubleStar {run : List Atom} (hrun : ∀ a ∈ run, a.isWildcard)
    (h : .doubleStar ∈ run) :
    ∃ n later, run = List.replicate n .star ++ .doubleStar :: later := by
  induction run with
  | nil => cases h
  | cons a run ih =>
    rw [List.forall_mem_cons] at hrun
    cases a with
    | literal s => cases hrun.1
    | doubleStar => exact ⟨0, run, rfl⟩
    | star =>
      obtain ⟨n, later, rfl⟩ := ih hrun.2 (by simpa using h)
      exact ⟨n + 1, later, rfl⟩

/-- Behind single stars and one double star the walk is behind the literal when it first meets it
after as many segments as there are single stars. -/
theorem foldlM_pass_starsFirst (run : List Atom) (x : Segment) :
    (List.replicate (run.count .star) x ++ c :: path).foldlM pass
      ((starsFirst run).map (Atom.before c) ++ .literal c :: es) = path.foldlM pass es := by
  rw [starsFirst, List.map_append, List.map_replicate, List.append_assoc]
  refine (foldlM_pass_stars _ x).trans ?_
  rw [List.foldlM_cons, List.map_singleton, Atom.before, List.singleton_append, pass_anyDepth]
  rfl

/-- In any other run something stands behind the first double star. The walk takes that for the
literal, and has the literal still in front of it. -/
theorem exists_front_of_ne_starsFirst {run : List Atom} (hrun : ∀ a ∈ run, a.isWildcard)
    (hdouble : .doubleStar ∈ run) (hne : run ≠ starsFirst run) (hx : x ≠ c) :
    ∃ front, (List.replicate (run.count .star) x ++ c :: path).foldlM pass
      (run.map (Atom.before c) ++ .literal c :: es) =
        path.foldlM pass (front ++ .literal c :: es) := by
  obtain ⟨n, later, rfl⟩ := exists_of_doubleStar hrun hdouble
  cases later with
  | nil => exact absurd (by simp [starsFirst, List.count_append, List.count_replicate_self]) hne
  | cons a later =>
    have hcount : (List.replicate n Atom.star ++ .doubleStar :: a :: later).count .star =
        n + (a :: later).count .star := by
      rw [List.count_append, List.count_replicate_self, List.count_cons_of_ne (by decide)]
    refine ⟨later.map (Atom.before c), ?_⟩
    have hlater : (Atom.doubleStar :: a :: later).map (Atom.before c) ++ .literal c :: es =
        .anyDepth (some c) :: a.before c :: (later.map (Atom.before c) ++ .literal c :: es) := rfl
    rw [hcount, List.replicate_add, List.append_assoc, List.map_append, List.map_replicate,
      List.append_assoc, hlater]
    refine (foldlM_pass_stars n x).trans ((foldlM_pass_waits hx _).trans ?_)
    rw [List.foldlM_cons, pass_anyDepth]
    rfl

/-- The shortest way that the pattern with the single stars first accepts is too short for any other
order, in which the literal is missed once. -/
theorem exists_accepted_of_ne_starsFirst {front : List Element} {run : List Atom}
    (hfront : Bound front) (hb : Bound es) (hrun : ∀ a ∈ run, a.isWildcard)
    (hdouble : .doubleStar ∈ run) (hne : run ≠ starsFirst run) (c : Segment) :
    ∃ path : Path,
      path.foldlM pass (front ++ ((starsFirst run).map (Atom.before c) ++ .literal c :: es)) =
        some [] ∧
      path.foldlM pass (front ++ (run.map (Atom.before c) ++ .literal c :: es)) ≠ some [] := by
  have hother : ∃ x, x ≠ c := by
    cases c with
    | member name => exact ⟨.index 0, nofun⟩
    | index i => exact ⟨.member "", nofun⟩
  obtain ⟨x, hx⟩ := hother
  obtain ⟨before, -, hbefore⟩ := exists_shortest hfront
  obtain ⟨behind, hlength, hbehind⟩ := exists_shortest hb
  have hend : behind.foldlM pass es = some [] := by
    have hall := hbehind [] []
    rwa [List.append_nil, List.append_nil] at hall
  refine ⟨before ++ (List.replicate (run.count .star) x ++ c :: behind), ?_, ?_⟩
  · rw [hbefore, foldlM_pass_starsFirst, hend]
  · obtain ⟨missed, hmissed⟩ := exists_front_of_ne_starsFirst hrun hdouble hne hx
    rw [hbefore, hmissed]
    intro haccepted
    have hshort := fewest_le haccepted
    exact absurd (fewest_append_literal missed) (Nat.not_lt.2 (hlength ▸ hshort))

end

/-- The order of wildcards in a run between two literals does not matter to what a pattern covers,
but to what it accepts: putting the single stars first and one double star behind them leaves the
accepted paths as they are just if the run is like that already, or if nothing comes behind it. -/
theorem accepts_starsFirst_iff {text text' : String} {front run back : List Atom}
    (hrun : ∀ a ∈ run, a.isWildcard) (hdouble : .doubleStar ∈ run)
    (hfront : ∀ a ∈ front.getLast?, ¬ a.isWildcard) (hback : ∀ a ∈ back.head?, ¬ a.isWildcard)
    (htext : PatternText text.toList (front ++ run ++ back))
    (htext' : PatternText text'.toList (front ++ starsFirst run ++ back)) :
    ∃ p p', compile text = .ok p ∧ compile text' = .ok p' ∧
      (∀ path, Covers p.elements path ↔ Covers p'.elements path) ∧
      ((∀ path, p.accepts path ↔ p'.accepts path) ↔ back = [] ∨ run = starsFirst run) := by
  refine ⟨_, _, compile_eq_ok_iff.2 ⟨_, htext, rfl⟩, compile_eq_ok_iff.2 ⟨_, htext', rfl⟩, ?_⟩
  have hstars : ∀ a ∈ starsFirst run, a.isWildcard := fun _ => isWildcard_of_mem_starsFirst
  cases back with
  | nil =>
    simp only [List.append_nil, bind_append_wildcards front hrun,
      bind_append_wildcards front hstars]
    simp
  | cons a rest =>
    cases a with
    | star | doubleStar => exact absurd rfl (hback _ rfl)
    | literal c =>
      simp only [List.append_assoc, bind_front hfront, bind_run hrun, bind_run hstars]
      refine ⟨fun path => covers_starsFirst_iff hrun hdouble, ?_, ?_⟩
      · intro hsame
        by_contra hne
        obtain ⟨-, hne⟩ := not_or.1 hne
        obtain ⟨path, hstars, hrun⟩ := exists_accepted_of_ne_starsFirst (bound_bind front)
          (bound_bind rest) hrun hdouble hne c
        exact hrun (accepts_iff.1 ((hsame path).2 (accepts_iff.2 hstars)))
      · rintro (hnil | heq) path
        · cases hnil
        · rw [← heq]

/-- Between two names the order matters. -/
theorem accepts_starsFirst_iff_between_names :
    let front : List Atom := [.literal (.member "a")]
    let run : List Atom := [.doubleStar, .star]
    let back : List Atom := [.literal (.member "b")]
    PatternText "a.**.*.b".toList (front ++ run ++ back) ∧
      PatternText "a.*.**.b".toList (front ++ starsFirst run ++ back) ∧
      ∃ p p', compile "a.**.*.b" = .ok p ∧ compile "a.*.**.b" = .ok p' ∧
        (∀ path, Covers p.elements path ↔ Covers p'.elements path) ∧
        ¬ ∀ path, p.accepts path ↔ p'.accepts path := by
  intro front run back
  have hread : (scanFrom 0 "a.**.*.b".toList >>= atoms 8) = .ok (front ++ run ++ back) := by
    decide +kernel
  have hread' : (scanFrom 0 "a.*.**.b".toList >>= atoms 8) =
      .ok (front ++ starsFirst run ++ back) := by decide +kernel
  have htext := atoms_eq_ok_iff.1 hread
  have htext' := atoms_eq_ok_iff.1 hread'
  obtain ⟨p, p', hp, hp', hcovers, haccepts⟩ := accepts_starsFirst_iff (by decide) (by decide)
    (by decide) (by decide) htext htext'
  exact ⟨htext, htext', p, p', hp, hp', hcovers, fun hsame => absurd (haccepts.1 hsame) (by decide)⟩

/-- A double star in front of a single star takes the terminal for the single star's segment. -/
theorem accepts_depends_on_order :
    let path : Path := [.member "a", .member "b"]
    ∃ p p', compile "**.*.b" = .ok p ∧ compile "*.**.b" = .ok p' ∧
      p.accepts path = false ∧ p'.accepts path = true := by
  intro path
  let b : Segment := .member "b"
  refine ⟨⟨[.anyDepth (some b), .anyOne (some b), .literal b]⟩,
    ⟨[.anyOne (some b), .anyDepth (some b), .literal b]⟩, ?_⟩
  decide +kernel

end JsonWalk.Pattern
