import JsonWalk.Proofs.WildcardRuns

/-!
# What can still become of a path

A path that is accepted stays accepted however it goes on, and one that has met a mismatch stays
refused. In between nothing is decided: whatever a walk without a mismatch has left can be
satisfied, since every wildcard is bound to a literal behind it.
-/

namespace JsonWalk.Pattern

/-- The walk along the path comes to a literal that is not the segment there. -/
def MeetsMismatch (p : Pattern) (path : Path) : Prop :=
  ∃ front s rest cursor expected, path = front ++ s :: rest ∧ p.walk 0 front = some cursor ∧
    p.elements[cursor]? = some (.literal expected) ∧ s ≠ expected

inductive Prospect where
  | settled
  | lost
  | pending

def Prospect.Holds (p : Pattern) (path : Path) : Prospect → Prop
  | .settled => p.accepts path ∧ ∀ more, p.accepts (path ++ more)
  | .lost => ¬ p.accepts path ∧ ∀ more, ¬ p.accepts (path ++ more)
  | .pending => ¬ p.accepts path ∧ ¬ MeetsMismatch p path ∧ ∃ more, p.accepts (path ++ more)

section

variable {p : Pattern} {es left : List Element} {path : Path} {s : Segment}

/-! ### Mismatches -/

theorem advance_eq_none_iff {cursor : Nat} : p.advance cursor s = none ↔
    ∃ expected, p.elements[cursor]? = some (.literal expected) ∧ s ≠ expected := by
  rw [advance]
  cases p.elements[cursor]? with
  | none => simp
  | some e =>
    cases e with
    | literal expected => by_cases hs : s = expected <;> simp [Element.step, hs]
    | anyOne t => simp [Element.step]
    | anyDepth t => by_cases ht : t = some s <;> simp [Element.step, ht]

theorem walk_eq_none_iff {cursor : Nat} : p.walk cursor path = none ↔
    ∃ front s rest next expected, path = front ++ s :: rest ∧ p.walk cursor front = some next ∧
      p.elements[next]? = some (.literal expected) ∧ s ≠ expected := by
  induction path generalizing cursor with
  | nil => simp [walk]
  | cons s rest ih =>
    cases hnext : p.advance cursor s with
    | none =>
      obtain ⟨expected, hliteral, hs⟩ := advance_eq_none_iff.1 hnext
      rw [walk, hnext]
      exact iff_of_true rfl ⟨[], s, rest, cursor, expected, rfl, rfl, hliteral, hs⟩
    | some next =>
      have hwalk (path : Path) : p.walk cursor (s :: path) = p.walk next path := by
        rw [walk, hnext]
      rw [hwalk, ih]
      constructor
      · rintro ⟨front, t, behind, last, expected, rfl, hfront, h⟩
        exact ⟨s :: front, t, behind, last, expected, rfl, (hwalk front).trans hfront, h⟩
      · rintro ⟨front, t, behind, last, expected, hpath, hfront, hliteral, ht⟩
        cases front with
        | nil =>
          -- the first segment made the walk advance, so it is no mismatch
          cases hpath
          cases hfront
          cases (advance_eq_none_iff.2 ⟨expected, hliteral, ht⟩).symm.trans hnext
        | cons u front =>
          cases hpath
          exact ⟨front, t, behind, last, expected, rfl, (hwalk front).symm.trans hfront, hliteral,
            ht⟩

theorem meetsMismatch_iff : MeetsMismatch p path ↔ path.foldlM pass p.elements = none := by
  have hwalk := map_drop_walk p 0 path
  rw [List.drop_zero] at hwalk
  rw [← hwalk, Option.map_eq_none_iff, walk_eq_none_iff]
  exact Iff.rfl

/-! ### Going on -/

theorem accepts_append (h : p.accepts path) (more : Path) : p.accepts (path ++ more) := by
  rw [accepts_iff] at h ⊢
  rw [List.foldlM_append, h]
  exact foldlM_pass_nil more

theorem MeetsMismatch.not_accepts_append (h : MeetsMismatch p path) (more : Path) :
    ¬ p.accepts (path ++ more) := by
  rw [meetsMismatch_iff] at h
  rw [accepts_iff, List.foldlM_append, h]
  exact nofun

/-- What is left of a bound pattern is bound, also behind a double star and the element that it
takes along. -/
theorem Bound.of_pass (hb : Bound es) (h : pass es s = some left) : Bound left := by
  cases hb with
  | nil =>
    cases h
    exact .nil
  | literal t hb =>
    by_cases hs : s = t
    · subst hs
      cases pass_literal.symm.trans h
      exact hb
    · simp only [pass, Element.step, if_neg hs] at h
      cases h
  | anyOne hb =>
    cases h
    exact hb
  | @anyDepth e es hb =>
    by_cases hs : e.target = some s
    · rw [hs] at h
      cases pass_anyDepth.symm.trans h
      exact hb.tail
    · simp only [pass, Element.step, if_neg hs] at h
      cases h
      exact .anyDepth hb

theorem Bound.of_foldlM_pass (hb : Bound es) (h : path.foldlM pass es = some left) :
    Bound left := by
  induction path generalizing es with
  | nil =>
    cases h
    exact hb
  | cons s rest ih =>
    rw [List.foldlM_cons] at h
    obtain ⟨next, hnext, h⟩ := Option.bind_eq_some_iff.1 h
    exact ih (hb.of_pass hnext) h

theorem Bound.exists_accepted (hb : Bound es) :
    ∃ more : Path, more.foldlM pass es = some [] := by
  obtain ⟨more, -, hmore⟩ := exists_shortest hb
  have hall := hmore [] []
  rw [List.append_nil, List.append_nil] at hall
  exact ⟨more, hall⟩

theorem exists_accepts_append (hb : Bound p.elements) (h : ¬ MeetsMismatch p path) :
    ∃ more, p.accepts (path ++ more) := by
  rw [meetsMismatch_iff] at h
  obtain ⟨left, hleft⟩ := Option.ne_none_iff_exists'.1 h
  obtain ⟨more, hmore⟩ := (hb.of_foldlM_pass hleft).exists_accepted
  refine ⟨more, accepts_iff.2 ?_⟩
  rw [List.foldlM_append, hleft]
  exact hmore

end

/-- A path is accepted for good, refused for good or still undecided, and it is only ever one of the
three. It is refused for good just if the walk along it met a mismatch. -/
theorem existsUnique_prospect {text : String} {p : Pattern} (h : compile text = .ok p)
    (path : Path) :
    (∃! prospect : Prospect, prospect.Holds p path) ∧
      (Prospect.lost.Holds p path ↔ MeetsMismatch p path) := by
  have hb := bound_of_compile h
  have hlost : Prospect.lost.Holds p path ↔ MeetsMismatch p path := by
    constructor
    · rintro ⟨-, hnone⟩
      by_contra hmet
      obtain ⟨more, hmore⟩ := exists_accepts_append hb hmet
      exact hnone more hmore
    · intro hmet
      have hnone := hmet.not_accepts_append
      exact ⟨List.append_nil path ▸ hnone [], hnone⟩
  refine ⟨?_, hlost⟩
  by_cases haccepts : p.accepts path
  · refine ⟨.settled, ⟨haccepts, accepts_append haccepts⟩, fun other hother => ?_⟩
    cases other with
    | settled => rfl
    | lost => exact absurd haccepts hother.1
    | pending => exact absurd haccepts hother.1
  · by_cases hmet : MeetsMismatch p path
    · refine ⟨.lost, hlost.2 hmet, fun other hother => ?_⟩
      cases other with
      | settled => exact absurd hother.1 haccepts
      | lost => rfl
      | pending => exact absurd hmet hother.2.1
    · refine ⟨.pending, ⟨haccepts, hmet, exists_accepts_append hb hmet⟩, fun other hother => ?_⟩
      cases other with
      | settled => exact absurd hother.1 haccepts
      | lost => exact absurd (hlost.1 hother) hmet
      | pending => rfl

/-- The double star takes `b` for its terminal and the star along with it; a second `b` is still to
come. -/
theorem existsUnique_prospect_between_wildcards :
    let p : Pattern := ⟨[.anyDepth (some (.member "b")), .anyOne (some (.member "b")),
      .literal (.member "b")]⟩
    let path : Path := [.member "a", .member "b"]
    compile "**.*.b" = .ok p ∧ (∃! prospect : Prospect, prospect.Holds p path) ∧
      Prospect.pending.Holds p path ∧ Prospect.lost.Holds p (path ++ [.index 0]) := by
  intro p path
  have hp : compile "**.*.b" = .ok p := by decide +kernel
  obtain ⟨hunique, -⟩ := existsUnique_prospect hp path
  have hpending : Prospect.pending.Holds p path := by
    refine ⟨by decide +kernel, ?_, [.member "b"], by decide +kernel⟩
    rw [meetsMismatch_iff]
    decide +kernel
  refine ⟨hp, hunique, hpending, (existsUnique_prospect hp _).2.2 ?_⟩
  rw [meetsMismatch_iff]
  decide +kernel

end JsonWalk.Pattern
