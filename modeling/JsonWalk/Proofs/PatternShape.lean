import JsonWalk.Proofs.WildcardRuns

/-!
# The shape of a compiled pattern

A pattern can be put together in one sweep from left to right. A wildcard is put down without a
terminal and its place noted, the next literal binds all the places noted before it, and the
wildcards that are at the end then are taken off. What comes out is the same, and it has a shape
that keeps the walk in bounds: a jump over two elements never leads beyond the end, and a double
star that the walk waits at has a terminal.
-/

namespace JsonWalk.Pattern

namespace Element

def bindTo (c : Segment) : Element → Element
  | .literal s => .literal s
  | .anyOne _ => .anyOne (some c)
  | .anyDepth _ => .anyDepth (some c)

end Element

/-- What a sweep has put down, and the places in it that wait for a terminal. -/
structure Sweep where
  elements : List Element := []
  waiting : List Nat := []

namespace Sweep

def put (b : Sweep) : Atom → Sweep
  | .literal c =>
    ⟨b.waiting.foldl (fun es i => es.modify i (.bindTo c)) b.elements ++ [.literal c], []⟩
  | .star => ⟨b.elements ++ [.anyOne none], b.waiting ++ [b.elements.length]⟩
  | .doubleStar => ⟨b.elements ++ [.anyDepth none], b.waiting ++ [b.elements.length]⟩

def trimmed (b : Sweep) : List Element := b.elements.rdropWhile Element.isWildcard

end Sweep

/-! ### Terminals -/

section

variable {es : List Element}

theorem Bound.exists_literal {e : Element} (h : Bound (e :: es)) :
    ∃ c, e.target = some c ∧ (e :: es).find? (! ·.isWildcard) = some (.literal c) := by
  induction es generalizing e with
  | nil =>
    cases h with
    | literal c => exact ⟨c, rfl, rfl⟩
  | cons f es ih =>
    cases h with
    | literal c => exact ⟨c, rfl, rfl⟩
    | anyOne h | anyDepth h => exact ih h

theorem Bound.not_isWildcard_getLast (h : Bound es) : ∀ e ∈ es.getLast?, ¬ e.isWildcard := by
  induction h with
  | nil => simp
  | @literal s es _ ih =>
    cases es with
    | nil => simp [Element.isWildcard]
    | cons e es => simpa only [List.getLast?_cons_cons] using ih
  | anyOne _ ih | anyDepth _ ih => simpa only [List.getLast?_cons_cons] using ih

theorem Bound.exists_terminal (h : Bound es) {i : Nat} {e : Element} (hi : es[i]? = some e)
    (he : e.isWildcard) :
    ∃ c, e.terminal = some c ∧ (es.drop (i + 1)).find? (! ·.isWildcard) = some (.literal c) := by
  induction h generalizing i with
  | nil => cases hi
  | literal s _ ih =>
    cases i with
    | zero =>
      cases hi
      cases he
    | succ i => exact ih hi
  | anyOne h ih | anyDepth h ih =>
    cases i with
    | zero =>
      cases hi
      exact h.exists_literal
    | succ i => exact ih hi

theorem Bound.add_two_le_length (h : Bound es) {i : Nat} {e : Element} (hi : es[i]? = some e)
    (he : e.isWildcard) : i + 2 ≤ es.length := by
  obtain ⟨c, -, hc⟩ := h.exists_terminal hi he
  have hbehind : es.drop (i + 1) ≠ [] := by
    intro hnil
    rw [hnil] at hc
    cases hc
  rw [Ne, List.drop_eq_nil_iff] at hbehind
  omega

end

/-! ### The sweep -/

section

variable {run : List Atom} {front : List Element} {c : Segment}

def Atom.unbound : Atom → Element
  | .literal s => .literal s
  | .star => .anyOne none
  | .doubleStar => .anyDepth none

theorem isWildcard_unbound {a : Atom} (ha : a.isWildcard) : a.unbound.isWildcard := by
  cases a with
  | literal s => cases ha
  | star | doubleStar => rfl

theorem bindTo_unbound {a : Atom} (ha : a.isWildcard) : a.unbound.bindTo c = a.before c := by
  cases a with
  | literal s => cases ha
  | star | doubleStar => rfl

/-- The places of a run at the end are bound one after another. -/
theorem foldl_bindTo (hrun : ∀ a ∈ run, a.isWildcard) :
    (List.range' front.length run.length).foldl (fun es i => es.modify i (.bindTo c))
      (front ++ run.map Atom.unbound) = front ++ run.map (Atom.before c) := by
  induction run generalizing front with
  | nil => rfl
  | cons a run ih =>
    rw [List.forall_mem_cons] at hrun
    have hfirst : (front ++ a.unbound :: run.map Atom.unbound).modify front.length (.bindTo c) =
        (front ++ [a.before c]) ++ run.map Atom.unbound := by
      rw [List.modify_eq_take_cons_drop (by simp)]
      simp [bindTo_unbound hrun.1]
    have hrest : (List.range' (front ++ [a.before c]).length run.length).foldl
        (fun es i => es.modify i (.bindTo c)) (front ++ [a.before c] ++ run.map Atom.unbound) =
          front ++ [a.before c] ++ run.map (Atom.before c) := ih hrun.2
    rw [List.length_append, List.length_singleton] at hrest
    rw [List.length_cons, List.range'_succ, List.foldl_cons, List.map_cons, hfirst, hrest,
      List.append_assoc, List.singleton_append, List.map_cons]

/-- What a sweep has come to: all is bound but a run of wildcards at the end, and their places are
the ones that wait. -/
theorem exists_waiting_run (as : List Atom) : ∃ front run,
    as = front ++ run ∧ (∀ a ∈ front.getLast?, ¬ a.isWildcard) ∧ (∀ a ∈ run, a.isWildcard) ∧
      as.foldl Sweep.put {} = ⟨bind front ++ run.map Atom.unbound,
        List.range' (bind front).length run.length⟩ := by
  induction as using List.reverseRecOn with
  | nil => exact ⟨[], [], rfl, by simp, by simp, rfl⟩
  | append_singleton as a ih =>
    obtain ⟨front, run, rfl, hfront, hrun, hsweep⟩ := ih
    rw [List.foldl_append, hsweep]
    cases a with
    | literal c =>
      -- the literal binds the run, and nothing waits any more
      refine ⟨front ++ run ++ [.literal c], [], (List.append_nil _).symm, ?_, by simp, ?_⟩
      · intro a ha
        cases List.getLast?_concat.symm.trans ha
        exact Bool.false_ne_true
      · rw [List.append_assoc, bind_front hfront, bind_run hrun]
        simp only [List.foldl_cons, List.foldl_nil, Sweep.put, foldl_bindTo hrun, bind,
          List.append_assoc, List.map_nil, List.append_nil]
        rfl
    | star | doubleStar =>
      refine ⟨front, run ++ [_], List.append_assoc .., hfront, ?_, ?_⟩
      · intro a ha
        obtain ha | ha := List.mem_append.1 ha
        · exact hrun a ha
        · cases List.mem_singleton.1 ha
          rfl
      · simp [Sweep.put, List.range'_concat, Atom.unbound]

/-- The sweep from left to right binds like the recursion from the right. -/
theorem trimmed_foldl_put (as : List Atom) : (as.foldl Sweep.put {}).trimmed = bind as := by
  obtain ⟨front, run, rfl, hfront, hrun, hsweep⟩ := exists_waiting_run as
  rw [hsweep, bind_append_wildcards front hrun]
  have hloose : (run.map Atom.unbound).reverse.dropWhile Element.isWildcard = [] := by
    simpa using fun a ha => isWildcard_unbound (hrun a ha)
  have htight : (bind front).rdropWhile Element.isWildcard = bind front := by
    rw [List.rdropWhile_eq_self_iff]
    exact fun hne => (bound_bind front).not_isWildcard_getLast _ (List.getLast?_eq_some_getLast hne)
  rw [Sweep.trimmed, List.rdropWhile, List.reverse_append, List.dropWhile_append, hloose]
  exact htight

end

/-! ### The cursor -/

section

variable {p : Pattern} {cursor next : Nat}

theorem Bound.le_length_of_advance (hb : Bound p.elements) {s : Segment}
    (hcursor : cursor ≤ p.elements.length) (h : p.advance cursor s = some next) :
    next ≤ p.elements.length := by
  rw [advance] at h
  cases he : p.elements[cursor]? with
  | none =>
    rw [he] at h
    cases h
    exact hcursor
  | some e =>
    obtain ⟨hlt, -⟩ := List.getElem?_eq_some_iff.1 he
    rw [he] at h
    cases e with
    | literal t =>
      by_cases hs : s = t
      · simp only [Element.step, if_pos hs] at h
        cases h
        exact hlt
      · simp only [Element.step, if_neg hs] at h
        cases h
    | anyOne t =>
      cases h
      exact hlt
    | anyDepth t =>
      by_cases ht : t = some s
      · simp only [Element.step, if_pos ht] at h
        cases h
        exact hb.add_two_le_length he rfl
      · simp only [Element.step, if_neg ht] at h
        cases h
        exact hcursor

theorem Bound.le_length_of_walk (hb : Bound p.elements) {path : Path}
    (hcursor : cursor ≤ p.elements.length) (h : p.walk cursor path = some next) :
    next ≤ p.elements.length := by
  induction path generalizing cursor with
  | nil =>
    cases h
    exact hcursor
  | cons s rest ih =>
    rw [walk] at h
    cases hstep : p.advance cursor s with
    | none =>
      rw [hstep] at h
      cases h
    | some between =>
      rw [hstep] at h
      exact ih (hb.le_length_of_advance hcursor hstep) h

end

/-- A compiled pattern does not end with a wildcard, and each wildcard in it has the first literal
behind it for its terminal. So no walk, however far it has come, stands beyond the end of the
pattern or at a double star that has no terminal. -/
theorem compiled_shape {text : String} {p : Pattern} (h : compile text = .ok p) :
    (∀ e ∈ p.elements.getLast?, ¬ e.isWildcard) ∧
      (∀ i e, p.elements[i]? = some e → e.isWildcard →
        ∃ c, e.terminal = some c ∧
          (p.elements.drop (i + 1)).find? (! ·.isWildcard) = some (.literal c)) ∧
      ∀ path cursor, p.walk 0 path = some cursor →
        cursor ≤ p.elements.length ∧ p.elements[cursor]? ≠ some (.anyDepth none) := by
  have hb := bound_of_compile h
  refine ⟨hb.not_isWildcard_getLast, fun i e => hb.exists_terminal, fun path cursor hwalk => ?_⟩
  refine ⟨hb.le_length_of_walk (Nat.zero_le _) hwalk, fun hcursor => ?_⟩
  obtain ⟨c, hc, -⟩ := hb.exists_terminal hcursor rfl
  cases hc

/-- A run of three wildcards, another one at the end, and a jump over a star. -/
theorem compiled_shape_of_runs :
    let p : Pattern := ⟨[.anyDepth (some (.member "x")), .anyOne (some (.member "x")),
      .anyDepth (some (.member "x")), .literal (.member "x"), .anyDepth (some (.index 2)),
      .literal (.index 2)]⟩
    let path : Path := [.index 0, .member "x", .member "x", .index 1, .index 2]
    compile "**.*.**.x.**.@2.*" = .ok p ∧ p.walk 0 path = some 6 ∧ 6 ≤ p.elements.length ∧
      ∀ e ∈ p.elements.getLast?, ¬ e.isWildcard := by
  intro p path
  have hp : compile "**.*.**.x.**.@2.*" = .ok p := by decide +kernel
  have hwalk : p.walk 0 path = some 6 := by decide +kernel
  obtain ⟨hlast, -, hcursor⟩ := compiled_shape hp
  exact ⟨hp, hwalk, (hcursor path 6 hwalk).1, hlast⟩

end JsonWalk.Pattern
