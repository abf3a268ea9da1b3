import JsonWalk.CommandLine
import JsonWalk.Proofs.Indifference
import JsonWalk.Proofs.PlainTexts
import JsonWalk.Proofs.Readers
import JsonWalk.Proofs.Selecting

/-!
# Runs of the command line

The arguments are read one item after another, an option together with the word behind it. A run
prints nothing if an item, the pattern or the text is at fault, and else one line for each hit.
-/

namespace JsonWalk.CommandLine

/-! ### What the arguments say -/

def IsCount (arg : String) (n : Nat) : Prop :=
  n < Nat.pow 2 64 ∧ ∃ ds, (arg.toList = ds ∨ arg.toList = '+' :: ds) ∧
    ds ≠ [] ∧ (∀ c ∈ ds, c.isDigit) ∧ Nat.ofDigitChars 10 ds 0 = n

theorem count?_eq_some_iff {arg : String} {n : Nat} : count? arg = some n ↔ IsCount arg n := by
  have hword {ds : List Char} : Decimal.word? ds = some n ↔
      n < Nat.pow 2 64 ∧ ds ≠ [] ∧ (∀ c ∈ ds, c.isDigit) ∧ Nat.ofDigitChars 10 ds 0 = n := by
    rw [Decimal.word?_eq_some_iff, Decimal.wordBound]
    tauto
  unfold count? IsCount
  split
  · next ds heq =>
    rw [hword, heq]
    constructor
    · rintro ⟨hlt, h⟩
      exact ⟨hlt, ds, .inr rfl, h⟩
    · rintro ⟨hlt, ds', rfl | h', hne, hdigits, hvalue⟩
      · exact absurd (hdigits '+' List.mem_cons_self) (by decide)
      · obtain ⟨-, rfl⟩ := List.cons_eq_cons.1 h'
        exact ⟨hlt, hne, hdigits, hvalue⟩
  · next hsign =>
    rw [hword]
    constructor
    · rintro ⟨hlt, h⟩
      exact ⟨hlt, _, .inl rfl, h⟩
    · rintro ⟨hlt, ds, rfl | h', h⟩
      · exact ⟨hlt, h⟩
      · exact absurd h' (hsign ds)

/-- One item of a command line. The number that an option is about may be missing, or not be one. -/
inductive Item where
  | limit (count : Option Nat)
  | maxDepth (count : Option Nat)
  | paths
  | positional (arg : String)
deriving DecidableEq

/-- The items of a command line. The word behind an option that needs one belongs to it, whatever
it is. -/
def items : List String → List Item
  | [] => []
  | "--first" :: rest => .limit (some 1) :: items rest
  | ["--limit"] => [.limit none]
  | "--limit" :: arg :: rest => .limit (count? arg) :: items rest
  | ["--max-depth"] => [.maxDepth none]
  | "--max-depth" :: arg :: rest => .maxDepth (count? arg) :: items rest
  | "--paths" :: rest => .paths :: items rest
  | arg :: rest => .positional arg :: items rest

def Item.limit? : Item → Option Nat
  | .limit count => count
  | _ => none

def Item.maxDepth? : Item → Option Nat
  | .maxDepth count => count
  | _ => none

def Item.positional? : Item → Option String
  | .positional arg => some arg
  | _ => none

def limit (args : List String) : Option Nat := ((items args).filterMap Item.limit?).getLast?

def maxDepth (args : List String) : Nat :=
  ((items args).filterMap Item.maxDepth?).getLast?.getD 512

/-- The arguments that are no options and belong to none. -/
def positionals (args : List String) : List String := (items args).filterMap Item.positional?

/-! ### Reading the arguments -/

namespace Options

/-- Adds what an item says. -/
def add? (o : Options) : Item → Option Options
  | .limit count => count.map fun n => { o with limit := some n }
  | .maxDepth count => count.map fun n => { o with limits := { o.limits with maxDepth := n } }
  | .paths => some { o with showPaths := true }
  | .positional arg => if o.pattern.isNone then some { o with pattern := some arg } else none

/-- What items that are no fault make of the options before. -/
@[mk_iff]
structure Adds (o : Options) (is : List Item) (o' : Options) : Prop where
  limit_ne : .limit none ∉ is
  maxDepth_ne : .maxDepth none ∉ is
  pattern : o.pattern.toList ++ is.filterMap Item.positional? = o'.pattern.toList
  limit : o'.limit = (is.filterMap Item.limit?).getLast?.or o.limit
  limits : o'.limits =
    { o.limits with maxDepth := (is.filterMap Item.maxDepth?).getLast?.getD o.limits.maxDepth }
  showPaths : o'.showPaths = (o.showPaths || .paths ∈ is)

variable {o o' : Options} {i : Item} {is : List Item}

theorem adds_nil_iff : Adds o [] o' ↔ o = o' := by
  constructor
  · rintro ⟨-, -, hpattern, hlimit, hlimits, hpaths⟩
    rcases o with ⟨_ | text, n, l, b⟩ <;> rcases o' with ⟨_ | text', n', l', b'⟩ <;> simp_all
  · rintro rfl
    constructor <;> simp

theorem adds_cons_iff : Adds o (i :: is) o' ↔ ∃ o₁, add? o i = some o₁ ∧ Adds o₁ is o' := by
  simp only [adds_iff, List.filterMap_cons, List.mem_cons]
  cases i with
  | limit count =>
    cases count <;> simp [add?, Item.limit?, Item.maxDepth?, Item.positional?, List.getLast?_cons]
  | maxDepth count =>
    cases count <;> simp [add?, Item.limit?, Item.maxDepth?, Item.positional?, List.getLast?_cons]
  | paths => simp [add?, Item.limit?, Item.maxDepth?, Item.positional?]
  | positional arg =>
    cases hp : o.pattern with
    | none => simp [add?, hp, Item.limit?, Item.maxDepth?, Item.positional?]
    | some text =>
      -- two patterns are one too many
      cases o'.pattern <;> simp [add?, hp, Item.positional?]

theorem foldlM_add?_eq_some_iff : is.foldlM add? o = some o' ↔ Adds o is o' := by
  induction is generalizing o with
  | nil => exact Option.some_inj.trans adds_nil_iff.symm
  | cons i is ih =>
    simp only [List.foldlM_cons, Option.bind_eq_bind, Option.bind_eq_some_iff, ih, adds_cons_iff]

end Options

theorem toOption_readOptions (o : Options) (args : List String) :
    (readOptions o args).toOption = (items args).foldlM Options.add? o := by
  fun_induction readOptions o args <;> simp_all [items, Options.add?, Except.toOption]

theorem readOptions_eq_ok_iff {o o' : Options} {args : List String} :
    readOptions o args = .ok o' ↔ o.Adds (items args) o' := by
  rw [← Options.foldlM_add?_eq_some_iff, ← toOption_readOptions]
  cases readOptions o args <;> simp [Except.toOption]

/-! ### Searching -/

section

variable {q : Query} {input : List UInt8} {limit : Option Nat} {v : Value}

def cut (limit : Option Nat) (hits : List Hit) : List Hit :=
  match limit with
  | none => hits
  | some n => hits.take n

theorem find_always (h : v.nesting ≤ q.limits.maxDepth) :
    q.find v limit .always () = (.ok (cut limit (Query.candidates q.pattern v)), ()) := by
  have hall : (Query.candidates q.pattern v).filter (fun _ => true) =
      Query.candidates q.pattern v := List.filter_true _
  cases limit with
  | none => rw [Predicate.always, Query.find_ofTest _ _ h, hall, cut]
  | some n => rw [Predicate.always, Query.find_ofTest_some _ _ h, hall, cut]

theorem findBytes_of_accepted
    (h : (StreamWalk.walkBytes { limits := q.limits } .silent () input).result = .ok v) :
    (q.findBytes input limit .always ()).1 = .ok (cut limit (Query.candidates q.pattern v)) := by
  obtain ⟨hnames, hnesting, htext⟩ := StreamWalk.walkBytes_silent_eq_ok_iff.1 h
  have hagree : Query.Agree q.limits.maxDepth v (q.findBytes input limit .always ())
      (q.find v limit .always ()) := Query.agree_of_text hnames htext
  obtain ⟨hits, s, hfound, hscan⟩ := hagree.both_ok hnesting
  rw [find_always hnesting] at hscan
  rw [hfound]
  exact congrArg Prod.fst hscan.symm

/-- Without failures of the reader a query succeeds only if a walk does that listens to nothing. -/
theorem exists_accepted_of_findReader {answers : List Delivery} {hits : List Hit}
    (hf : .failure ∉ answers) (h : (q.findReader answers limit .always ()).1 = .ok hits) :
    ∃ v, (StreamWalk.walkBytes { limits := q.limits } .silent ()
      (Input.pendingBytes answers)).result = .ok v := by
  let w : StreamWalk := { limits := q.limits }
  obtain ⟨halike, -⟩ := Assembly.run_agree
    (Query.neverFails_collector q.pattern limit (.always : Predicate Unit))
    Listener.neverFails_silent w.limits.maxDepth (a := {}) rfl { state := () } ()
    (Lexer.ofInput (.ofReader w.limits.readBuffer answers))
  have hbytes : (w.walkReader .silent () answers).result =
      (w.walkBytes .silent () (Input.pendingBytes answers)).result := by
    have houtcome : (w.walkReader .silent () answers).outcome =
        (w.walkBytes .silent () (Input.pendingBytes answers)).outcome :=
      StreamWalk.outcome_walkReader hf
    rw [StreamEnd.outcome, StreamEnd.outcome, Prod.mk.injEq] at houtcome
    exact houtcome.1
  have hcollects : ∃ v, (w.walkReader (Query.collector q.pattern limit .always)
      { state := () } answers).result = .ok v := by
    cases hresult : (w.walkReader (Query.collector q.pattern limit .always)
        { state := () } answers).result with
    | ok v => exact ⟨v, rfl⟩
    | error e =>
      rw [Query.findReader, hresult] at h
      cases h
  obtain ⟨v, hv⟩ := hcollects
  rw [← StreamWalk.walk_eq_run w, ← StreamWalk.walk_eq_run w, ← StreamWalk.walkReader,
    ← StreamWalk.walkReader, hv, hbytes] at halike
  cases hsilent : (w.walkBytes .silent () (Input.pendingBytes answers)).result with
  | ok v' => exact ⟨v', rfl⟩
  | error e =>
    rw [hsilent] at halike
    cases halike

theorem exists_accepted_of_findBytes {hits : List Hit}
    (h : (q.findBytes input limit .always ()).1 = .ok hits) :
    ∃ v, (StreamWalk.walkBytes { limits := q.limits } .silent () input).result = .ok v := by
  cases input with
  | nil => exact exists_accepted_of_findReader List.not_mem_nil h
  | cons b bytes =>
    have hbytes : Input.pendingBytes [.bytes b bytes] = b :: bytes := List.append_nil _
    exact hbytes ▸ exists_accepted_of_findReader (by simp) h

end

theorem mapError_eq_ok_iff {ε ε' α : Type} {m : Except ε α} {f : ε → ε'} {a : α} :
    m.mapError f = .ok a ↔ m = .ok a := by
  cases m <;> simp [Except.mapError]

theorem search_eq_ok_iff {args : List String} {input : List UInt8} {o : Options}
    {hits : List Hit} :
    search args input = .ok (o, hits) ↔ ∃ text pattern, readOptions {} args = .ok o ∧
      o.pattern = some text ∧ Pattern.compile text = .ok pattern ∧
      (Query.findBytes { pattern, limits := o.limits } input o.limit .always ()).1 = .ok hits := by
  rw [search, StringLiteral.bind_eq_ok_iff]
  constructor
  · rintro ⟨o', ho, h⟩
    cases hp : o'.pattern with
    | none =>
      simp only [hp] at h
      cases h
    | some text =>
      simp only [hp, StringLiteral.bind_eq_ok_iff, mapError_eq_ok_iff] at h
      obtain ⟨pattern, hpattern, hits', hhits, heq⟩ := h
      cases heq
      exact ⟨text, pattern, ho, hp, hpattern, hhits⟩
  · rintro ⟨text, pattern, ho, hp, hpattern, hhits⟩
    refine ⟨o, ho, ?_⟩
    simp only [hp, StringLiteral.bind_eq_ok_iff, mapError_eq_ok_iff]
    exact ⟨pattern, hpattern, hits, hhits, rfl⟩

/-- Reasons not to search. What is wrong with the text does not depend on the pattern or the
limit. -/
inductive Faulty (args : List String) (input : List UInt8) : Prop
  | limit : .limit none ∈ items args → Faulty args input
  | maxDepth : .maxDepth none ∈ items args → Faulty args input
  | positionals : (positionals args).length ≠ 1 → Faulty args input
  | pattern {text : String} {e : Pattern.PatternError} : text ∈ positionals args →
    Pattern.compile text = .error e → Faulty args input
  | input : (∀ v, (StreamWalk.walkBytes { limits := { maxDepth := maxDepth args } } .silent ()
      input).result ≠ .ok v) → Faulty args input

section

variable {args : List String} {input : List UInt8} {o : Options}

theorem readOptions_eq_ok_iff_items : readOptions {} args = .ok o ↔
    .limit none ∉ items args ∧ .maxDepth none ∉ items args ∧
      positionals args = o.pattern.toList ∧ o.limit = limit args ∧
      o.limits = { maxDepth := maxDepth args } ∧ o.showPaths = decide (.paths ∈ items args) := by
  rw [readOptions_eq_ok_iff, Options.adds_iff, limit, maxDepth, positionals]
  simp

theorem not_faulty_of_search {hits : List Hit} (h : search args input = .ok (o, hits)) :
    ¬ Faulty args input := by
  obtain ⟨text, pattern, ho, htext, hpattern, hhits⟩ := search_eq_ok_iff.1 h
  obtain ⟨hlimit, hdepth, hwords, -, hlimits, -⟩ := readOptions_eq_ok_iff_items.1 ho
  rw [htext, Option.toList_some] at hwords
  rintro (hfault | hfault | hfault | ⟨hmem, hfault⟩ | hfault)
  · exact hlimit hfault
  · exact hdepth hfault
  · exact hfault (congrArg List.length hwords)
  · rw [hwords, List.mem_singleton] at hmem
    subst hmem
    cases hpattern.symm.trans hfault
  · obtain ⟨v, hv⟩ := exists_accepted_of_findBytes hhits
    rw [hlimits] at hv
    exact hfault v hv

theorem run_of_faulty (h : Faulty args input) : ∃ errors, run args input = ⟨2, "", errors⟩ := by
  cases hsearch : search args input with
  | error message => exact ⟨_, by rw [run, hsearch]⟩
  | ok r => exact absurd h (not_faulty_of_search hsearch)

theorem not_faulty {text : String} {pattern : Pattern} {v : Value}
    (hlimit : .limit none ∉ items args) (hdepth : .maxDepth none ∉ items args)
    (htext : positionals args = [text]) (hpattern : Pattern.compile text = .ok pattern)
    (hv : (StreamWalk.walkBytes { limits := { maxDepth := maxDepth args } } .silent ()
      input).result = .ok v) :
    ¬ Faulty args input := by
  rintro (h | h | h | ⟨hmem, hfault⟩ | h)
  · exact hlimit h
  · exact hdepth h
  · exact h (congrArg List.length htext)
  · rw [htext, List.mem_singleton] at hmem
    subst hmem
    cases hpattern.symm.trans hfault
  · exact h v hv

theorem search_of_not_faulty (h : ¬ Faulty args input) : ∃ text pattern v o,
    positionals args = [text] ∧ Pattern.compile text = .ok pattern ∧
    (StreamWalk.walkBytes { limits := { maxDepth := maxDepth args } } .silent () input).result =
      .ok v ∧
    search args input = .ok (o, cut (limit args) (Query.candidates pattern v)) ∧
    o.showPaths = decide (.paths ∈ items args) := by
  have hpositionals : (positionals args).length = 1 := not_not.1 (h ∘ .positionals)
  obtain ⟨text, htext⟩ := List.length_eq_one_iff.1 hpositionals
  have hinput : ∃ v, (StreamWalk.walkBytes { limits := { maxDepth := maxDepth args } } .silent ()
      input).result = .ok v := by
    by_contra hne
    exact h (.input (not_exists.1 hne))
  obtain ⟨v, hv⟩ := hinput
  cases hpattern : Pattern.compile text with
  | error e => exact absurd (.pattern (htext ▸ List.mem_singleton_self _) hpattern) h
  | ok pattern =>
    let o : Options :=
      ⟨some text, limit args, { maxDepth := maxDepth args }, decide (.paths ∈ items args)⟩
    have ho : readOptions {} args = .ok o :=
      readOptions_eq_ok_iff_items.2 ⟨h ∘ .limit, h ∘ .maxDepth, htext, rfl, rfl, rfl⟩
    refine ⟨text, pattern, v, o, htext, hpattern, hv, ?_, rfl⟩
    exact search_eq_ok_iff.2 ⟨text, pattern, ho, rfl, hpattern, findBytes_of_accepted hv⟩

end

/-- Without the option for paths a run fails, printing nothing, just if there is a fault, and else
prints the text of each hit on a line of its own, in the order in which a walk leaves them, up to
the limit. -/
theorem run_prints_values (args : List String) (input : List UInt8) (h : .paths ∉ items args) :
    (∀ arg n, count? arg = some n ↔ IsCount arg n) ∧
    (Faulty args input → ∃ errors, run args input = ⟨2, "", errors⟩) ∧
    (¬ Faulty args input → ∃ text pattern v,
      let hits := cut (limit args) (Query.candidates pattern v)
      positionals args = [text] ∧ Pattern.compile text = .ok pattern ∧
      (StreamWalk.walkBytes { limits := { maxDepth := maxDepth args } } .silent () input).result =
        .ok v ∧
      (∀ hit ∈ hits, '\n' ∉ hit.value.chars) ∧
      run args input = ⟨if hits.isEmpty then 1 else 0,
        String.ofList (hits.flatMap fun hit => hit.value.chars ++ ['\n']), ""⟩) := by
  refine ⟨fun _ _ => count?_eq_some_iff, fun hfaulty => ?_, fun hfaulty => ?_⟩
  · cases hsearch : search args input with
    | error message =>
      exact ⟨_, by rw [run, hsearch]⟩
    | ok r => exact absurd hfaulty (not_faulty_of_search hsearch)
  · obtain ⟨text, pattern, v, o, htext, hpattern, hv, hsearch, hpaths⟩ :=
      search_of_not_faulty hfaulty
    rw [decide_eq_false h] at hpaths
    refine ⟨text, pattern, v, htext, hpattern, hv, fun hit _ => ?_, ?_⟩
    · exact hit.value.isPlain_chars.notMem (by decide)
    · rw [run, hsearch]
      dsimp only
      rw [hpaths]
      rfl

/-- The limit and the depth that are given last count, and every word behind an option is taken for
its number. -/
theorem run_prints_values_of_second_element :
    let args := ["@1", "--first", "--max-depth", "1", "--limit", "+2", "--max-depth", "2"]
    let args' := ["@1", "--limit", "--paths"]
    let input := Grammar.ascii "[[],[]]"
    (.paths ∉ items args ∧ run args input = ⟨0, "[]\n", ""⟩) ∧
      .paths ∉ items args' ∧ ∃ errors, run args' input = ⟨2, "", errors⟩ := by
  intro args args' input
  have hpaths : .paths ∉ items args ∧ .paths ∉ items args' := by decide
  let v : Value := .array [.array [], .array []]
  have hrest : Grammar.MoreItems (Grammar.ascii ",[]]") [.array []] [] :=
    .more (.none _) (.none _) (.emptyArray (.none _)) (.done (.none _))
  have htext : Grammar.TextDenotes input v :=
    ⟨input, [], .none _, .array (.none _) (.emptyArray (.none _)) hrest, .none _⟩
  have hv : (StreamWalk.walkBytes { limits := { maxDepth := 2 } } .silent () input).result =
      .ok v :=
    StreamWalk.walkBytes_silent_eq_ok_iff.2 ⟨⟨trivial, trivial, trivial⟩, by decide, htext⟩
  have hpositionals : positionals args = ["@1"] := by decide
  have hpattern : Pattern.compile "@1" = .ok ⟨[.literal (.index 1)]⟩ := by decide +kernel
  have hfaulty : ¬ Faulty args input := by
    rintro (h | h | h | ⟨hmem, hfault⟩ | h)
    · exact absurd h (by decide)
    · exact absurd h (by decide)
    · exact h (congrArg List.length hpositionals)
    · rw [hpositionals, List.mem_singleton] at hmem
      subst hmem
      cases hpattern.symm.trans hfault
    · exact h v hv
  obtain ⟨-, -, hprints⟩ := run_prints_values args input hpaths.1
  obtain ⟨-, hfails, -⟩ := run_prints_values args' input hpaths.2
  obtain ⟨text, pattern, w, htext', hpattern', hw, -, hrun⟩ := hprints hfaulty
  obtain rfl : "@1" = text := by simpa using hpositionals.symm.trans htext'
  cases hpattern.symm.trans hpattern'
  cases hv.symm.trans hw
  exact ⟨⟨hpaths.1, hrun⟩, hpaths.2, hfails (.limit (by decide))⟩

end JsonWalk.CommandLine
