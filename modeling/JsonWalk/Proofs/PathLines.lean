import JsonWalk.Proofs.CommandRuns
import JsonWalk.Proofs.PrintedTexts

/-!
# Lines with paths

With the option for paths a run prints each hit behind its path and a tab. A path is written with
the names on it as they are but for a few escapes, and neither line breaks nor tabs are among these,
so a hit has a line of its own that can be cut at its tab only as long as the names have none of
both.
-/

namespace JsonWalk

namespace Segment

variable {c : Char}

theorem mem_escape_iff {name : List Char} (hc : isSpecial c = false) :
    c ∈ escape name ↔ c ∈ name := by
  rw [escape, List.mem_flatMap]
  constructor
  · rintro ⟨d, hd, hmem⟩
    split at hmem
    · obtain rfl | rfl : c = '\\' ∨ c = d := by simpa using hmem
      · cases hc
      · exact hd
    · exact List.mem_singleton.1 hmem ▸ hd
  · intro hmem
    exact ⟨c, hmem, by rw [hc]; exact List.mem_singleton_self c⟩

theorem isSpecial_eq_false_of_control (hc : c.toNat < 0x20) : isSpecial c = false := by
  refine Bool.eq_false_iff.2 fun hspecial => ?_
  simp only [isSpecial, Bool.or_eq_true, beq_iff_eq] at hspecial
  obtain ((rfl | rfl) | rfl) | rfl := hspecial <;> exact absurd hc (by decide)

/-- A control in a written segment comes from a name. -/
theorem mem_chars_iff {s : Segment} (hc : c.toNat < 0x20) :
    c ∈ s.chars ↔ ∃ name, s = .member name ∧ c ∈ name.toList := by
  cases s with
  | member name => simp [chars, mem_escape_iff (isSpecial_eq_false_of_control hc)]
  | index position =>
    have hplain : IsPlain ('@' :: Decimal.digits position) :=
      IsPlain.cons_iff.2 ⟨by decide, Decimal.isPlain_digits position⟩
    simpa [chars] using hplain.notMem hc

end Segment

theorem Path.mem_chars_iff {path : Path} {c : Char} (hc : c.toNat < 0x20) :
    c ∈ path.chars ↔ ∃ name, .member name ∈ path ∧ c ∈ name.toList := by
  fun_induction chars path with
  | case1 => simp
  | case2 s => simp [Segment.mem_chars_iff hc, eq_comm]
  | case3 s t rest ih =>
    have hdot : c ≠ '.' := by
      rintro rfl
      exact absurd hc (by decide)
    rw [List.mem_append, List.mem_cons, ih, Segment.mem_chars_iff hc]
    simp only [hdot, false_or, List.mem_cons (b := s), or_and_right, exists_or, eq_comm (a := s)]

namespace CommandLine

/-! ### Lines of a text -/

/-- The lines of a text, each without the break that ends it. What is behind the last break is no
line. -/
def lines : List Char → List (List Char)
  | [] => []
  | c :: text =>
    if c = '\n' then [] :: lines text
    else
      match lines text with
      | [] => []
      | line :: later => (c :: line) :: later

/-- What is in front of the first tab of a line, and what is behind it. -/
def cutAtTab (line : List Char) : List Char × List Char :=
  (line.takeWhile (· ≠ '\t'), (line.dropWhile (· ≠ '\t')).tail)

section

variable {α : Type} {xs : List α} {front back : List Char}

theorem length_lines_append (text later : List Char) :
    (lines (text ++ '\n' :: later)).length = text.count '\n' + 1 + (lines later).length := by
  induction text with
  | nil => simp [lines, Nat.add_comm]
  | cons c text ih =>
    by_cases hc : c = '\n'
    · subst hc
      simp only [List.cons_append, lines, if_true, List.length_cons, ih, List.count_cons_self]
      omega
    · -- the rest has a line, to which the character is added
      rw [List.cons_append, lines, if_neg hc, List.count_cons_of_ne hc, ← ih]
      split
      · next hnone => rw [hnone] at ih; simp at ih; omega
      · next hsome => rw [hsome]; rfl

theorem lines_append (h : '\n' ∉ front) (later : List Char) :
    lines (front ++ '\n' :: later) = front :: lines later := by
  induction front with
  | nil => rfl
  | cons c front ih =>
    obtain ⟨hc, hfront⟩ := not_or.1 (mt List.mem_cons.2 h)
    rw [List.cons_append, lines, if_neg (Ne.symm hc), ih hfront]

theorem length_le_length_lines_flatMap (xs : List α) (f : α → List Char) :
    xs.length ≤ (lines (xs.flatMap fun x => f x ++ ['\n'])).length := by
  induction xs with
  | nil => exact Nat.zero_le _
  | cons x xs ih =>
    rw [List.flatMap_cons, List.append_assoc, List.singleton_append, length_lines_append,
      List.length_cons]
    omega

/-- A text of pieces that end in breaks has one line for each piece just if they have no other
breaks. -/
theorem length_lines_flatMap_eq_iff (f : α → List Char) :
    (lines (xs.flatMap fun x => f x ++ ['\n'])).length = xs.length ↔ ∀ x ∈ xs, '\n' ∉ f x := by
  induction xs with
  | nil => simp [lines]
  | cons x xs ih =>
    have hle := length_le_length_lines_flatMap xs f
    rw [List.flatMap_cons, List.append_assoc, List.singleton_append, length_lines_append,
      List.length_cons, List.forall_mem_cons, ← ih, ← List.count_eq_zero]
    omega

theorem lines_flatMap {f : α → List Char} (h : ∀ x ∈ xs, '\n' ∉ f x) :
    lines (xs.flatMap fun x => f x ++ ['\n']) = xs.map f := by
  induction xs with
  | nil => rfl
  | cons x xs ih =>
    obtain ⟨hx, hxs⟩ := List.forall_mem_cons.1 h
    rw [List.flatMap_cons, List.append_assoc, List.singleton_append, lines_append hx, ih hxs]
    rfl

theorem cutAtTab_eq_iff : cutAtTab (front ++ '\t' :: back) = (front, back) ↔ '\t' ∉ front := by
  constructor
  · intro h hmem
    have hfront : (front ++ '\t' :: back).takeWhile (· ≠ '\t') = front := congrArg Prod.fst h
    rw [← hfront] at hmem
    exact absurd (List.mem_takeWhile_imp hmem) (by decide)
  · intro h
    have hall : ∀ c ∈ front, decide (c ≠ '\t') = true := fun c hc =>
      decide_eq_true fun heq => h (heq ▸ hc)
    rw [cutAtTab, List.takeWhile_append_of_pos hall, List.dropWhile_append_of_pos hall]
    simp

end

/-! ### The lines of a run -/

section

variable {hits : List Hit}

def pathLine (hit : Hit) : List Char := hit.path.chars ++ '\t' :: hit.value.chars

theorem newline_notMem_pathLine_iff {hit : Hit} : '\n' ∉ pathLine hit ↔
    ∀ name, .member name ∈ hit.path → '\n' ∉ name.toList := by
  have hvalue : '\n' ∉ hit.value.chars := hit.value.isPlain_chars.notMem (by decide)
  have htab : '\n' ≠ '\t' := by decide
  rw [pathLine, List.mem_append, List.mem_cons, Path.mem_chars_iff (by decide)]
  simp [hvalue, htab]

theorem length_lines_pathLine_eq_iff :
    (lines (hits.flatMap fun hit => pathLine hit ++ ['\n'])).length = hits.length ↔
      ∀ hit ∈ hits, ∀ name, .member name ∈ hit.path → '\n' ∉ name.toList := by
  simp only [length_lines_flatMap_eq_iff, newline_notMem_pathLine_iff]

theorem map_cutAtTab_pathLine_iff :
    (lines (hits.flatMap fun hit => pathLine hit ++ ['\n'])).map cutAtTab =
        hits.map (fun hit => (hit.path.chars, hit.value.chars)) ↔
      ∀ hit ∈ hits, ∀ name, .member name ∈ hit.path → '\n' ∉ name.toList ∧ '\t' ∉ name.toList := by
  have htab (hit : Hit) : cutAtTab (pathLine hit) = (hit.path.chars, hit.value.chars) ↔
      ∀ name, .member name ∈ hit.path → '\t' ∉ name.toList := by
    rw [pathLine, cutAtTab_eq_iff, Path.mem_chars_iff (by decide)]
    simp
  have hcut (hlines : ∀ hit ∈ hits, '\n' ∉ pathLine hit) :
      (lines (hits.flatMap fun hit => pathLine hit ++ ['\n'])).map cutAtTab =
          hits.map (fun hit => (hit.path.chars, hit.value.chars)) ↔
        ∀ hit ∈ hits, ∀ name, .member name ∈ hit.path → '\t' ∉ name.toList := by
    rw [lines_flatMap hlines, List.map_map, List.map_inj_left]
    exact forall₂_congr fun hit _ => htab hit
  constructor
  · intro h hit hmem name hname
    have hlength := congrArg List.length h
    rw [List.length_map, List.length_map] at hlength
    have hnames := length_lines_pathLine_eq_iff.1 hlength
    have hlines : ∀ hit ∈ hits, '\n' ∉ pathLine hit := fun hit hmem =>
      newline_notMem_pathLine_iff.2 (hnames hit hmem)
    exact ⟨hnames hit hmem name hname, (hcut hlines).1 h hit hmem name hname⟩
  · intro h
    have hlines : ∀ hit ∈ hits, '\n' ∉ pathLine hit := fun hit hmem =>
      newline_notMem_pathLine_iff.2 fun name hname => (h hit hmem name hname).1
    exact (hcut hlines).2 fun hit hmem name hname => (h hit hmem name hname).2

end

/-- With the option for paths a run that has no fault prints the path of each hit, a tab and the
text of its value. There are as many lines as hits just if no name on the way to a hit has a line
break in it, and each of them can be cut into the path and the text just if no such name has a tab
in it either. -/
theorem run_prints_paths (args : List String) (input : List UInt8) (h : .paths ∈ items args) :
    (Faulty args input → ∃ errors, run args input = ⟨2, "", errors⟩) ∧
    (¬ Faulty args input → ∃ text pattern v,
      let hits := cut (limit args) (Query.candidates pattern v)
      let output := hits.flatMap fun hit => pathLine hit ++ ['\n']
      positionals args = [text] ∧ Pattern.compile text = .ok pattern ∧
      (StreamWalk.walkBytes { limits := { maxDepth := maxDepth args } } .silent () input).result =
        .ok v ∧
      run args input = ⟨if hits.isEmpty then 1 else 0, String.ofList output, ""⟩ ∧
      ((lines output).length = hits.length ↔
        ∀ hit ∈ hits, ∀ name, .member name ∈ hit.path → '\n' ∉ name.toList) ∧
      ((lines output).map cutAtTab = hits.map (fun hit => (hit.path.chars, hit.value.chars)) ↔
        ∀ hit ∈ hits, ∀ name, .member name ∈ hit.path →
          '\n' ∉ name.toList ∧ '\t' ∉ name.toList)) := by
  refine ⟨run_of_faulty, fun hfaulty => ?_⟩
  obtain ⟨text, pattern, v, o, htext, hpattern, hv, hsearch, hpaths⟩ :=
    search_of_not_faulty hfaulty
  rw [decide_eq_true h] at hpaths
  refine ⟨text, pattern, v, htext, hpattern, hv, ?_, length_lines_pathLine_eq_iff,
    map_cutAtTab_pathLine_iff⟩
  have hline : line true = fun hit => pathLine hit ++ ['\n'] := by
    funext hit
    simp [line, pathLine]
  rw [run, hsearch]
  dsimp only
  rw [hpaths, hline]

/-- A name with a tab leaves the lines as many as the hits, but its own tab comes first. -/
theorem run_prints_paths_of_tab :
    let v : Value := .object [("a.b", .null), ("c\td", .array [])]
    let hits : List Hit := [⟨[.member "a.b"], .null⟩, ⟨[.member "c\td"], .array []⟩, ⟨[], v⟩]
    let args := ["*", "--paths"]
    let input := Utf8.encode v.chars
    (.paths ∈ items args ∧ ¬ Faulty args input ∧
      (lines (run args input).output.toList).length = hits.length ∧
      (lines (run args input).output.toList).map cutAtTab ≠
        hits.map fun hit => (hit.path.chars, hit.value.chars)) ∧
      .paths ∈ items ["--paths"] ∧ ∃ errors, run ["--paths"] input = ⟨2, "", errors⟩ := by
  intro v hits args input
  have hpaths : .paths ∈ items args := by decide
  have hpaths' : .paths ∈ items ["--paths"] := by decide
  have hpositionals : positionals args = ["*"] := by decide
  have hpattern : Pattern.compile "*" = .ok .identity := by decide +kernel
  have hv : (StreamWalk.walkBytes {} .silent () input).result = .ok v := by
    have hnames : v.DistinctNames := by
      simp [v, Value.DistinctNames, Value.MembersDistinct, Value.ItemsDistinct]
    have htext : Grammar.TextDenotes input v :=
      Value.textDenotes_chars ⟨trivial, ⟨trivial, trivial⟩⟩
    exact StreamWalk.walkBytes_silent_eq_ok_iff.2 ⟨hnames, by decide, htext⟩
  have hfaulty : ¬ Faulty args input :=
    not_faulty (by decide) (by decide) hpositionals hpattern hv
  obtain ⟨-, hprints⟩ := run_prints_paths args input hpaths
  obtain ⟨hfails, -⟩ := run_prints_paths ["--paths"] input hpaths'
  obtain ⟨text, pattern, w, htext', hpattern', hw, hrun, hlength, hcut⟩ := hprints hfaulty
  obtain rfl : "*" = text := by simpa using hpositionals.symm.trans htext'
  cases hpattern.symm.trans hpattern'
  cases hv.symm.trans hw
  have hhits : cut (limit args) (Query.candidates .identity v) = hits := by rfl
  rw [hhits] at hrun hlength hcut
  rw [hrun, String.toList_ofList]
  refine ⟨⟨hpaths, hfaulty, hlength.2 ?_, fun hsame => ?_⟩, hpaths',
    hfails (.positionals (by decide))⟩
  · simp [hits]
  · have hnames := hcut.1 hsame ⟨[.member "c\td"], .array []⟩ (by simp [hits]) "c\td" (by simp)
    exact absurd hnames (by decide)

/-- A line break in the name becomes one in the output, so that one hit has two lines. -/
theorem run_breaks_line_of_name :
    let args := ["a\nb", "--paths"]
    let input := Grammar.ascii "\x7b\"a\\nb\":1\x7d"
    ((search args input).map fun found => found.2.length).toOption = some 1 ∧
      .paths ∈ items args ∧ run args input = ⟨0, "a\nb\t1\n", ""⟩ ∧
      (lines (run args input).output.toList).length = 2 := by
  decide +kernel

end CommandLine
end JsonWalk
