import JsonWalk.Proofs.PathReading
import Mathlib.Data.List.Chain

/-!
# The spans of lexemes

The lexemes of a pattern cut its text into spans, each from where a lexeme begins to where the next
one does. In the span of a delimiter there is that character alone, not escaped; in the span of a
name there are its characters and the backslashes that escape some of them. Lexemes that are written
down again are read as the same lexemes.
-/

namespace JsonWalk.Pattern

namespace Sign

/-- What is written for a sign: in names every special character is escaped. -/
def written : Sign → List Char
  | .dot => ['.']
  | .mark => ['@']
  | .star => ['*']
  | .name cs => Segment.escape cs

theorem isSpelled_written {sign : Sign} {word : List Char} (h : sign.IsSpelled word) :
    sign.IsSpelled sign.written := by
  cases sign with
  | dot | mark | star => rfl
  | name cs => exact ⟨escaped_escape cs, h.2⟩

theorem isSpelled_of_delimiter? {sign : Sign} {c : Char} {word : List Char}
    (h : sign.delimiter? = some c) (hword : sign.IsSpelled word) : word = [c] := by
  cases sign with
  | dot | mark | star =>
    cases h
    exact hword
  | name => cases h

end Sign

/-! ### Backslashes that escape -/

/-- The character at a place, unless it is a backslash that escapes the next one. -/
def kept (text : List Char) (k : Nat) : Option Char :=
  if UnescapedAt text '\\' k then none else text[k]?

def bareChars (text : List Char) (first last : Nat) : List Char :=
  (List.range' first (last - first)).filterMap (kept text)

section

variable {k first middle last : Nat} {front rest word cs : List Char}

theorem kept_append_left (hk : k < front.length) : kept (front ++ rest) k = kept front k := by
  simp only [kept, unescapedAt_append_left hk, List.getElem?_append_left hk]

theorem kept_append_right (heven : closingBackslashes front % 2 = 0) :
    kept (front ++ rest) (front.length + k) = kept rest k := by
  simp only [kept, unescapedAt_append_right heven, getElem?_length_add]

theorem bareChars_append_left (hlast : last ≤ front.length) :
    bareChars (front ++ rest) first last = bareChars front first last := by
  refine List.filterMap_congr fun k hk => kept_append_left ?_
  obtain ⟨hge, hlt⟩ := List.mem_range'_1.1 hk
  omega

theorem bareChars_append_right (heven : closingBackslashes front % 2 = 0) :
    bareChars (front ++ rest) front.length (front.length + last) = bareChars rest 0 last := by
  have hrange : List.range' front.length last = (List.range' 0 last).map (front.length + ·) := by
    rw [List.map_add_range', Nat.add_zero]
  rw [bareChars, Nat.add_sub_cancel_left, hrange, List.filterMap_map, bareChars, Nat.sub_zero]
  exact List.filterMap_congr fun k _ => kept_append_right heven

theorem bareChars_append_bareChars (hfirst : first ≤ middle) (hlast : middle ≤ last)
    (text : List Char) :
    bareChars text first middle ++ bareChars text middle last = bareChars text first last := by
  have hmiddle : first + (middle - first) = middle := Nat.add_sub_cancel' hfirst
  have hlength : middle - first + (last - middle) = last - first := by omega
  have hrange := List.range'_append_1 (s := first) (m := middle - first) (n := last - middle)
  rw [hmiddle, hlength] at hrange
  rw [bareChars, bareChars, bareChars, ← List.filterMap_append, hrange]

theorem bareChars_append (heven : closingBackslashes front % 2 = 0) :
    bareChars (front ++ rest) 0 (front ++ rest).length =
      bareChars front 0 front.length ++ bareChars rest 0 rest.length := by
  rw [List.length_append, ← bareChars_append_bareChars (Nat.zero_le _) (Nat.le_add_right _ _),
    bareChars_append_left (Nat.le_refl _), bareChars_append_right heven]

theorem Escaped.bareChars_eq (h : Escaped word cs) : bareChars word 0 word.length = cs := by
  induction h with
  | nil => rfl
  | @plain c word cs hc _ ih =>
    have hback : c ≠ '\\' := by
      rintro rfl
      exact hc (by decide)
    have hone : bareChars [c] 0 1 = [c] := by
      simp [bareChars, kept, unescapedAt_singleton_iff, hback.symm]
    have hsplit : bareChars (c :: word) 0 (c :: word).length =
        bareChars [c] 0 1 ++ bareChars word 0 word.length :=
      bareChars_append (closingBackslashes_singleton hback)
    rw [hsplit, hone, ih]
    rfl
  | @escape c word cs _ ih =>
    have heven : closingBackslashes ['\\', c] % 2 = 0 :=
      (Escaped.escape c .nil).closingBackslashes_mod
    have hfirst : kept ['\\', c] 0 = none := if_pos ⟨rfl, rfl⟩
    have hodd : ¬ closingBackslashes ['\\'] % 2 = 0 := by decide
    have hsecond : kept ['\\', c] 1 = some c := if_neg fun h => hodd h.2
    have htwo : bareChars ['\\', c] 0 2 = [c] := by
      simp [bareChars, List.range'_succ, hfirst, hsecond]
    have hsplit : bareChars ('\\' :: c :: word) 0 ('\\' :: c :: word).length =
        bareChars ['\\', c] 0 2 ++ bareChars word 0 word.length := bareChars_append heven
    rw [hsplit, htwo, ih]
    rfl

end

/-! ### Spans -/

structure Span where
  sign : Sign
  first : Nat
  /-- The place behind the last character. -/
  last : Nat
deriving DecidableEq, Repr

/-- Where lexemes begin; with none of them the text ends there. -/
def beginning (stop : Nat) : List Lexeme → Nat
  | [] => stop
  | l :: _ => l.offset

/-- Each lexeme reaches to where the next one begins, the last one to the end of the text. -/
def spans (stop : Nat) : List Lexeme → List Span
  | [] => []
  | l :: ls => ⟨l.sign, l.offset, beginning stop ls⟩ :: spans stop ls

namespace Span

def chars (text : List Char) (s : Span) : List Char := text.extract s.first s.last

/-- The spans lie end to end between two places, and none of them is empty. -/
def EndToEnd : Nat → List Span → Nat → Prop
  | first, [], last => first = last
  | first, s :: ss, last => s.first = first ∧ s.first < s.last ∧ EndToEnd s.last ss last

section

variable {first last k : Nat} {s : Span} {ss : List Span} {text : List Char}

theorem EndToEnd.le (h : EndToEnd first ss last) : first ≤ last := by
  induction ss generalizing first with
  | nil => exact Nat.le_of_eq h
  | cons s ss ih =>
    obtain ⟨rfl, hlt, hrest⟩ := h
    exact Nat.le_trans hlt.le (ih hrest)

theorem EndToEnd.le_first (h : EndToEnd first ss last) (hs : s ∈ ss) : first ≤ s.first := by
  induction ss generalizing first with
  | nil => cases hs
  | cons s' ss ih =>
    obtain ⟨rfl, hlt, hrest⟩ := h
    rcases List.mem_cons.1 hs with rfl | hs
    · exact Nat.le_refl _
    · exact Nat.le_trans hlt.le (ih hrest hs)

theorem EndToEnd.flatten_chars (h : EndToEnd first ss last) :
    (ss.map (chars text)).flatten = text.extract first last := by
  induction ss generalizing first with
  | nil =>
    cases h
    simp
  | cons s ss ih =>
    obtain ⟨rfl, hlt, hrest⟩ := h
    have hle := hrest.le
    have hadd : last - s.first = s.last - s.first + (last - s.last) := by omega
    have hdrop : s.first + (s.last - s.first) = s.last := Nat.add_sub_cancel' hlt.le
    rw [List.map_cons, List.flatten_cons, ih hrest, chars, List.extract, List.extract, List.extract,
      hadd, List.take_add, List.drop_drop, hdrop]

theorem EndToEnd.existsUnique_span (h : EndToEnd first ss last) (hfirst : first ≤ k)
    (hlast : k < last) : ∃! i : Nat, ∃ s : Span, ss[i]? = some s ∧ s.first ≤ k ∧ k < s.last := by
  induction ss generalizing first with
  | nil =>
    cases h
    omega
  | cons s ss ih =>
    obtain ⟨rfl, -, hrest⟩ := h
    by_cases hk : k < s.last
    · refine ⟨0, ⟨s, rfl, hfirst, hk⟩, ?_⟩
      rintro (_ | i) ⟨s', hs', hfirst', -⟩
      · rfl
      · have hle := hrest.le_first (List.mem_of_getElem? hs')
        omega
    · obtain ⟨i, ⟨s', hs', hin⟩, hunique⟩ := ih hrest (Nat.not_lt.1 hk)
      refine ⟨i + 1, ⟨s', hs', hin⟩, ?_⟩
      rintro (_ | j) ⟨s'', hs'', hin'⟩
      · cases hs''
        exact absurd hin'.2 hk
      · exact congrArg (· + 1) (hunique j ⟨s'', hs'', hin'⟩)

end

end Span

section

variable {o k : Nat} {c : Char} {sign : Sign} {text : List Char} {ls : List Lexeme} {s : Span}

theorem Lexes.beginning_eq (h : Lexes o text ls) : beginning (o + text.length) ls = o := by
  cases h <;> rfl

theorem Lexes.endToEnd (h : Lexes o text ls) :
    Span.EndToEnd o (spans (o + text.length) ls) (o + text.length) := by
  induction h using Lexes.induction_on_words with
  | nil o => rfl
  | @cons o sign word rest ls hword _ h ih =>
    have hlast := h.beginning_eq
    rw [Nat.add_assoc, ← List.length_append] at hlast ih
    have hpos := List.length_pos_iff.2 hword.ne_nil
    refine ⟨rfl, ?_, ?_⟩
    · show o < beginning _ ls
      omega
    · show Span.EndToEnd (beginning _ ls) _ _
      rwa [hlast]

/-- What stands in a span is written for its sign, and nothing in front of it escapes it. -/
theorem Lexes.exists_of_mem_spans (h : Lexes 0 text ls) (hs : s ∈ spans text.length ls) :
    ∃ front word rest, text = front ++ (word ++ rest) ∧ closingBackslashes front % 2 = 0 ∧
      s.sign.IsSpelled word ∧ s.first = front.length ∧ s.last = front.length + word.length := by
  -- generalized over what has been passed already
  suffices hpast : ∀ {o text ls}, Lexes o text ls → ∀ past, past.length = o →
      closingBackslashes past % 2 = 0 → s ∈ spans (o + text.length) ls →
      ∃ front word rest, past ++ text = front ++ (word ++ rest) ∧
        closingBackslashes front % 2 = 0 ∧ s.sign.IsSpelled word ∧ s.first = front.length ∧
        s.last = front.length + word.length from
    hpast h [] rfl rfl (by rwa [Nat.zero_add])
  intro o text ls h
  induction h using Lexes.induction_on_words with
  | nil o => exact fun _ _ _ hs => absurd hs List.not_mem_nil
  | @cons o sign word rest ls hword _ h ih =>
    intro past hpast heven hs
    have hlast := h.beginning_eq
    rw [Nat.add_assoc, ← List.length_append] at hlast ih
    rcases List.mem_cons.1 hs with rfl | hs
    · exact ⟨past, word, rest, rfl, heven, hword, hpast.symm, by rw [hlast, hpast]⟩
    · rw [← List.append_assoc]
      refine ih (past ++ word) (by rw [List.length_append, hpast]) ?_ hs
      rw [closingBackslashes_append_mod heven, hword.closingBackslashes_mod]

theorem Lexes.le_offset {l : Lexeme} (h : Lexes o text ls) (hl : l ∈ ls) : o ≤ l.offset := by
  induction h using Lexes.induction_on_words with
  | nil o => cases hl
  | cons _ _ _ ih =>
    rcases List.mem_cons.1 hl with rfl | hl
    · exact Nat.le_refl _
    · exact Nat.le_trans (Nat.le_add_right _ _) (ih hl)

/-- Delimiters are lexemes of their own just where they are not escaped. -/
theorem Lexes.mem_iff (h : Lexes o text ls) (hc : sign.delimiter? = some c) :
    ⟨sign, o + k⟩ ∈ ls ↔ UnescapedAt text c k := by
  induction h using Lexes.induction_on_words generalizing k with
  | nil o =>
    refine iff_of_false List.not_mem_nil ?_
    rintro ⟨hget, -⟩
    cases hget
  | @cons o sign' word rest ls hword _ h ih =>
    rw [List.mem_cons, Lexeme.mk.injEq]
    by_cases hk : k < word.length
    · rw [unescapedAt_append_left hk, hword.unescapedAt_iff hc]
      have hlater : ⟨sign, o + k⟩ ∉ ls := fun hmem => by
        have hle : o + word.length ≤ o + k := h.le_offset hmem
        omega
      rw [or_iff_left hlater, Nat.add_eq_left, and_comm]
    · obtain ⟨j, rfl⟩ := Nat.exists_eq_add_of_le (Nat.not_lt.1 hk)
      have hpos := List.length_pos_iff.2 hword.ne_nil
      rw [unescapedAt_append_right hword.closingBackslashes_mod, ← ih, ← Nat.add_assoc]
      refine or_iff_right ?_
      rintro ⟨-, hoffset⟩
      omega

theorem Lexes.isChain (h : Lexes o text ls) :
    ls.IsChain fun l m => l.sign.kind = .name → m.sign.kind ≠ .name := by
  induction h using Lexes.induction_on_words with
  | nil o => exact .nil
  | cons _ hends _ ih => exact List.isChain_cons.2 ⟨fun m hm hname => hends hname m hm, ih⟩

theorem EndsName.congr {ls' : List Lexeme} (h : EndsName ls)
    (hsigns : ls'.map (·.sign) = ls.map (·.sign)) : EndsName ls' := by
  intro l hl
  have hhead : (ls'.map (·.sign)).head? = some l.sign := by rw [List.head?_map, hl]; rfl
  rw [hsigns, List.head?_map] at hhead
  obtain ⟨m, hm, heq⟩ := Option.map_eq_some_iff.1 hhead
  rw [← heq]
  exact h m hm

theorem Lexes.exists_written (h : Lexes o text ls) (o' : Nat) :
    ∃ ls', Lexes o' (ls.flatMap (·.sign.written)) ls' ∧ ls'.map (·.sign) = ls.map (·.sign) := by
  induction h using Lexes.induction_on_words generalizing o' with
  | nil o => exact ⟨[], .nil o', rfl⟩
  | @cons o sign word rest ls hword hends _ ih =>
    obtain ⟨ls', hls', hsigns⟩ := ih (o' + sign.written.length)
    refine ⟨⟨sign, o'⟩ :: ls', ?_, congrArg (sign :: ·) hsigns⟩
    exact .cons (Sign.isSpelled_written hword) (fun hname => (hends hname).congr hsigns) hls'

end

/-- How lexemes cut a text into their spans. -/
structure Tiles (text : List Char) (ls : List Lexeme) : Prop where
  flatten_spans : ((spans text.length ls).map (Span.chars text)).flatten = text
  /-- There is no gap, and no overlap. -/
  existsUnique_span : ∀ k < text.length, ∃! i : Nat, ∃ s : Span,
    (spans text.length ls)[i]? = some s ∧ s.first ≤ k ∧ k < s.last
  delimiter_alone : ∀ s ∈ spans text.length ls, ∀ c, s.sign.delimiter? = some c →
    s.chars text = [c] ∧ UnescapedAt text c s.first
  /-- No unescaped delimiter is left to a name. -/
  mem_of_unescapedAt : ∀ sign c k, sign.delimiter? = some c → UnescapedAt text c k → ⟨sign, k⟩ ∈ ls
  name_bare : ∀ s ∈ spans text.length ls, ∀ cs, s.sign = .name cs →
    cs ≠ [] ∧ bareChars text s.first s.last = cs
  names_apart : ls.IsChain fun l m => l.sign.kind = .name → m.sign.kind ≠ .name

theorem Lexes.tiles {text : List Char} {ls : List Lexeme} (h : Lexes 0 text ls) :
    Tiles text ls := by
  have hends := h.endToEnd
  rw [Nat.zero_add] at hends
  refine ⟨?_, fun k hk => hends.existsUnique_span (Nat.zero_le k) hk, fun s hs c hc => ?_,
    fun sign c k hc hk => ?_, fun s hs cs hsign => ?_, h.isChain⟩
  · rw [hends.flatten_chars]
    simp
  · obtain ⟨front, word, rest, rfl, heven, hword, hfirst, hlast⟩ := h.exists_of_mem_spans hs
    obtain rfl := Sign.isSpelled_of_delimiter? hc hword
    rw [Span.chars, hfirst, hlast]
    exact ⟨by simp, by simp, by simpa using heven⟩
  · have hmem := (h.mem_iff hc).2 hk
    rwa [Nat.zero_add] at hmem
  · obtain ⟨front, word, rest, rfl, heven, hword, hfirst, hlast⟩ := h.exists_of_mem_spans hs
    rw [hsign] at hword
    rw [hfirst, hlast, bareChars_append_right heven, bareChars_append_left (Nat.le_refl _)]
    exact ⟨hword.2, hword.1.bareChars_eq⟩

/-- A text that does not end in the middle of an escape is cut into lexemes, and written down with
the names escaped they are read as lexemes with the same signs. -/
theorem scan_tiles_text {text : String} (h : closingBackslashes text.toList % 2 = 0) :
    ∃ ls, scan text = .ok ls ∧ Tiles text.toList ls ∧
      ∃ ls', scan (String.ofList (ls.flatMap (·.sign.written))) = .ok ls' ∧
        ls'.map (·.sign) = ls.map (·.sign) := by
  obtain ⟨ls, hls⟩ := exists_lexes_iff.2 h
  obtain ⟨ls', hls', hsigns⟩ := hls.exists_written 0
  refine ⟨ls, scanFrom_of_lexes hls, hls.tiles, ls', ?_, hsigns⟩
  rw [scan, String.toList_ofList]
  exact scanFrom_of_lexes hls'

/-- Escapes at the beginning and in the middle of names, one of them superfluous, and one at the end
of the text. -/
theorem scan_tiles_text_of_escapes :
    let text := "ä\\.\\b.\\@c**\\\\"
    let ls : List Lexeme := [⟨.name "ä.b".toList, 0⟩, ⟨.dot, 5⟩, ⟨.name "@c".toList, 6⟩, ⟨.star, 9⟩,
      ⟨.star, 10⟩, ⟨.name "\\".toList, 11⟩]
    closingBackslashes text.toList = 2 ∧ scan text = .ok ls ∧ Tiles text.toList ls ∧
      ∃ ls', scan "ä\\.b.\\@c**\\\\" = .ok ls' ∧ ls'.map (·.sign) = ls.map (·.sign) := by
  intro text ls
  have hclosing : closingBackslashes text.toList = 2 := by decide
  have heven : closingBackslashes text.toList % 2 = 0 := by rw [hclosing]
  have hscan : scan text = .ok ls := by decide +kernel
  have hwritten : String.ofList (ls.flatMap (·.sign.written)) = "ä\\.b.\\@c**\\\\" := by decide
  obtain ⟨ls', hls', htiles, hagain⟩ := scan_tiles_text heven
  cases hscan.symm.trans hls'
  rw [hwritten] at hagain
  exact ⟨hclosing, hscan, htiles, hagain⟩

end JsonWalk.Pattern
