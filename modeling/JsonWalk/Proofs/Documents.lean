import JsonWalk.Token

/-!
# Names, nesting and tokens of documents

Objects whose member names repeat are values, but no walk over text or tokens builds one. The
nesting of a document counts the arrays and objects around its deepest node.
-/

namespace JsonWalk.Value

mutual

/-- No object repeats a member name. -/
def DistinctNames : Value → Prop
  | .null | .bool _ | .number _ | .string _ => True
  | .array items => ItemsDistinct items
  | .object members => (members.map Prod.fst).Nodup ∧ MembersDistinct members

def ItemsDistinct : List Value → Prop
  | [] => True
  | v :: rest => DistinctNames v ∧ ItemsDistinct rest

def MembersDistinct : List (String × Value) → Prop
  | [] => True
  | (_, v) :: rest => DistinctNames v ∧ MembersDistinct rest

end

mutual

/-- How many arrays and objects are open at the deepest place. -/
def nesting : Value → Nat
  | .null | .bool _ | .number _ | .string _ => 0
  | .array items => itemsNesting items + 1
  | .object members => membersNesting members + 1

def itemsNesting : List Value → Nat
  | [] => 0
  | v :: rest => max (nesting v) (itemsNesting rest)

def membersNesting : List (String × Value) → Nat
  | [] => 0
  | (_, v) :: rest => max (nesting v) (membersNesting rest)

end

theorem add_nesting_array (depth : Nat) (items : List Value) :
    depth + (Value.array items).nesting = depth + 1 + itemsNesting items := by
  rw [nesting]
  omega

theorem add_nesting_object (depth : Nat) (members : List (String × Value)) :
    depth + (Value.object members).nesting = depth + 1 + membersNesting members := by
  rw [nesting]
  omega

theorem kind_ne_member (v : Value) : v.kind ≠ .member := by
  cases v <;> exact nofun

theorem itemTokens_append (vs ws : List Value) :
    itemTokens (vs ++ ws) = itemTokens vs ++ itemTokens ws := by
  induction vs with
  | nil => rfl
  | cons v vs ih => simp only [List.cons_append, itemTokens, ih, List.append_assoc]

theorem memberTokens_append (vs ws : List (String × Value)) :
    memberTokens (vs ++ ws) = memberTokens vs ++ memberTokens ws := by
  induction vs with
  | nil => rfl
  | cons v vs ih =>
    obtain ⟨name, v⟩ := v
    simp only [List.cons_append, memberTokens, ih, List.append_assoc]

theorem itemTokens_cons_append (v : Value) (items : List Value) (ts : List Token) :
    itemTokens (v :: items) ++ ts = v.tokens ++ (itemTokens items ++ ts) :=
  List.append_assoc ..

theorem memberTokens_cons_append (name : String) (v : Value) (members : List (String × Value))
    (ts : List Token) :
    memberTokens ((name, v) :: members) ++ ts =
      .name name :: (v.tokens ++ (memberTokens members ++ ts)) :=
  congrArg _ (List.append_assoc ..)

theorem itemsDistinct_append {vs ws : List Value} :
    ItemsDistinct (vs ++ ws) ↔ ItemsDistinct vs ∧ ItemsDistinct ws := by
  induction vs with
  | nil => simp [ItemsDistinct]
  | cons v vs ih => simp only [List.cons_append, ItemsDistinct, ih, and_assoc]

theorem membersDistinct_append {vs ws : List (String × Value)} :
    MembersDistinct (vs ++ ws) ↔ MembersDistinct vs ∧ MembersDistinct ws := by
  induction vs with
  | nil => simp [MembersDistinct]
  | cons v vs ih =>
    obtain ⟨name, v⟩ := v
    simp only [List.cons_append, MembersDistinct, ih, and_assoc]

mutual

theorem endOfInput_notMem_tokens : ∀ v : Value, Token.endOfInput ∉ v.tokens
  | .null | .bool _ | .number _ | .string _ => by simp [tokens]
  | .array items => by simpa [tokens] using endOfInput_notMem_itemTokens items
  | .object members => by simpa [tokens] using endOfInput_notMem_memberTokens members

theorem endOfInput_notMem_itemTokens : ∀ items : List Value, Token.endOfInput ∉ itemTokens items
  | [] => by simp [itemTokens]
  | v :: rest => by
    simpa [itemTokens] using ⟨endOfInput_notMem_tokens v, endOfInput_notMem_itemTokens rest⟩

theorem endOfInput_notMem_memberTokens :
    ∀ members : List (String × Value), Token.endOfInput ∉ memberTokens members
  | [] => by simp [memberTokens]
  | (name, v) :: rest => by
    simpa [memberTokens] using ⟨endOfInput_notMem_tokens v, endOfInput_notMem_memberTokens rest⟩

end

mutual

/-- Every array and object around the deepest node has a token of its own. -/
theorem nesting_le_length_tokens : ∀ v : Value, v.nesting ≤ v.tokens.length
  | .null | .bool _ | .number _ | .string _ => Nat.zero_le _
  | .array items => by
    have := itemsNesting_le_length_itemTokens items
    simp only [nesting, tokens, List.length_cons, List.length_append, List.length_nil]
    omega
  | .object members => by
    have := membersNesting_le_length_memberTokens members
    simp only [nesting, tokens, List.length_cons, List.length_append, List.length_nil]
    omega

theorem itemsNesting_le_length_itemTokens :
    ∀ items : List Value, itemsNesting items ≤ (itemTokens items).length
  | [] => Nat.zero_le _
  | v :: rest => by
    have := nesting_le_length_tokens v
    have := itemsNesting_le_length_itemTokens rest
    simp only [itemsNesting, itemTokens, List.length_append]
    omega

theorem membersNesting_le_length_memberTokens :
    ∀ members : List (String × Value), membersNesting members ≤ (memberTokens members).length
  | [] => Nat.zero_le _
  | (name, v) :: rest => by
    have := nesting_le_length_tokens v
    have := membersNesting_le_length_memberTokens rest
    simp only [membersNesting, memberTokens, List.length_cons, List.length_append]
    omega

end

end JsonWalk.Value
