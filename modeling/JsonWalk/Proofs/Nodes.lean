import JsonWalk.Proofs.Documents
import JsonWalk.Query
import Mathlib.Data.List.Nodup

/-!
# The nodes of a document

A document holds a value at each of its paths. `nodes` lists them in the order in which a walk
leaves them, and holds every path that leads to a value exactly once.
-/

namespace JsonWalk

namespace Value

def at? : Path → Value → Option Value
  | [], v => some v
  | .index i :: rest, .array items => items[i]?.bind (at? rest)
  | .member name :: rest, .object members => (members.lookup name).bind (at? rest)
  | _ :: _, _ => none

mutual

/-- The values of a document with their paths: what is inside a value comes before it, members in
their order and elements by position. -/
def nodes (path : Path) : Value → List Hit
  | .null => [⟨path, .null⟩]
  | .bool b => [⟨path, .bool b⟩]
  | .number n => [⟨path, .number n⟩]
  | .string s => [⟨path, .string s⟩]
  | .array items => itemNodes path 0 items ++ [⟨path, .array items⟩]
  | .object members => memberNodes path members ++ [⟨path, .object members⟩]

def itemNodes (path : Path) (position : Nat) : List Value → List Hit
  | [] => []
  | v :: rest => nodes (path ++ [.index position]) v ++ itemNodes path (position + 1) rest

def memberNodes (path : Path) : List (String × Value) → List Hit
  | [] => []
  | (name, v) :: rest => nodes (path ++ [.member name]) v ++ memberNodes path rest

end

/-! ### Values by path -/

@[simp] theorem at?_nil (v : Value) : v.at? [] = some v := by
  cases v <;> rfl

theorem at?_array (i : Nat) (rest : Path) (items : List Value) :
    (Value.array items).at? (.index i :: rest) = items[i]?.bind (at? rest) := rfl

theorem at?_object (name : String) (rest : Path) (members : List (String × Value)) :
    (Value.object members).at? (.member name :: rest) = (members.lookup name).bind (at? rest) :=
  rfl

theorem at?_cons_of_scalar {v : Value} (hv : v.kind.isContainer = false) (s : Segment)
    (rest : Path) : v.at? (s :: rest) = none := by
  cases v with
  | array => cases hv
  | object => cases hv
  | _ => cases s <;> rfl

end Value

/-! ### Paths of siblings -/

theorem Path.not_prefix_of_step_ne {path p q : Path} {s t : Segment} (h : s ≠ t)
    (hp : path ++ [s] <+: p) (hq : path ++ [t] <+: q) : ¬ p <+: q := by
  intro hpq
  have hlength : (path ++ [s]).length = (path ++ [t]).length := by simp
  have heq : path ++ [s] = path ++ [t] :=
    (List.prefix_of_prefix_length_le (hp.trans hpq) hq (Nat.le_of_eq hlength)).eq_of_length hlength
  exact h (by simpa using heq)

theorem Path.not_prefix_of_step {path p : Path} {s : Segment} (h : path ++ [s] <+: p) :
    ¬ p <+: path := by
  intro hp
  have hlength := (h.trans hp).length_le
  rw [List.length_append, List.length_singleton] at hlength
  omega

namespace Value

/-! ### Every value once -/

theorem prefix_of_step {path p : Path} {s : Segment} {rest : Path} (h : p = path ++ s :: rest) :
    path ++ [s] <+: p :=
  ⟨rest, by simp [h]⟩

theorem lookup_cons_of_ne {members : List (String × Value)} {name name' : String} {v : Value}
    (h : name ≠ name') : ((name', v) :: members).lookup name = members.lookup name := by
  rw [List.lookup_cons, beq_false_of_ne h]

theorem mem_names_of_lookup {members : List (String × Value)} {name : String} {v : Value}
    (h : members.lookup name = some v) : name ∈ members.map Prod.fst := by
  induction members with
  | nil => cases h
  | cons m rest ih =>
    obtain ⟨name', v'⟩ := m
    by_cases hname : name = name'
    · exact List.mem_cons.2 (.inl hname)
    · rw [lookup_cons_of_ne hname] at h
      exact List.mem_cons_of_mem _ (ih h)

theorem mem_names_of_at? {members : List (String × Value)} {name : String} {rest : Path}
    {w : Value} (h : (Value.object members).at? (.member name :: rest) = some w) :
    name ∈ members.map Prod.fst := by
  obtain ⟨v, hv, -⟩ := Option.bind_eq_some_iff.1 h
  exact mem_names_of_lookup hv

theorem mem_append_self_iff {v w : Value} {p path : Path} {inner : List Hit}
    (h : ⟨p, w⟩ ∈ inner ↔
      ∃ step rest, p = path ++ step :: rest ∧ v.at? (step :: rest) = some w) :
    ⟨p, w⟩ ∈ inner ++ [⟨path, v⟩] ↔ ∃ rest, p = path ++ rest ∧ v.at? rest = some w := by
  rw [List.mem_append, h, List.mem_singleton]
  constructor
  · rintro (⟨step, q, hp, hq⟩ | hself)
    · exact ⟨step :: q, hp, hq⟩
    · cases hself
      exact ⟨[], (List.append_nil _).symm, at?_nil _⟩
  · rintro ⟨_ | ⟨step, q⟩, hp, hq⟩
    · rw [at?_nil] at hq
      cases hq
      exact .inr (by rw [hp, List.append_nil])
    · exact .inl ⟨step, q, hp, hq⟩

theorem mem_nodes_of_scalar {v w : Value} {p path : Path} (hv : v.kind.isContainer = false) :
    ⟨p, w⟩ ∈ [(⟨path, v⟩ : Hit)] ↔ ∃ rest, p = path ++ rest ∧ v.at? rest = some w := by
  have hinner : (⟨p, w⟩ : Hit) ∈ ([] : List Hit) ↔
      ∃ step rest, p = path ++ step :: rest ∧ v.at? (step :: rest) = some w := by
    simp [at?_cons_of_scalar hv]
  exact mem_append_self_iff hinner

mutual

/-- The nodes of a document are its values with their paths. -/
theorem mem_nodes_iff {w : Value} {p path : Path} : ∀ {v : Value}, v.DistinctNames →
    (⟨p, w⟩ ∈ v.nodes path ↔ ∃ rest, p = path ++ rest ∧ v.at? rest = some w)
  | .null, _ | .bool _, _ | .number _, _ | .string _, _ => mem_nodes_of_scalar rfl
  | .array items, hv => by
    rw [DistinctNames] at hv
    apply mem_append_self_iff
    rw [mem_itemNodes_iff hv]
    constructor
    · rintro ⟨i, q, hp, h⟩
      exact ⟨.index i, q, by rw [hp, Nat.zero_add], h⟩
    · rintro ⟨_ | i, q, hp, h⟩
      · cases h
      · exact ⟨i, q, by rw [hp, Nat.zero_add], h⟩
  | .object members, hv => by
    rw [DistinctNames] at hv
    apply mem_append_self_iff
    rw [mem_memberNodes_iff hv.1 hv.2]
    constructor
    · rintro ⟨name, q, hp, h⟩
      exact ⟨.member name, q, hp, h⟩
    · rintro ⟨name | _, q, hp, h⟩
      · exact ⟨name, q, hp, h⟩
      · cases h

theorem mem_itemNodes_iff {w : Value} {p path : Path} {position : Nat} :
    ∀ {items : List Value}, ItemsDistinct items →
      (⟨p, w⟩ ∈ itemNodes path position items ↔
        ∃ i rest, p = path ++ .index (position + i) :: rest ∧
          (Value.array items).at? (.index i :: rest) = some w)
  | [], _ => by simp [itemNodes, at?_array]
  | v :: rest, hv => by
    rw [ItemsDistinct] at hv
    rw [itemNodes, List.mem_append, mem_nodes_iff hv.1, mem_itemNodes_iff hv.2]
    constructor
    · rintro (⟨q, rfl, h⟩ | ⟨i, q, rfl, h⟩)
      · exact ⟨0, q, by simp, h⟩
      · exact ⟨i + 1, q, by rw [Nat.add_right_comm, Nat.add_assoc], h⟩
    · rintro ⟨_ | i, q, rfl, h⟩
      · exact .inl ⟨q, by simp, h⟩
      · exact .inr ⟨i, q, by rw [Nat.add_right_comm, Nat.add_assoc], h⟩

theorem mem_memberNodes_iff {w : Value} {p path : Path} :
    ∀ {members : List (String × Value)}, (members.map Prod.fst).Nodup → MembersDistinct members →
      (⟨p, w⟩ ∈ memberNodes path members ↔
        ∃ name rest, p = path ++ .member name :: rest ∧
          (Value.object members).at? (.member name :: rest) = some w)
  | [], _, _ => by simp [memberNodes, at?_object]
  | (name, v) :: rest, hn, hv => by
    rw [MembersDistinct] at hv
    rw [List.map_cons, List.nodup_cons] at hn
    rw [memberNodes, List.mem_append, mem_nodes_iff hv.1, mem_memberNodes_iff hn.2 hv.2]
    constructor
    · rintro (⟨q, rfl, h⟩ | ⟨name', q, rfl, h⟩)
      · exact ⟨name, q, by simp, by simpa [at?_object] using h⟩
      · have hne : name' ≠ name := fun heq => hn.1 (heq ▸ mem_names_of_at? h)
        exact ⟨name', q, rfl, by rwa [at?_object, lookup_cons_of_ne hne]⟩
    · rintro ⟨name', q, rfl, h⟩
      by_cases hne : name' = name
      · subst hne
        exact .inl ⟨q, by simp, by simpa [at?_object] using h⟩
      · exact .inr ⟨name', q, rfl, by rwa [at?_object, lookup_cons_of_ne hne] at h⟩

end

mutual

/-- No value is listed before one that it is inside of, or twice. -/
theorem pairwise_nodes (path : Path) : ∀ {v : Value}, v.DistinctNames →
    (v.nodes path).Pairwise fun h h' => ¬ h.path <+: h'.path
  | .null, _ | .bool _, _ | .number _, _ | .string _, _ => List.pairwise_singleton _ _
  | .array items, hv => by
    rw [DistinctNames] at hv
    rw [nodes, List.pairwise_append]
    refine ⟨pairwise_itemNodes path 0 hv, List.pairwise_singleton _ _, fun h hmem h' hself => ?_⟩
    obtain ⟨i, q, hp, -⟩ := (mem_itemNodes_iff hv).1 hmem
    rw [List.mem_singleton.1 hself]
    exact Path.not_prefix_of_step (prefix_of_step hp)
  | .object members, hv => by
    rw [DistinctNames] at hv
    rw [nodes, List.pairwise_append]
    refine ⟨pairwise_memberNodes path hv.1 hv.2, List.pairwise_singleton _ _,
      fun h hmem h' hself => ?_⟩
    obtain ⟨name, q, hp, -⟩ := (mem_memberNodes_iff hv.1 hv.2).1 hmem
    rw [List.mem_singleton.1 hself]
    exact Path.not_prefix_of_step (prefix_of_step hp)

theorem pairwise_itemNodes (path : Path) (position : Nat) :
    ∀ {items : List Value}, ItemsDistinct items →
      (itemNodes path position items).Pairwise fun h h' => ¬ h.path <+: h'.path
  | [], _ => .nil
  | v :: rest, hv => by
    rw [ItemsDistinct] at hv
    rw [itemNodes, List.pairwise_append]
    refine ⟨pairwise_nodes _ hv.1, pairwise_itemNodes path (position + 1) hv.2,
      fun h hfirst h' hrest => ?_⟩
    obtain ⟨q, hp, -⟩ := (mem_nodes_iff hv.1).1 hfirst
    obtain ⟨i, q', hp', -⟩ := (mem_itemNodes_iff hv.2).1 hrest
    have hne : Segment.index position ≠ .index (position + 1 + i) := by
      rw [ne_eq, Segment.index.injEq]
      omega
    exact Path.not_prefix_of_step_ne hne ⟨q, hp.symm⟩ (prefix_of_step hp')

theorem pairwise_memberNodes (path : Path) :
    ∀ {members : List (String × Value)}, (members.map Prod.fst).Nodup → MembersDistinct members →
      (memberNodes path members).Pairwise fun h h' => ¬ h.path <+: h'.path
  | [], _, _ => .nil
  | (name, v) :: rest, hn, hv => by
    rw [MembersDistinct] at hv
    rw [List.map_cons, List.nodup_cons] at hn
    rw [memberNodes, List.pairwise_append]
    refine ⟨pairwise_nodes _ hv.1, pairwise_memberNodes path hn.2 hv.2,
      fun h hfirst h' hrest => ?_⟩
    obtain ⟨q, hp, -⟩ := (mem_nodes_iff hv.1).1 hfirst
    obtain ⟨name', q', hp', hname⟩ := (mem_memberNodes_iff hn.2 hv.2).1 hrest
    have hne : Segment.member name ≠ .member name' := by
      rintro ⟨⟩
      exact hn.1 (mem_names_of_at? hname)
    exact Path.not_prefix_of_step_ne hne ⟨q, hp.symm⟩ (prefix_of_step hp')

end

end Value
end JsonWalk
