import JsonWalk.Value

/-!
# Equality of values

Whether two values are the same can be decided.
-/

namespace JsonWalk.Value

mutual

def same : Value → Value → Bool
  | .null, .null => true
  | .bool a, .bool b => a == b
  | .number m, .number n => m == n
  | .string s, .string t => s == t
  | .array vs, .array ws => sameItems vs ws
  | .object ms, .object ns => sameMembers ms ns
  | _, _ => false

def sameItems : List Value → List Value → Bool
  | [], [] => true
  | v :: vs, w :: ws => same v w && sameItems vs ws
  | _, _ => false

def sameMembers : List (String × Value) → List (String × Value) → Bool
  | [], [] => true
  | (m, v) :: vs, (n, w) :: ws => m == n && same v w && sameMembers vs ws
  | _, _ => false

end

mutual

theorem same_iff_eq : ∀ v w : Value, same v w = true ↔ v = w
  | v, w => by
    cases v <;> cases w <;> simp [same]
    case array.array vs ws => exact sameItems_iff_eq vs ws
    case object.object vs ws => exact sameMembers_iff_eq vs ws

theorem sameItems_iff_eq : ∀ vs ws : List Value, sameItems vs ws = true ↔ vs = ws
  | [], ws => by cases ws <;> simp [sameItems]
  | v :: vs, ws => by
    cases ws with
    | nil => simp [sameItems]
    | cons w ws => simp [sameItems, same_iff_eq v w, sameItems_iff_eq vs ws]

theorem sameMembers_iff_eq :
    ∀ vs ws : List (String × Value), sameMembers vs ws = true ↔ vs = ws
  | [], ws => by cases ws <;> simp [sameMembers]
  | (m, v) :: vs, ws => by
    cases ws with
    | nil => simp [sameMembers]
    | cons w ws =>
      obtain ⟨n, w⟩ := w
      simp [sameMembers, same_iff_eq v w, sameMembers_iff_eq vs ws, and_assoc]

end

instance : DecidableEq Value := fun v w => decidable_of_iff _ (same_iff_eq v w)

end JsonWalk.Value
