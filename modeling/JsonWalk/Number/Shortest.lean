import JsonWalk.Number.Binary64

/-!
# Shortest decimals

The decimal with the fewest digits among those that round to a given number, and of these the one
nearest to it. Grids of one to seventeen digits are tried in turn; on each grid only the two
neighbours of the number can be nearest.
-/

namespace JsonWalk.Binary64

/-- The decimal `digits * 10 ^ exponent`. -/
structure Decimal where
  digits : Nat
  exponent : Int
deriving DecidableEq, Repr

/-- The reals that round to a positive number lie between `low` and `high` quarters of its last
bit, the number itself being `4 * mantissa` quarters. -/
def quarters (x : Binary64) : Nat × Nat :=
  let low := if x.mantissa = fullMantissa ∧ minExponent < x.exponent then 1 else 2
  (4 * x.mantissa - low, 4 * x.mantissa + 2)

def decade (num den : Nat) : Int :=
  let e : Int := (Nat.toDigits 10 num).length - (Nat.toDigits 10 den).length
  if den * tenTo e ≤ num * tenTo (-e) then e else e - 1

/-- The nearer neighbour on the grid of multiples of `10 ^ p` that rounds to `x`. -/
def nearestOnGrid (x : Binary64) (p : Int) : Option Decimal :=
  let q := x.exponent - 2
  -- one quarter is `quarter / unit` steps of the grid
  let quarter := twoTo q * tenTo (-p)
  let unit := twoTo (-q) * tenTo p
  let (low, high) := x.quarters
  let value := 4 * x.mantissa * quarter
  let reads (c : Nat) : Bool :=
    if x.mantissa % 2 = 0 then low * quarter ≤ c * unit ∧ c * unit ≤ high * quarter
    else low * quarter < c * unit ∧ c * unit < high * quarter
  let below := value / unit
  let above := below + 1
  match reads below, reads above with
  | false, false => none
  | true, false => some ⟨below, p⟩
  | false, true => some ⟨above, p⟩
  | true, true =>
    let down := value - below * unit
    let up := above * unit - value
    if down < up ∨ (down = up ∧ below % 2 = 0) then some ⟨below, p⟩ else some ⟨above, p⟩

def firstGrid (x : Binary64) : (grids : Nat) → (p : Int) → Decimal
  | 0, p => ⟨0, p⟩
  | grids + 1, p => (x.nearestOnGrid p).getD (firstGrid x grids (p - 1))

def shortest (x : Binary64) : Decimal :=
  let num := x.mantissa * twoTo x.exponent
  let den := twoTo (-x.exponent)
  firstGrid x 17 (decade num den)

end JsonWalk.Binary64
