/-!
# Floating point numbers of sixty-four bits

A finite number is a sign, a mantissa of at most fifty-three bits and a power of two. A quotient is
rounded to the nearest such number, half way to the one with the even mantissa; what rounds beyond
the largest has no image.
-/

namespace JsonWalk

/-- The number `± mantissa * 2 ^ exponent`. Of its writings the one with the least exponent is kept,
no less than `minExponent`. -/
structure Binary64 where
  negative : Bool
  mantissa : Nat
  exponent : Int
deriving DecidableEq, Repr, Inhabited

namespace Binary64

def minExponent : Int := -1074
def maxExponent : Int := 971

def mantissaBound : Nat := Nat.pow 2 53

def fullMantissa : Nat := Nat.pow 2 52

/-- A power of two; negative exponents count as zero. -/
def twoTo (e : Int) : Nat := Nat.pow 2 e.toNat

def tenTo (e : Int) : Nat := Nat.pow 10 e.toNat

def zero (negative : Bool) : Binary64 := ⟨negative, 0, minExponent⟩

/-- The natural number nearest to `num / den`, the even one at half way. -/
def roundDiv (num den : Nat) : Nat :=
  let q := num / den
  let r := num % den
  if 2 * r < den ∨ (2 * r = den ∧ q % 2 = 0) then q else q + 1

/-- The numerator and denominator of `num / den * 2 ^ (-e)`. -/
def scale (num den : Nat) (e : Int) : Nat × Nat :=
  (num * twoTo (-e), den * twoTo e)

/-- The exponent that leaves `num / den` fifty-three bits before the point, or the least one. -/
def exponentFor (num den : Nat) : Int :=
  let e : Int := (num.log2 : Int) - den.log2 - 53
  let (n, d) := scale num den e
  max minExponent (if n < d * mantissaBound then e else e + 1)

/-- The number nearest to `num / den`, as if there were no largest one. -/
def nearest (negative : Bool) (num den : Nat) : Binary64 :=
  if num = 0 then zero negative
  else
    let e := exponentFor num den
    let (n, d) := scale num den e
    let m := roundDiv n d
    if m = mantissaBound then ⟨negative, fullMantissa, e + 1⟩ else ⟨negative, m, e⟩

def ofQuotient (negative : Bool) (num den : Nat) : Option Binary64 :=
  let x := nearest negative num den
  if maxExponent < x.exponent then none else some x

/-- The magnitude is `num / den`. -/
def num (x : Binary64) : Nat := x.mantissa * twoTo x.exponent

def den (x : Binary64) : Nat := twoTo (-x.exponent)

def mul (x y : Binary64) : Option Binary64 :=
  ofQuotient (x.negative != y.negative) (x.num * y.num) (x.den * y.den)

/-- Divides by a number whose magnitude is one at least. -/
def div (x y : Binary64) : Binary64 :=
  nearest (x.negative != y.negative) (x.num * y.den) (x.den * y.num)

/-- The greatest power of ten in range is the one with this exponent. -/
def maxPower : Nat := 308

def powerOfTen (k : Nat) : Binary64 := nearest false (Nat.pow 10 k) 1

/-- `x * 10 ^ e`. One product or quotient is rounded, unless the power is out of range: then it is
too much, or divided by in several steps. -/
def timesTenTo (x : Binary64) (e : Int) : Option Binary64 :=
  if e.natAbs ≤ maxPower then
    if 0 ≤ e then x.mul (powerOfTen e.natAbs) else some (x.div (powerOfTen e.natAbs))
  else if x.mantissa = 0 then some x
  else if 0 ≤ e then none
  else (x.div (powerOfTen maxPower)).timesTenTo (e + maxPower)
termination_by e.natAbs
decreasing_by simp only [maxPower] at *; omega

end Binary64
end JsonWalk
