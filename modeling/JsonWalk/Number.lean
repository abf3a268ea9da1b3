import JsonWalk.Text.Decimal
import JsonWalk.Number.Shortest

/-!
# JSON numbers

A literal without fraction and exponent is an integer where sixty-four bits hold it, with or without
sign; any other literal, and minus zero, is a floating point number. Integers are written by their
digits, floating point numbers by their shortest decimal.
-/

namespace JsonWalk

inductive Number where
  | int (n : Int)
  | float (x : Binary64)
deriving DecidableEq, Repr, Inhabited

/-- A number as it is written: a whole part, a fraction and an exponent of ten. -/
structure Numeral where
  negative : Bool
  whole : List Char
  fraction : Option (List Char)
  exponent : Option (Bool × List Char)
deriving DecidableEq, Repr

namespace Numeral

def isWhole : List Char → Bool
  | [] => false
  | '0' :: rest => rest.isEmpty
  | _ => true

def readFraction : List Char → Option (Option (List Char) × List Char)
  | '.' :: rest =>
    let (ds, rest) := rest.span Char.isDigit
    if ds.isEmpty then none else some (some ds, rest)
  | rest => some (none, rest)

def readExponent : List Char → Option (Option (Bool × List Char) × List Char)
  | c :: rest =>
    if c = 'e' ∨ c = 'E' then
      let (negative, rest) := match rest with
        | '-' :: rest => (true, rest)
        | '+' :: rest => (false, rest)
        | rest => (false, rest)
      let (ds, rest) := rest.span Char.isDigit
      if ds.isEmpty then none else some (some (negative, ds), rest)
    else some (none, c :: rest)
  | [] => some (none, [])

def read (cs : List Char) : Option (Numeral × List Char) := do
  let (negative, cs) := match cs with
    | '-' :: rest => (true, rest)
    | cs => (false, cs)
  let (whole, cs) := cs.span Char.isDigit
  guard (isWhole whole)
  let (fraction, cs) ← readFraction cs
  let (exponent, cs) ← readExponent cs
  return (⟨negative, whole, fraction, exponent⟩, cs)

/-- A number with the digits that go on with it, as long as it fits sixty-four bits, and the digits
that are left. -/
def takeDigits (n : Nat) : List Char → Nat × List Char
  | [] => (n, [])
  | c :: cs =>
    let longer := Nat.ofDigitChars 10 [c] n
    if longer < Decimal.wordBound then takeDigits longer cs else (n, c :: cs)

/-- The first digits and the exponent of ten that belongs to them. Digits that do not fit sixty-four
bits are dropped: in the whole part they are counted, in the fraction they are not. -/
def significand (l : Numeral) : Nat × Int :=
  let (n, dropped) := takeDigits 0 l.whole
  let fraction := l.fraction.getD []
  let (n, rest) := takeDigits n fraction
  (n, dropped.length - (fraction.length - rest.length : Nat))

/-- Written exponents are smaller, or they count as infinite. -/
def exponentBound : Nat := Nat.pow 2 31

/-- The literal as a floating point number, which need not be the nearest one: the first digits, the
power of ten and their product are rounded one after another. -/
def float (l : Numeral) : Option Number := do
  let (n, e) := l.significand
  let x := Binary64.nearest false n 1
  let x ← match l.exponent with
    | none => x.timesTenTo e
    | some (negative, ds) =>
      let k := Nat.ofDigitChars 10 ds 0
      if k < exponentBound then x.timesTenTo (if negative then e - k else e + k)
      else if negative ∨ n = 0 then some (.zero false)
      else none
  return .float { x with negative := l.negative }

/-- The number written. There is none beyond the range of floating point. -/
def number (l : Numeral) : Option Number :=
  match l.fraction, l.exponent with
  | none, none =>
    let n := Nat.ofDigitChars 10 l.whole 0
    if l.negative then
      if n ≠ 0 ∧ n ≤ Decimal.signedBound then some (.int (-n)) else l.float
    else if n < Decimal.wordBound then some (.int n) else l.float
  | _, _ => l.float

end Numeral

namespace Number

def ofLiteral? (cs : List Char) : Option Number :=
  match Numeral.read cs with
  | some (l, []) => l.number
  | _ => none

def asInt64? : Number → Option Int
  | .int n => if -(Decimal.signedBound : Int) ≤ n ∧ n < Decimal.signedBound then some n else none
  | .float _ => none

def asWord? : Number → Option Nat
  | .int n => if 0 ≤ n ∧ n < Decimal.wordBound then some n.toNat else none
  | .float _ => none

def toFloat? : Number → Option Binary64
  | .int n => Binary64.ofQuotient (n < 0) n.natAbs 1
  | .float x => some x

def intChars : Int → List Char
  | .ofNat n => Decimal.digits n
  | .negSucc n => '-' :: Decimal.digits (n + 1)

/-- Exponents of ten whose numbers are written without one. -/
def isPositional (e : Int) : Bool := -5 ≤ e ∧ e ≤ 15

/-- Writes `d.ddd * 10 ^ e`, positionally with at least one digit after the point, or with a signed
exponent. -/
def layout (ds : List Char) (e : Int) : List Char :=
  let zeros (n : Int) : List Char := List.replicate n.toNat '0'
  if isPositional e then
    if e < 0 then '0' :: '.' :: (zeros (-e - 1) ++ ds)
    else
      let whole := ds.take (e + 1).toNat
      let fraction := ds.drop (e + 1).toNat
      whole ++ zeros (e + 1 - ds.length) ++ '.' :: (if fraction.isEmpty then ['0'] else fraction)
  else
    let fraction := ds.drop 1
    ds.take 1 ++ (if fraction.isEmpty then [] else '.' :: fraction) ++
      'e' :: (if e < 0 then '-' else '+') :: Decimal.digits e.natAbs

def floatChars (x : Binary64) : List Char :=
  let magnitude :=
    if x.mantissa = 0 then ['0', '.', '0']
    else
      let d := x.shortest
      let all := Decimal.digits d.digits
      let ds := (all.reverse.dropWhile (· == '0')).reverse
      layout ds (d.exponent + all.length - 1)
  if x.negative then '-' :: magnitude else magnitude

def chars : Number → List Char
  | .int n => intChars n
  | .float x => floatChars x

def text (n : Number) : String := String.ofList n.chars

end Number
end JsonWalk
