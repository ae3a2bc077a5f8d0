import SourceBundle.Text.Basic
/-!
# Numbers in JSON

Integers of 64 bits are exact. Every other number stands for the nearest double, of which only the
whole part is ever asked.
-/
namespace SourceBundle.Json

/-- `mantissa * 10 ^ exponent`, or its negative. -/
structure Decimal where
  negative : Bool
  mantissa : Nat
  exponent : Int
  deriving DecidableEq, Repr

inductive Number where
  | integer (n : Int)
  | real (d : Decimal)
  deriving DecidableEq, Repr

/-! ## Powers -/

def twoTo (k : Nat) : Nat := Nat.pow 2 k

def tenTo (k : Nat) : Nat := Nat.pow 10 k

/-! ## Rounding -/

/-- `n / d` to the nearest whole number, a half to the even neighbour. -/
def roundHalfEven (n d : Nat) : Nat :=
  let q := n / d
  let twice := 2 * (n % d)
  if twice < d || (twice == d && q % 2 == 0) then q else q + 1

/-- The binary exponent that leaves `n / d` with 53 digits before the point. -/
def binaryExponent (n d : Nat) : Int :=
  let e : Int := (n.log2 : Int) - d.log2 - 52
  if n * twoTo (-e).toNat < d * twoTo (e.toNat + 52) then e - 1 else e

/-- The whole part of the double nearest to `n / d`. -/
def wholePart (n d : Nat) : Nat :=
  let e := binaryExponent n d
  let m := roundHalfEven (n * twoTo (-e).toNat) (d * twoTo e.toNat)
  m * twoTo e.toNat / twoTo (-e).toNat

namespace Decimal

/-- The count of decimal digits of the mantissa. -/
def digits (x : Decimal) : Nat := (Nat.toDigits 10 x.mantissa).length

/-- Whether the nearest double is finite. The bound lies half a step above the greatest double. -/
def isFinite (x : Decimal) : Bool :=
  let bound := twoTo 1024 - twoTo 970
  if x.mantissa = 0 then true
  else if 0 ≤ x.exponent then
    x.exponent ≤ 400 && x.mantissa * tenTo x.exponent.toNat < bound
  else x.mantissa < bound * tenTo (min (-x.exponent).toNat x.digits)

/-- The whole part of the nearest double. Anything below `10 ^ -30` has none. -/
def whole (x : Decimal) : Int :=
  let magnitude :=
    if x.mantissa = 0 then 0
    else if 0 ≤ x.exponent then wholePart (x.mantissa * tenTo x.exponent.toNat) 1
    else if x.digits + 30 < (-x.exponent).toNat then 0
    else wholePart x.mantissa (tenTo (-x.exponent).toNat)
  if x.negative then -magnitude else magnitude

end Decimal

/-- A number as a count of 64 bits. Fractions are cut off and negative numbers wrap round. For a
double out of range there is no defined count: one too large is 0 here, and one too far below zero
is `2 ^ 63`. -/
def Number.toCount : Number → Nat
  | .integer n => (n % twoTo 64).toNat
  | .real x =>
    if x.whole < -twoTo 63 then twoTo 63
    else if twoTo 64 ≤ x.whole then 0
    else (x.whole % twoTo 64).toNat

end SourceBundle.Json
