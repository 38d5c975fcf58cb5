/-
Rounding to the nearest number, ties to the even significand.

One function decides every rounding of the library: `Magnitude.ofRatio?` takes an exact non-negative ratio of natural
numbers and gives the magnitude next to it, or none when the ratio rounds beyond the largest one. Arithmetic, numerals
and the elementary functions all hand it exact integers.
-/
import Treewalk.Number.Basic

namespace Treewalk

-- `^` is the power of the core library, whatever else is imported
attribute [local instance (2000)] instPowNat instNatPowNat

/-- the whole number nearest to `a / b`, the even one of two equally near -/
def roundHalfEven (a b : Nat) : Nat :=
  let q := a / b
  let r := a % b
  if 2 * r < b then q else if b < 2 * r then q + 1 else q + q % 2

/-- the whole part of the binary logarithm of `num / den`, both positive -/
def floorLog2 (num den : Nat) : Int :=
  let l : Int := (num.log2 : Int) - den.log2
  if num * 2 ^ (-l).toNat < den * 2 ^ l.toNat then l - 1 else l

namespace Magnitude

/-- the exponent at which `num / den` is rounded: 53 bits remain, or the least exponent is reached -/
def roundingExponent (num den : Nat) : Int :=
  if num = 0 then minExponent else max minExponent (floorLog2 num den - (precision - 1 : Nat))

/-- the magnitude nearest to `num / den`, the even one of two equally near; none if that is out of range.
A significand that rounds up to 54 bits is a power of two and is carried into the exponent. -/
def ofRatio? (num den : Nat) : Option Magnitude :=
  let e := roundingExponent num den
  let m := roundHalfEven (num * 2 ^ (-e).toNat) (den * 2 ^ e.toNat)
  let (m, e) := if m = 2 ^ precision then (2 ^ (precision - 1), e + 1) else (m, e)
  if h : Canonical m e then some ⟨m, e, h⟩ else none

end Magnitude

namespace Number

/-- the number nearest to `num / den` with the given sign; beyond the largest number lies infinity -/
def ofRatio (negative : Bool) (num den : Nat) : Number :=
  match Magnitude.ofRatio? num den with
  | some x => .finite negative x
  | none => .infinity negative

/-- the number nearest to `m * 2 ^ e` with the given sign -/
def ofDyadic (negative : Bool) (m : Nat) (e : Int) : Number :=
  ofRatio negative (m * 2 ^ e.toNat) (2 ^ (-e).toNat)

/-- the number nearest to `n * 2 ^ e`; zero is positive -/
def ofScaledInt (n : Int) (e : Int) : Number := ofDyadic (n < 0) n.natAbs e

end Number

end Treewalk
