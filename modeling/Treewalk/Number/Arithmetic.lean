/-
Arithmetic on numbers. Every operation computes the exact result over the integers and rounds it once; remainder is
exact. Infinities, NaN and the signs of zeros follow IEEE 754.
-/
import Treewalk.Number.Rounding

namespace Treewalk

-- `^` is the power of the core library, whatever else is imported
attribute [local instance (2000)] instPowNat instNatPowNat

/-- the whole part of the square root of `n` -/
def sqrtFloor (n : Nat) : Nat :=
  if n = 0 then 0
  else
    let r := 2 * sqrtFloor (n / 4)
    if (r + 1) * (r + 1) ≤ n then r + 1 else r
termination_by n
decreasing_by omega

namespace Number

/-- sum of two signed magnitudes; an exact zero is positive unless both are negative -/
def addFinite (s : Bool) (x : Magnitude) (t : Bool) (y : Magnitude) : Number :=
  let e := min x.exponent y.exponent
  let a : Int := x.scaledTo e
  let b : Int := y.scaledTo e
  let sum := (if s then -a else a) + (if t then -b else b)
  if sum = 0 then .finite (s && t) .zero else ofScaledInt sum e

def add : Number → Number → Number
  | .nan, _ => .nan
  | _, .nan => .nan
  | .infinity s, .infinity t => if s = t then .infinity s else .nan
  | .infinity s, .finite _ _ => .infinity s
  | .finite _ _, .infinity t => .infinity t
  | .finite s x, .finite t y => addFinite s x t y

def sub (x y : Number) : Number := add x (neg y)

def mul (x y : Number) : Number :=
  match x, y with
  | .nan, _ => .nan
  | _, .nan => .nan
  | .finite s a, .finite t b => ofDyadic (s != t) (a.significand * b.significand) (a.exponent + b.exponent)
  | _, _ => if x.isZero || y.isZero then .nan else .infinity (x.isNegative != y.isNegative)

/-- quotient; a number over zero is infinite, zero over zero is NaN -/
def div : Number → Number → Number
  | .nan, _ => .nan
  | _, .nan => .nan
  | .infinity _, .infinity _ => .nan
  | .infinity s, .finite t _ => .infinity (s != t)
  | .finite s _, .infinity t => .finite (s != t) .zero
  | .finite s x, .finite t y =>
    if y.significand = 0 then
      if x.significand = 0 then .nan else .infinity (s != t)
    else
      let e := x.exponent - y.exponent
      ofRatio (s != t) (x.significand * 2 ^ e.toNat) (y.significand * 2 ^ (-e).toNat)

/-- remainder of the division truncated toward zero: exact, with the sign of the dividend -/
def rem : Number → Number → Number
  | .nan, _ => .nan
  | _, .nan => .nan
  | .infinity _, _ => .nan
  | .finite s x, .infinity _ => .finite s x
  | .finite s x, .finite _ y =>
    if y.significand = 0 then .nan
    else
      let e := min x.exponent y.exponent
      ofDyadic s (x.scaledTo e % y.scaledTo e) e

/-- the number nearest to the square root of `n * 2 ^ (2 * e)`. The root is taken with at least 64 bits, and a
last bit that says whether it is exact keeps it on the right side of every rounding boundary. -/
def sqrtScaled (n : Nat) (e : Int) : Number :=
  let shift := 64 - n.log2 / 2
  let wide := n * 4 ^ shift
  let root := sqrtFloor wide
  let sticky := if root * root = wide then 0 else 1
  ofDyadic false (2 * root + sticky) (e - shift - 1)

/-- square root; minus zero is its own root and other negative numbers have none -/
def sqrt : Number → Number
  | .nan => .nan
  | .infinity s => if s then .nan else .infinity false
  | .finite s x =>
    if x.significand = 0 then .finite s x
    else if s then .nan
    else if x.exponent % 2 = 0 then sqrtScaled x.significand (x.exponent / 2)
    else sqrtScaled (2 * x.significand) ((x.exponent - 1) / 2)

/-- length of the hypotenuse over two sides; an infinite side wins even over NaN -/
def hypot : Number → Number → Number
  | .infinity _, _ => .infinity false
  | _, .infinity _ => .infinity false
  | .nan, _ => .nan
  | _, .nan => .nan
  | .finite _ x, .finite _ y =>
    let e := min x.exponent y.exponent
    let n := x.scaledTo e ^ (2 : Nat) + y.scaledTo e ^ (2 : Nat)
    if n = 0 then .zero else sqrtScaled n e

end Number

end Treewalk
