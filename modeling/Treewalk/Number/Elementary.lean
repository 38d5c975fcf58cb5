/-
Elementary functions, correctly rounded.

Each function is enclosed in fixed point: at scale `p` the integer `n` stands for `n / 2 ^ p`, a series is summed with
truncating arithmetic, and a bound on the accumulated error gives an integer below and one above the true value. When
both ends round to the same number, that number is the correctly rounded result. Otherwise the scale is doubled. The
results that lie exactly on a number or halfway between two would never be separated; they are the arguments handled
apart: zero, one, and the powers that `exactPow?` finds.
-/
import Treewalk.Number.Arithmetic

namespace Treewalk

-- `^` is the power of the core library, whatever else is imported
attribute [local instance (2000)] instPowNat instNatPowNat

namespace Fixed

/-- `2 ^ p` times the sum of `(1 / n) ^ (2 * i + 1) / (2 * i + 1)` over `i`, every other term negated if `alternate`;
each term is truncated. `power` is the current power of `1 / n`. -/
def inverseSeries (alternate : Bool) (n : Nat) (fuel i : Nat) (power : Nat) (sum : Int) : Int :=
  match fuel with
  | 0 => sum
  | fuel + 1 =>
    if power = 0 then sum
    else
      let term : Int := power / (2 * i + 1)
      let sum := if alternate && i % 2 = 1 then sum - term else sum + term
      inverseSeries alternate n fuel (i + 1) (power / (n * n)) sum

/-- bits computed beyond the scale and dropped at the end, so that truncations do not reach it -/
def guardBits : Nat := 32

/-- the inverse tangent of `1 / n` at scale `p` -/
def arctanInverse (p n : Nat) : Int := inverseSeries true n p 0 (2 ^ p / n) 0

/-- the inverse hyperbolic tangent of `1 / n` at scale `p` -/
def artanhInverse (p n : Nat) : Int := inverseSeries false n p 0 (2 ^ p / n) 0

/-- the logarithm of two at scale `p`, within two units: twice the inverse hyperbolic tangent of a third -/
def ln2 (p : Nat) : Nat := (2 * artanhInverse (p + guardBits) 3).toNat / 2 ^ guardBits

/-- a quarter turn at scale `p`, within two units, by Machin's formula -/
def halfPi (p : Nat) : Nat :=
  (8 * arctanInverse (p + guardBits) 5 - 2 * arctanInverse (p + guardBits) 239).toNat / 2 ^ guardBits

/-- sum of the terms that follow `term`, where the `k`-th is its predecessor times `r / k` -/
def expTerms (p r : Nat) (fuel k term sum : Nat) : Nat :=
  match fuel with
  | 0 => sum
  | fuel + 1 =>
    let term := term * r / 2 ^ p / k
    if term = 0 then sum else expTerms p r fuel (k + 1) term (sum + term)

/-- the exponential of `r`, for `r` below one, within `2 * p` units -/
def expSeries (p r : Nat) : Nat := expTerms p r p 1 (2 ^ p) (2 ^ p)

/-- alternating sum of `term` and the terms after it, each its predecessor times `r² / (k * (k + 1))` -/
def alternatingTerms (p square : Nat) (fuel k term : Nat) (sum : Int) : Int :=
  match fuel with
  | 0 => sum
  | fuel + 1 =>
    if term = 0 then sum
    else
      let term' := term * square / 2 ^ p / (k * (k + 1))
      let rest := alternatingTerms p square fuel (k + 2) term' 0
      sum + (term - rest)

/-- the sine of `r`, for `r` up to a quarter turn, within `4 * p` units -/
def sinSeries (p r : Nat) : Int := alternatingTerms p (r * r / 2 ^ p) p 2 r 0

/-- the cosine of `r`, for `r` up to a quarter turn, within `4 * p` units -/
def cosSeries (p r : Nat) : Int := alternatingTerms p (r * r / 2 ^ p) p 1 (2 ^ p) 0

/-- sum of `power / (2 * i + 1)` and the terms after it, where each power is its predecessor times `square` -/
def artanhTerms (p square : Nat) (fuel i power sum : Nat) : Nat :=
  match fuel with
  | 0 => sum
  | fuel + 1 =>
    if power = 0 then sum
    else artanhTerms p square fuel (i + 1) (power * square / 2 ^ p) (sum + power / (2 * i + 1))

/-- the inverse hyperbolic tangent of `z`, for `z` up to a third, within `4 * p` units -/
def artanhSeries (p z : Nat) : Nat := artanhTerms p (z * z / 2 ^ p) p 0 z 0

/-- the logarithm of `x` at scale `p` and a bound on its error. The significand is brought to `y` between one and two;
then `ln y` is twice the inverse hyperbolic tangent of `(y - 1) / (y + 1)`. -/
def ln (p : Nat) (x : Magnitude) : Int × Nat :=
  let bits := x.significand.log2
  let shift := x.exponent + bits
  let y := x.significand * 2 ^ p / 2 ^ bits
  let z := (y - 2 ^ p) * 2 ^ p / (y + 2 ^ p)
  (shift * ln2 p + 2 * artanhSeries p z, 2 * shift.natAbs + 8 * p + 16)

/-- the two numbers between which the exponential of `t` at scale `p` rounds, when `t` is known within `err` units.
Whole multiples of `ln 2` become the exponent. -/
def exp (p : Nat) (t : Int) (err : Nat) : Number × Number :=
  let unit : Int := ln2 p
  let k := t / unit
  let sum := expSeries p (t - k * unit).toNat
  let slack := 4 * (p + err + 2 * k.natAbs + 4)
  (.ofDyadic false (sum - slack) (k - p), .ofDyadic false (sum + slack) (k - p))

/-- the sine and the cosine of a magnitude at scale `p`, within `4 * p + 16` units. The argument is reduced to a
quarter turn with as many extra bits as it has before the point. -/
def sinCos (p : Nat) (x : Magnitude) : Int × Int :=
  let wide := p + (x.exponent + Magnitude.precision).toNat + 16
  let angle := x.significand * 2 ^ (x.exponent + wide).toNat / 2 ^ (-(x.exponent + wide)).toNat
  let quarter := halfPi wide
  let r := angle % quarter / 2 ^ (wide - p)
  let s := sinSeries p r
  let c := cosSeries p r
  match angle / quarter % 4 with
  | 0 => (s, c)
  | 1 => (c, -s)
  | 2 => (-s, -c)
  | _ => (-c, s)

/-- the two numbers between which `n`, known within `err` units at scale `p`, rounds -/
def ends (p : Nat) (n : Int) (err : Nat) : Number × Number :=
  (.ofScaledInt (n - err) (-p), .ofScaledInt (n + err) (-p))

/-- encloses at scale `p`, doubled `fuel` times at most, until both ends round to one number -/
def refine (enclose : Nat → Number × Number) (p : Nat) : Nat → Number
  | 0 => (enclose p).1
  | fuel + 1 =>
    let (a, b) := enclose p
    if a = b then a else refine enclose (2 * p) fuel

/-- the number that an enclosure closes in on; 128 bits nearly always suffice -/
def limit (enclose : Nat → Number × Number) : Number := refine enclose 128 5

end Fixed

namespace Number

/-- the exponential; above 1024 it overflows and below -1024 it vanishes -/
def exp : Number → Number
  | .nan => .nan
  | .infinity s => if s then .zero else .infinity false
  | .finite s x =>
    if x.significand = 0 then .one
    else if 1024 ≤ x.floor then if s then .zero else .infinity false
    else
      Fixed.limit fun p =>
        let t : Int := x.significand * 2 ^ (x.exponent + p).toNat / 2 ^ (-(x.exponent + p)).toNat
        Fixed.exp p (if s then -t else t) 1

/-- the natural logarithm; zero gives minus infinity and negative numbers give NaN -/
def ln : Number → Number
  | .nan => .nan
  | .infinity s => if s then .nan else .infinity false
  | .finite s x =>
    if x.significand = 0 then .infinity true
    else if s then .nan
    else if x = .one then .zero
    else Fixed.limit fun p =>
      let (n, err) := Fixed.ln p x
      Fixed.ends p n err

/-- magnitudes below `2 ^ -27`, whose sine rounds to themselves and whose cosine rounds to one -/
def isTinyAngle (x : Magnitude) : Bool := x.exponent + x.significand.log2 < -27

def sin : Number → Number
  | .nan => .nan
  | .infinity _ => .nan
  | .finite s x =>
    if isTinyAngle x || x.significand = 0 then .finite s x
    else Fixed.limit fun p =>
      let n := (Fixed.sinCos p x).1
      Fixed.ends p (if s then -n else n) (4 * p + 16)

def cos : Number → Number
  | .nan => .nan
  | .infinity _ => .nan
  | .finite _ x =>
    if isTinyAngle x || x.significand = 0 then .one
    else Fixed.limit fun p => Fixed.ends p (Fixed.sinCos p x).2 (4 * p + 16)

/-- a whole number that is odd -/
def isOddInteger : Number → Bool
  | .finite _ x => x.isInteger && x.floor % 2 = 1
  | _ => false

def isInteger : Number → Bool
  | .finite _ x => x.isInteger
  | _ => false

/-- `m * 2 ^ e` with `m` odd -/
def oddPart (fuel m : Nat) (e : Int) : Nat × Int :=
  match fuel with
  | 0 => (m, e)
  | fuel + 1 => if m % 2 = 0 then oddPart fuel (m / 2) (e + 1) else (m, e)

/-- the power of an odd `m` times `2 ^ f` to the exponent `n * 2 ^ -k`, when it is a short exact ratio: square roots
are taken while the exponent has a fraction, then whole exponents up to 64 are multiplied out. Powers of two are exact
for every whole exponent. -/
def exactPow? (m : Nat) (f : Int) (n : Int) : Nat → Option Number
  | 0 =>
    if m = 1 then
      let e := f * n
      some (if 1100 < e then .infinity false else if e < -1200 then .zero else ofDyadic false 1 e)
    else if n.natAbs ≤ 64 then
      let power := m ^ n.natAbs
      let e := f * n
      some (if 0 ≤ n then ofRatio false (power * 2 ^ e.toNat) (2 ^ (-e).toNat)
        else ofRatio false (2 ^ e.toNat) (power * 2 ^ (-e).toNat))
    else none
  | k + 1 =>
    let root := sqrtFloor m
    if root * root = m ∧ f % 2 = 0 then exactPow? root (f / 2) n k else none

/-- the power of a positive magnitude other than one to a finite, non-zero exponent. Exponents of `2 ^ 64` and more
leave the range whatever the base; below that, `y * ln x` is enclosed with 70 extra bits. -/
def powMagnitude (x : Magnitude) (negative : Bool) (y : Magnitude) : Number :=
  let grows := (x.compare .one == .gt) != negative
  let outside : Number := if grows then .infinity false else .zero
  if 2 ^ (64 : Nat) ≤ y.floor then outside
  else
    let (m, f) := oddPart 64 x.significand x.exponent
    let (n, g) := oddPart 64 y.significand y.exponent
    let whole : Int := n * 2 ^ g.toNat
    let exact := if -g ≤ 12 then exactPow? m f (if negative then -whole else whole) (-g).toNat else none
    match exact with
    | some z => z
    | none => Fixed.limit fun p =>
      let wide := p + 70
      let (l, err) := Fixed.ln wide x
      let product := l * y.significand * 2 ^ y.exponent.toNat / 2 ^ ((-y.exponent).toNat + 70)
      let t := if negative then -product else product
      if 1100 * 2 ^ p ≤ t.natAbs then (outside, outside) else Fixed.exp p t (err + 2)

/-- `x` to the power `y`. Any number to the power zero and one to any power are one, also with NaN; a negative base
takes whole exponents only, and the result's sign from their parity. -/
def pow (x y : Number) : Number :=
  if y.isZero || x = .one then .one
  else
    match x, y with
    | .nan, _ => .nan
    | _, .nan => .nan
    | .infinity s, _ =>
      let negative := s && y.isOddInteger
      if y.isNegative then .finite negative .zero else .infinity negative
    | .finite _ a, .infinity t =>
      match a.compare .one with
      | .eq => .one
      | .lt => if t then .infinity false else .zero
      | .gt => if t then .zero else .infinity false
    | .finite s a, .finite t b =>
      let negative := s && y.isOddInteger
      if a.significand = 0 then if t then .infinity negative else .finite negative .zero
      else if s && !y.isInteger then .nan
      else
        let z := if a = .one then .one else powMagnitude a t b
        if negative then z.neg else z

end Number

end Treewalk
