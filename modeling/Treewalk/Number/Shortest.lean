/-
The shortest decimal of a magnitude.

A decimal `digits * 10 ^ exponent` reads back as a magnitude exactly when it lies in the magnitude's rounding interval:
from half the gap below to half the gap above, the ends included when the significand is even. `shortest` walks the
powers of ten downward and stops at the first whose multiples meet that interval, so no decimal with fewer digits reads
back; of the two multiples next to the value it takes the nearer one, and of two equally near the even one. The walk
always stops: the magnitude itself is a multiple of the last power of ten it can reach.
-/
import Treewalk.Number.Basic

namespace Treewalk

-- `^` is the power of the core library, whatever else is imported
attribute [local instance (2000)] instPowNat instNatPowNat

/-- a non-negative decimal `digits * 10 ^ exponent` -/
structure Decimal where
  digits : Nat
  exponent : Int
deriving DecidableEq

namespace Magnitude

/-- half the gap to the next magnitude below, in quarters of the last place -/
def quartersBelow (x : Magnitude) : Nat :=
  if x.significand = 2 ^ (precision - 1) ∧ x.exponent ≠ minExponent then 1 else 2

/-- `n / d` quarters of the last place lie in the interval of values that round to `x` -/
def roundsBack (x : Magnitude) (n d : Nat) : Bool :=
  let lower := (4 * x.significand - x.quartersBelow) * d
  let upper := (4 * x.significand + 2) * d
  if x.significand % 2 = 0 then lower ≤ n && n ≤ upper else lower < n && n < upper

/-- the multiple of `10 ^ q` that stands for `x`, if one reads back: the nearer of the two next to `x`.
One unit `10 ^ q` is `unit / den` quarters of the last place. -/
def multipleOfTen? (x : Magnitude) (q : Int) : Option Nat :=
  let unit := 10 ^ q.toNat * 2 ^ (2 - x.exponent).toNat
  let den := 10 ^ (-q).toNat * 2 ^ (x.exponent - 2).toNat
  let value := 4 * x.significand * den
  let below := value / unit
  let excess := value % unit
  let above := below + 1
  let belowOk := below != 0 && x.roundsBack (below * unit) den
  let aboveOk := x.roundsBack (above * unit) den
  if belowOk && aboveOk then
    if 2 * excess < unit || (2 * excess = unit && below % 2 = 0) then some below else some above
  else if belowOk then some below
  else if aboveOk then some above
  else none

/-- first hit of the walk from `10 ^ q` down through `steps` further powers -/
def shortestFrom (x : Magnitude) (q : Int) : Nat → Decimal
  | 0 => ⟨(x.multipleOfTen? q).getD 0, q⟩
  | steps + 1 =>
    match x.multipleOfTen? q with
    | some n => ⟨n, q⟩
    | none => shortestFrom x (q - 1) steps

/-- an exponent `q` with `x < 10 ^ q`, from the place of the leading bit -/
def decimalCeiling (x : Magnitude) : Int :=
  let top := x.exponent + x.significand.log2 + 1
  if 0 ≤ top then top * 31 / 100 + 1 else -(-top * 30 / 100)

/-- the shortest decimal that reads back as `x` -/
def shortest (x : Magnitude) : Decimal :=
  let top := x.decimalCeiling
  x.shortestFrom top (top - min x.exponent 0).toNat

end Magnitude

end Treewalk
