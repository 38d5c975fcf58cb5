/-
Numbers of the language: IEEE 754 binary64 with a single NaN.

A finite number is a sign and a magnitude `significand * 2 ^ exponent`. Magnitudes are kept canonical: the significand
has at most 53 bits, and fewer only at the least exponent. So every binary64 value but NaN has exactly one
representation, and equality of representations is equality of bit patterns.
-/

namespace Treewalk

-- `^` is the power of the core library, whatever else is imported
attribute [local instance (2000)] instPowNat instNatPowNat

namespace Magnitude

/-- bits of a significand -/
def precision : Nat := 53

/-- exponent of the subnormal magnitudes -/
def minExponent : Int := -1074

/-- exponent of the largest magnitudes -/
def maxExponent : Int := 971

/-- `m * 2 ^ e` is the canonical way to write a magnitude -/
def Canonical (m : Nat) (e : Int) : Prop :=
  m < 2 ^ precision ∧ minExponent ≤ e ∧ e ≤ maxExponent ∧ (m < 2 ^ (precision - 1) → e = minExponent)

instance (m : Nat) (e : Int) : Decidable (Canonical m e) := by
  unfold Canonical; infer_instance

end Magnitude

/-- a finite, non-negative binary64 value `significand * 2 ^ exponent` -/
structure Magnitude where
  significand : Nat
  exponent : Int
  canonical : Magnitude.Canonical significand exponent
deriving DecidableEq

/-- a number: a signed magnitude, an infinity, or not a number -/
inductive Number where
  | nan
  | infinity (negative : Bool)
  | finite (negative : Bool) (magnitude : Magnitude)
deriving DecidableEq

namespace Magnitude

def zero : Magnitude := ⟨0, minExponent, by decide⟩

def one : Magnitude := ⟨2 ^ (52 : Nat), -52, by decide⟩

instance : Inhabited Magnitude := ⟨zero⟩

/-- the magnitude's significand at an exponent `e` not above its own -/
def scaledTo (x : Magnitude) (e : Int) : Nat := x.significand * 2 ^ (x.exponent - e).toNat

/-- order of two magnitudes by value -/
def compare (x y : Magnitude) : Ordering :=
  let e := min x.exponent y.exponent
  Ord.compare (x.scaledTo e) (y.scaledTo e)

/-- the value is a whole number -/
def isInteger (x : Magnitude) : Bool :=
  x.significand % 2 ^ (-x.exponent).toNat == 0

/-- the greatest whole number not above the value -/
def floor (x : Magnitude) : Nat :=
  x.significand * 2 ^ x.exponent.toNat / 2 ^ (-x.exponent).toNat

end Magnitude

namespace Number

def zero : Number := .finite false .zero

def one : Number := .finite false .one

instance : Inhabited Number := ⟨zero⟩

/-- the sign flipped; NaN stays NaN -/
def neg : Number → Number
  | .nan => .nan
  | .infinity s => .infinity !s
  | .finite s x => .finite (!s) x

/-- the sign bit; NaN has none -/
def isNegative : Number → Bool
  | .nan => false
  | .infinity s => s
  | .finite s _ => s

def isZero : Number → Bool
  | .finite _ x => x.significand == 0
  | _ => false

/-- IEEE order: NaN is unordered, the two zeros are equal -/
def compare? : Number → Number → Option Ordering
  | .nan, _ => none
  | _, .nan => none
  | .infinity s, .infinity t => some (Ord.compare t s)
  | .infinity s, .finite _ _ => some (if s then .lt else .gt)
  | .finite _ _, .infinity t => some (if t then .gt else .lt)
  | .finite s x, .finite t y =>
    let e := min x.exponent y.exponent
    let signed (negative : Bool) (n : Nat) : Int := if negative then -n else n
    some (Ord.compare (signed s (x.scaledTo e)) (signed t (y.scaledTo e)))

def lt (x y : Number) : Bool := compare? x y == some .lt

def le (x y : Number) : Bool := lt x y || compare? x y == some .eq

/-- IEEE equality: NaN differs from everything, itself included -/
def eq (x y : Number) : Bool := compare? x y == some .eq

/-- the number that a 64-bit pattern stands for; every NaN pattern is the one NaN -/
def ofBits (w : UInt64) : Number :=
  let fraction := w.toNat % 2 ^ (52 : Nat)
  let field := w.toNat / 2 ^ (52 : Nat) % 2 ^ (11 : Nat)
  let negative := w.toNat / 2 ^ (63 : Nat) % 2 == 1
  have hf : fraction < 2 ^ (52 : Nat) := Nat.mod_lt _ (by decide)
  have hx : field < 2 ^ (11 : Nat) := Nat.mod_lt _ (by decide)
  if hInf : field = 2047 then
    if fraction = 0 then .infinity negative else .nan
  else if hSub : field = 0 then
    .finite negative ⟨fraction, Magnitude.minExponent,
      Nat.lt_trans hf (by decide), by decide, by decide, fun _ => rfl⟩
  else
    .finite negative ⟨2 ^ (52 : Nat) + fraction, field - 1075, by
      simp only [Magnitude.Canonical, Magnitude.precision, Magnitude.minExponent, Magnitude.maxExponent]; omega⟩

/-- the 64-bit pattern of a number; NaN is the quiet one without payload -/
def toBits : Number → UInt64
  | .nan => 0x7ff8000000000000
  | .infinity s => (signBit s + 2047 * 2 ^ (52 : Nat)).toUInt64
  | .finite s x =>
    if x.significand < 2 ^ (52 : Nat) then (signBit s + x.significand).toUInt64
    else (signBit s + ((x.exponent + 1075).toNat * 2 ^ (52 : Nat) + (x.significand - 2 ^ (52 : Nat)))).toUInt64
where
  /-- the sign's place in a pattern -/
  signBit (s : Bool) : Nat := if s then 2 ^ (63 : Nat) else 0

end Number

end Treewalk
