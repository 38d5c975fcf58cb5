/-
Numerals: reading a number from text.

`Numeral.scan?` takes the longest numeral at the start of a text: an optional minus sign, then decimal digits with an
optional point and exponent, or a word for infinity or NaN. Its value is the exact decimal rounded once. A non-zero
numeral that rounds to zero or beyond the largest number is out of range; which of the two it is given is then decided
by its spelling alone, see `looksSmall`.
-/
import Treewalk.Number.Rounding
import Treewalk.Text

namespace Treewalk

-- `^` is the power of the core library, whatever else is imported
attribute [local instance (2000)] instPowNat instNatPowNat

namespace Numeral

/-- an ASCII digit -/
def isDigit (b : UInt8) : Bool := 48 ≤ b && b ≤ 57

/-- the number that a string of digits writes -/
def digitsValue (ds : Bytes) : Nat := ds.foldl (fun n d => 10 * n + (d.toNat - 48)) 0

/-- a decimal as written: `digits * 10 ^ exponent` -/
structure Written where
  negative : Bool
  digits : Nat
  exponent : Int

/-- what stands at the start of a text -/
inductive Scanned where
  /-- a value in range -/
  | value (x : Number)
  /-- a non-zero decimal that rounds to zero or to infinity -/
  | outOfRange

/-- an exponent part at the start of a text, with the rest; without digits it is no exponent part -/
def exponentPart (t : Bytes) : Int × Bytes :=
  match t with
  | e :: r =>
    if e = 101 ∨ e = 69 then
      let (negative, ds) := match r with
        | s :: r' => if s = 45 then (true, r') else if s = 43 then (false, r') else (false, r)
        | [] => (false, [])
      let digits := ds.takeWhile isDigit
      if digits.isEmpty then (0, t)
      else
        let n : Int := digitsValue digits
        (if negative then -n else n, ds.dropWhile isDigit)
    else (0, t)
  | [] => (0, t)

/-- a decimal at the start of a text, with the rest: digits before or after the point, or both -/
def decimal? (negative : Bool) (t : Bytes) : Option (Written × Bytes) :=
  let whole := t.takeWhile isDigit
  let r := t.dropWhile isDigit
  let (fraction, r) := match r with
    | 46 :: r' => (r'.takeWhile isDigit, r'.dropWhile isDigit)
    | _ => ([], r)
  if whole.isEmpty && fraction.isEmpty then none
  else
    let (e, r) := exponentPart r
    some (⟨negative, digitsValue (whole ++ fraction), e - fraction.length⟩, r)

/-- value of a written decimal. An exponent that puts every digit far outside the range is not expanded. -/
def Written.scanned (w : Written) : Scanned :=
  if w.digits = 0 then .value (.finite w.negative .zero)
  else
    let size : Int := (Nat.toDigits 10 w.digits).length
    if 400 < w.exponent + size ∨ w.exponent + size < -400 then .outOfRange
    else
      match Magnitude.ofRatio? (w.digits * 10 ^ w.exponent.toNat) (10 ^ (-w.exponent).toNat) with
      | some x => if x.significand = 0 then .outOfRange else .value (.finite w.negative x)
      | none => .outOfRange

/-- an ASCII letter in lower case -/
def lower (b : UInt8) : UInt8 := if 65 ≤ b && b ≤ 90 then b + 32 else b

/-- the rest after a word written in any case -/
def word? (w t : Bytes) : Option Bytes :=
  if (t.take w.length).map lower = w then some (t.drop w.length) else none

/-- a byte of the parenthesised tag that may follow a NaN -/
def isTagByte (b : UInt8) : Bool := isDigit b || (97 ≤ lower b && lower b ≤ 122) || b = 95

/-- the rest after the tag of a NaN, if there is one -/
def afterTag (t : Bytes) : Bytes :=
  match t with
  | 40 :: r =>
    match r.dropWhile isTagByte with
    | 41 :: r' => r'
    | _ => t
  | _ => t

/-- a word for a value that is not finite, at the start of a text -/
def special? (negative : Bool) (t : Bytes) : Option (Number × Bytes) :=
  match word? (bytes "nan") t with
  | some r => some (.nan, afterTag r)
  | none =>
    match word? (bytes "infinity") t with
    | some r => some (.infinity negative, r)
    | none => (word? (bytes "inf") t).map fun r => (.infinity negative, r)

/-- the numeral at the start of a text, with the rest -/
def scan? (t : Bytes) : Option (Scanned × Bytes) :=
  let (negative, r) := match t with
    | 45 :: r => (true, r)
    | _ => (false, t)
  match decimal? negative r with
  | some (w, rest) => some (w.scanned, rest)
  | none => (special? negative r).map fun (x, rest) => (.value x, rest)

/-- an out-of-range numeral is small if its exponent has a minus sign, or if it has no exponent and starts with `0.` -/
def looksSmall (t : Bytes) : Bool :=
  match t.dropWhile (fun b => b ≠ 101 ∧ b ≠ 69) with
  | _ :: s :: _ => s = 45
  | [_] => false
  | [] => bytes "0." <+: t

/-- value of a numeral, none if the text is not exactly one. Being out of range is found before text left over. -/
def read? (t : Bytes) : Option Number :=
  match scan? t with
  | some (.outOfRange, _) => some (if looksSmall t then .zero else .infinity false)
  | some (.value x, []) => some x
  | _ => none

end Numeral

end Treewalk
