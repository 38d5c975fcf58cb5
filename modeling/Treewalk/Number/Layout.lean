/-
The text of a number: digits laid out in plain or scientific notation.

Plain notation covers the decimal exponents from -6 up to 20; outside it, one digit stands before the point and the
exponent follows with its sign and no padding. Both zeros are `0`.
-/
import Treewalk.Number.Shortest
import Treewalk.Text

namespace Treewalk

namespace Decimal

/-- least decimal exponent in plain notation -/
def plainFrom : Int := -6

/-- least decimal exponent above plain notation -/
def plainTo : Int := 21

/-- the digits in plain notation: `point` of them, or zeros in their place, stand before the point -/
def plain (digits : Bytes) (point : Int) : Bytes :=
  let zeros (n : Int) : Bytes := List.replicate n.toNat 48
  if digits.length ≤ point then digits ++ zeros (point - digits.length)
  else if 0 < point then digits.take point.toNat ++ bytes "." ++ digits.drop point.toNat
  else bytes "0." ++ zeros (-point) ++ digits

/-- the digits with one before the point, and the exponent -/
def scientific (digits : Bytes) (exponent : Int) : Bytes :=
  let fraction := digits.drop 1
  digits.take 1 ++ (if fraction.isEmpty then [] else bytes "." ++ fraction) ++
    bytes (if exponent < 0 then "e-" else "e+") ++ Bytes.ofNat exponent.natAbs

/-- text of significant digits whose first one stands for `10 ^ exponent` -/
def layout (digits : Bytes) (exponent : Int) : Bytes :=
  if plainFrom ≤ exponent ∧ exponent < plainTo then plain digits (exponent + 1) else scientific digits exponent

/-- text of a decimal without trailing zeros in its digits -/
def text (d : Decimal) : Bytes :=
  let digits := Bytes.ofNat d.digits
  layout digits (d.exponent + digits.length - 1)

end Decimal

/-- text of a number as programs print it -/
def Number.text : Number → Bytes
  | .nan => bytes "NaN"
  | .infinity s => bytes (if s then "-Infinity" else "Infinity")
  | .finite s x =>
    if x.significand = 0 then bytes "0"
    else (if s then bytes "-" else []) ++ x.shortest.text

end Treewalk
