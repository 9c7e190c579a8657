/-
Writing a double as text. The digits are always the shortest ones
(`Number/Shortest.lean`); a `Layout` says how they are set out. The
layouts in use stand with the formats that use them: `Value.layout` for
printed values and `Json.layout` for dumps.
-/
import BisayaPlus.Number.Shortest

namespace BisayaPlus.Number

/-- How the digits of a number are set out. -/
structure Layout where
  /-- Positions of the decimal point for which no exponent is written. -/
  plain : Int → Bool
  /-- A number without fraction is written with `.0`. -/
  keepsFraction : Bool
  /-- Which of two equally near shortest decimals is written. -/
  tie : Tie

namespace Layout

/-- The digits with the decimal point at its place, filled up with zeros
on the side that lacks digits. -/
def positional (keepsFraction : Bool) (d : Digits) : List Char :=
  let size : Int := d.digits.length
  if d.point ≤ 0 then
    '0' :: '.' :: (List.replicate (-d.point).toNat '0' ++ d.digits)
  else if size ≤ d.point then
    d.digits ++ List.replicate (d.point - size).toNat '0'
      ++ (if keepsFraction then ['.', '0'] else [])
  else
    d.digits.take d.point.toNat ++ '.' :: d.digits.drop d.point.toNat

/-- One digit, the others after a point, and the exponent with its sign. -/
def scientific (d : Digits) : List Char :=
  let exponent := d.point - 1
  let mantissa :=
    match d.digits with
    | first :: second :: more => first :: '.' :: second :: more
    | short => short
  mantissa ++ 'e' :: (if exponent < 0 then '-' else '+')
    :: Nat.toDigits 10 exponent.natAbs

/-- The text of a finite number without its sign. -/
def magnitude (l : Layout) (d : Dyadic) : List Char :=
  if d.mantissa = 0 then '0' :: (if l.keepsFraction then ['.', '0'] else [])
  else
    let digits := shortest l.tie d.mantissa d.exponent
    if l.plain digits.point then positional l.keepsFraction digits
      else scientific digits

/-- The text of a finite number; zero keeps its sign. -/
def write (l : Layout) (x : Float) : List Char :=
  let d := Dyadic.ofFloat x
  if d.negative then '-' :: l.magnitude d else l.magnitude d

end Layout

end BisayaPlus.Number
