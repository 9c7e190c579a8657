/-
A finite double as an exact dyadic number: a sign, a mantissa `m` and an
exponent `e`, worth `m * 2 ^ e`. Shortest digits (`Number/Shortest.lean`)
and the remainder compute on these parts in whole numbers, without
rounding.

The remainder is that of a division truncated toward zero: `x - y * n` for
the whole number `n` of `x / y` without its fraction. It has the sign of
`x` and is smaller in size than `y`.
-/
namespace BisayaPlus.Number

/-- The number `mantissa * 2 ^ exponent`, negated if `negative`. -/
structure Dyadic where
  negative : Bool
  mantissa : Nat
  exponent : Int
deriving DecidableEq, Repr

namespace Dyadic

/-- The least exponent of a double: one unit of the subnormal numbers is
`2 ^ (-1074)`. -/
def leastExponent : Int := -1074

/-- The parts of a finite double. A biased exponent of zero marks the
subnormal numbers, which share the least exponent and have no hidden
leading bit. -/
def ofFloat (x : Float) : Dyadic :=
  let bits := x.toBits.toNat
  let biased := bits / Nat.pow 2 52 % Nat.pow 2 11
  let fraction := bits % Nat.pow 2 52
  { negative := bits / Nat.pow 2 63 == 1
    mantissa := if biased = 0 then fraction else Nat.pow 2 52 + fraction
    exponent := (max biased 1 : Nat) - 1075 }

/-- The double with these parts. The mantissa must be below `2 ^ 53` and
the exponent that of a double; then no rounding takes place. The mantissa
is moved up as far as the width and the least exponent allow, because
that is the form in which doubles are stored. -/
def toFloat (d : Dyadic) : Float :=
  let shift := min (52 - d.mantissa.log2) (d.exponent - leastExponent).toNat
  let m := d.mantissa * Nat.pow 2 shift
  let magnitude :=
    if m < Nat.pow 2 52 then m
    else (d.exponent - shift + 1075).toNat * Nat.pow 2 52 + (m - Nat.pow 2 52)
  Float.ofBits (UInt64.ofNat ((if d.negative then Nat.pow 2 63 else 0)
    + magnitude))

/-- The remainder of two finite numbers, the second not zero: both sizes
are written with the smaller of the two exponents, and the remainder of
the mantissas is again the mantissa of a double. -/
def remainder (x y : Dyadic) : Dyadic :=
  let e := min x.exponent y.exponent
  let mx := x.mantissa * Nat.pow 2 (x.exponent - e).toNat
  let my := y.mantissa * Nat.pow 2 (y.exponent - e).toNat
  { negative := x.negative, mantissa := mx % my, exponent := e }

end Dyadic

/-- The remainder of `x / y`. There is none of an infinite number, nor of
a division by zero; a finite number is its own remainder by infinity. -/
def remainder (x y : Float) : Float :=
  if x.isNaN || y.isNaN || x.isInf || y == 0.0 then 0.0 / 0.0
  else if y.isInf then x
  else (Dyadic.remainder (Dyadic.ofFloat x) (Dyadic.ofFloat y)).toFloat

end BisayaPlus.Number
