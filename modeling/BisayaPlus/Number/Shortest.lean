/-
The fewest decimal digits that read back as the same double.

A double stands for every real number that rounds to it: an interval
around its value, half way to the neighbour on each side, with the ends
included iff the mantissa is even. `shortest` looks at the decimal grids
`10 ^ e` from coarse to fine and stops at the first one with a point in
that interval. If a grid has such a point, one of the two grid points
next to the value is one, so only those two are tested; of two hits the
nearer is taken. All comparisons are between whole numbers.
-/
import BisayaPlus.Number.Dyadic

namespace BisayaPlus.Number

/-- Which of two equally near decimals is taken. -/
inductive Tie where
  | up
  | toEven
deriving DecidableEq, Repr

/-- The decimal `0.d₁d₂… * 10 ^ point`, without zeros at the end. -/
structure Digits where
  digits : List Char
  point : Int
deriving DecidableEq, Repr

/-- The digits of `n * 10 ^ e`. -/
def Digits.ofScaled (n : Nat) (e : Int) : Digits :=
  let ds := Nat.toDigits 10 n
  { digits := (ds.reverse.dropWhile (· == '0')).reverse
    point := ds.length + e }

-- ================================================ the rounding interval

/-- A positive value and the interval that rounds to it, in units of one
decimal grid: `value / unit` grid steps, with the ends `low / unit` and
`high / unit`. -/
structure Grid where
  value : Nat
  low : Nat
  high : Nat
  unit : Nat
  closed : Bool

/-- The interval of `m * 2 ^ q` on the grid `10 ^ e`. Ends are counted in
quarters of the mantissa's unit: half a unit on either side, but only a
quarter below the least mantissa of a binade, whose lower neighbour is
nearer. -/
def Grid.of (m : Nat) (q e : Int) : Grid :=
  let scale := Nat.pow 2 (q - 2).toNat * Nat.pow 10 (-e).toNat
  let below := if m = Nat.pow 2 52 ∧ q ≠ Dyadic.leastExponent then 1 else 2
  { value := 4 * m * scale
    low := (4 * m - below) * scale
    high := (4 * m + 2) * scale
    unit := Nat.pow 2 (2 - q).toNat * Nat.pow 10 e.toNat
    closed := m % 2 == 0 }

namespace Grid

/-- Grid point `n` rounds to the value. -/
def holds (g : Grid) (n : Nat) : Bool :=
  if g.closed then g.low ≤ n * g.unit && n * g.unit ≤ g.high
  else g.low < n * g.unit && n * g.unit < g.high

/-- The nearer of the grid points `n` and `n + 1` on either side of the
value. -/
def nearer (tie : Tie) (g : Grid) (n : Nat) : Nat :=
  match compare (2 * g.value) ((2 * n + 1) * g.unit), tie with
  | .lt, _ => n
  | .gt, _ => n + 1
  | .eq, .up => n + 1
  | .eq, .toEven => n + n % 2

/-- The grid point that stands for the value, if the grid has one. -/
def choose (tie : Tie) (g : Grid) : Option Nat :=
  let n := g.value / g.unit
  match g.holds n, g.holds (n + 1) with
  | true, true => some (g.nearer tie n)
  | true, false => some n
  | false, true => some (n + 1)
  | false, false => none

end Grid

-- =============================================== from coarse to fine

/-- The number of decimal digits before the point of `m * 2 ^ q`, negative
for a number with zeros after the point: the least `k` with
`m * 2 ^ q < 10 ^ k`. Numbers below one are raised by `10 ^ 324` first,
which brings even the least double above one. -/
def decimalPoint (m : Nat) (q : Int) : Int :=
  let whole := m * Nat.pow 2 q.toNat / Nat.pow 2 (-q).toNat
  if whole = 0 then
    (Nat.toDigits 10 (m * Nat.pow 10 324 / Nat.pow 2 (-q).toNat)).length - 324
  else (Nat.toDigits 10 whole).length

/-- Tries the grids `10 ^ e`, `10 ^ (e - 1)`, …; after the given number of
grids the point below the value stands in. -/
def refine (tie : Tie) (m : Nat) (q : Int) : Nat → Int → Digits
  | 0, e =>
      let g := Grid.of m q e
      Digits.ofScaled (g.value / g.unit) e
  | grids + 1, e =>
      match (Grid.of m q e).choose tie with
      | some n => Digits.ofScaled n e
      | none => refine tie m q grids (e - 1)

/-- The fewest digits that round to the positive number `m * 2 ^ q`. A
double is fixed by 17 digits, so the search ends by then. -/
def shortest (tie : Tie) (m : Nat) (q : Int) : Digits :=
  refine tie m q 17 (decimalPoint m q - 1)

end BisayaPlus.Number
