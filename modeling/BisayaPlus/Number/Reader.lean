/-
Reading a decimal number.

    number   = [sign] (decimal [exponent] | "inf" | "infinity" | "nan")
    decimal  = digits ["." [digits]] | "." digits
    exponent = ("e" | "E") [sign] digits

The words for the special numbers are read in any case. The result is the
double nearest to the decimal, ties to the even mantissa, and infinity
where the decimal is beyond the largest double.
-/
namespace BisayaPlus.Number

/-- The number that a list of decimal digits stands for. -/
def ofDigits (ds : List Char) : Nat :=
  ds.foldl (fun n c => 10 * n + (c.toNat - '0'.toNat)) 0

/-- The double nearest to `m * 10 ^ e`. -/
def ofScaled (m : Nat) (e : Int) : Float :=
  Float.ofScientific m (e < 0) e.natAbs

/-- The double nearest to the decimal with these digits before and after
the point. -/
def ofDecimal (whole fraction : List Char) : Float :=
  ofScaled (ofDigits (whole ++ fraction)) (-fraction.length)

/-- Takes a sign off the front; `true` for a minus. -/
def takeSign : List Char → Bool × List Char
  | '-' :: cs => (true, cs)
  | '+' :: cs => (false, cs)
  | cs => (false, cs)

/-- An exponent part that ends the text; none at all counts as zero. -/
def readExponent : List Char → Option Int
  | [] => some 0
  | c :: cs =>
      if c == 'e' || c == 'E' then
        let (negative, ds) := takeSign cs
        if ds.isEmpty || !ds.all Char.isDigit then none
        else some (if negative then -(ofDigits ds : Int) else ofDigits ds)
      else none

/-- A decimal with an optional exponent. -/
def readDecimal (cs : List Char) : Option Float :=
  let whole := cs.takeWhile Char.isDigit
  let rest := cs.drop whole.length
  let (fraction, rest) :=
    match rest with
    | '.' :: more =>
        let fraction := more.takeWhile Char.isDigit
        (fraction, more.drop fraction.length)
    | _ => ([], rest)
  if whole.isEmpty && fraction.isEmpty then none
  else
    (readExponent rest).map fun e =>
      ofScaled (ofDigits (whole ++ fraction)) (e - fraction.length)

/-- The special numbers, in any case. -/
def readWord (cs : List Char) : Option Float :=
  let word := cs.map Char.toLower
  if word = "inf".toList ∨ word = "infinity".toList then some (1.0 / 0.0)
  else if word = "nan".toList then some (0.0 / 0.0)
  else none

/-- The number that a whole text spells, if it spells one. -/
def read? (cs : List Char) : Option Float :=
  let (negative, body) := takeSign cs
  let size := (readWord body).or (readDecimal body)
  size.map fun x => if negative then -x else x

end BisayaPlus.Number
