/-
The values of a running program, and their text.
-/
import BisayaPlus.Number.Layout

namespace BisayaPlus

/-- What an expression evaluates to and a variable holds. -/
inductive Value where
  | number (x : Float)
  | truth (b : Bool)
  | char (c : Char)
  | text (s : String)
  | null
deriving DecidableEq, Inhabited

namespace Value

/-- What a value is called in the help line of a type fault. -/
def typeName : Value → String
  | number _ => "Number"
  | truth _ => "Bool"
  | char _ => "Char"
  | text _ => "String"
  | null => "Null"

/-- The number, of a numeric value. -/
def asNumber? : Value → Option Float
  | number x => some x
  | _ => none

/-- Conditions take every value: `null` and a false truth value count as
false and all else, zero and the empty text included, as true. -/
def isTruthy : Value → Bool
  | null => false
  | truth b => b
  | _ => true

/-- The equality of `==` and `<>`. Numbers are equal as numbers, so that
both zeros are and a NaN is not; values of different kinds never are. -/
def equal : Value → Value → Bool
  | number x, number y => x == y
  | truth a, truth b => a == b
  | char a, char b => a == b
  | text a, text b => a == b
  | null, null => true
  | _, _ => false

/-- Printed numbers never have an exponent and no `.0`. -/
def layout : Number.Layout where
  plain _ := true
  keepsFraction := false
  tie := .up

/-- The text of a number; a NaN shows no sign. -/
def numberText (x : Float) : List Char :=
  if x.isNaN then "NaN".toList
  else if x.isInf then (if x < 0.0 then "-inf".toList else "inf".toList)
  else layout.write x

/-- The text of a value, as it is printed and joined to other texts. -/
def display : Value → String
  | number x => String.ofList (numberText x)
  | truth true => "OO"
  | truth false => "DILI"
  | char c => String.singleton c
  | text s => s
  | null => "null"

end Value

end BisayaPlus
