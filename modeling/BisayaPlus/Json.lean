/-
JSON values and their indented text, the form of the dumps. Objects keep
the order of their fields.
-/
import BisayaPlus.Number.Layout

namespace BisayaPlus

/-- A JSON value. -/
inductive Json where
  | null
  | bool (b : Bool)
  | nat (n : Nat)
  | number (x : Float)
  | string (s : String)
  | array (items : List Json)
  | object (fields : List (String × Json))
deriving Inhabited

namespace Json

/-- Numbers have a fraction; those whose decimal point lies more than 16
digits behind or four zeros before the first digit are written with an
exponent. -/
def layout : Number.Layout where
  plain k := -4 ≤ k && k ≤ 16
  keepsFraction := true
  tie := .toEven

/-- There is no JSON text for an infinite number or a NaN; `null` stands
for them. -/
def numberText (x : Float) : String :=
  if x.isFinite then String.ofList (layout.write x) else "null"

/-- A character between quotes: quotes, backslashes and control characters
are escaped. -/
def escape (c : Char) : List Char :=
  match c with
  | '"' => ['\\', '"']
  | '\\' => ['\\', '\\']
  | '\x08' => ['\\', 'b']
  | '\x0c' => ['\\', 'f']
  | '\n' => ['\\', 'n']
  | '\r' => ['\\', 'r']
  | '\t' => ['\\', 't']
  | c =>
      if c.toNat < 32 then
        ['\\', 'u', '0', '0', Nat.digitChar (c.toNat / 16),
          Nat.digitChar (c.toNat % 16)]
      else [c]

/-- A text between quotes. -/
def quote (s : String) : String :=
  String.ofList ('"' :: (s.toList.flatMap escape ++ ['"']))

/-- A line break and the indentation of a level. -/
def newline (level : Nat) : String :=
  String.ofList ('\n' :: List.replicate (2 * level) ' ')

mutual

/-- The text of a value at a level of indentation: two spaces a level, one
element a line. -/
def pretty (level : Nat) : Json → String
  | null => "null"
  | bool b => if b then "true" else "false"
  | nat n => toString n
  | number x => numberText x
  | string s => quote s
  | array items =>
      if items.isEmpty then "[]"
      else "[" ++ ",".intercalate (prettyItems (level + 1) items)
        ++ newline level ++ "]"
  | object fields =>
      if fields.isEmpty then "\x7b\x7d"
      else
        "\x7b" ++ ",".intercalate (prettyFields (level + 1) fields)
          ++ newline level ++ "\x7d"

/-- The elements of an array, each on a line of its own. -/
def prettyItems (level : Nat) : List Json → List String
  | [] => []
  | j :: js => (newline level ++ pretty level j) :: prettyItems level js

/-- The fields of an object, each on a line of its own. -/
def prettyFields (level : Nat) : List (String × Json) → List String
  | [] => []
  | (key, j) :: fs =>
      (newline level ++ quote key ++ ": " ++ pretty level j)
        :: prettyFields level fs

end

end Json

end BisayaPlus
