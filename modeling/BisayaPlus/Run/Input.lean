/-
Values from lines of input. Line ends are taken off the end of a line and
double quotes out of it; numbers and truth values may have blanks around
them, while a character is taken as it stands.

Blanks are the 25 characters with the Unicode property White_Space; the
source text itself knows only the space, the tab and the two line
characters.
-/
import BisayaPlus.Number.Reader
import BisayaPlus.Run.Fault
import BisayaPlus.Token.Basic

namespace BisayaPlus

namespace Text

/-- The character has the property White_Space. -/
def isBlank (c : Char) : Bool :=
  let n := c.toNat
  (9 ≤ n && n ≤ 13) || n == 32 || n == 0x85 || n == 0xA0 || n == 0x1680
    || (0x2000 ≤ n && n ≤ 0x200A) || n == 0x2028 || n == 0x2029 || n == 0x202F
    || n == 0x205F || n == 0x3000

/-- The text without the characters of a class at its end. -/
def dropEnd (p : Char → Bool) (cs : List Char) : List Char :=
  (cs.reverse.dropWhile p).reverse

/-- The text without blanks at either end. -/
def trim (cs : List Char) : List Char :=
  dropEnd isBlank (cs.dropWhile isBlank)

end Text

namespace Run

/-- The characters of a line that count. -/
def inputText (line : String) : List Char :=
  (Text.dropEnd (fun c => c == '\n' || c == '\r') line.toList).filter (· ≠ '"')

/-- The number a text spells, if it is finite. -/
def inputNumber? (cs : List Char) : Option Float :=
  (Number.read? cs).filter Float.isFinite

/-- The value of a line for a variable. -/
def ofInput (line : String) (type : VarType) (name : Token) :
    Except Error Value :=
  let text := inputText line
  match type with
  | .numero | .tipik =>
      let trimmed := Text.trim text
      match inputNumber? trimmed with
      | some x => .ok (.number x)
      | none =>
          .error ⟨.notNumber name.lexeme type (String.ofList trimmed),
            name.span⟩
  | .tinuod =>
      match String.ofList (Text.trim text) with
      | "OO" => .ok (.truth true)
      | "DILI" => .ok (.truth false)
      | other => .error ⟨.notTruth name.lexeme other, name.span⟩
  | .letra =>
      match text with
      | [c] => .ok (.char c)
      | _ => .error ⟨.notCharacter name.lexeme, name.span⟩

end Run

end BisayaPlus
