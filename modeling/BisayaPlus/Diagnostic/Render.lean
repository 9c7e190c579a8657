/-
A diagnostic with an excerpt of the source: the line it points at and a
caret under the column.

    error[E_TYPE]: Variable 'x' must be of type NUMERO.
      --> hello.bpp:2:14
       |
      2 | MUGNA NUMERO x = 'a'
       |              ^
    help: the initializer produced a Char value
-/
import BisayaPlus.Diagnostic.Basic

namespace BisayaPlus

/-- The lines of a text. A line ends at a line feed, and a carriage
return right before the line feed belongs to the ending. After the last
ending no further empty line follows; a text that does not end in a line
feed keeps its last characters as they are. -/
def Text.lines : List Char → List (List Char)
  | [] => []
  | '\n' :: cs => [] :: lines cs
  | '\r' :: '\n' :: cs => [] :: lines cs
  | c :: cs =>
      match lines cs with
      | [] => [[c]]
      | l :: ls => (c :: l) :: ls

namespace Diagnostic

/-- The line of the source that a span points at; a place on no line has
the first line for line zero and an empty line beyond the end. -/
def sourceLine (source : String) (line : Nat) : String :=
  String.ofList ((Text.lines source.toList).getD (line - 1) [])

/-- A number with blanks before it up to three places. -/
def lineNumber (n : Nat) : String :=
  let digits := toString n
  String.ofList (List.replicate (3 - digits.length) ' ') ++ digits

/-- The diagnostic with the excerpt, as lines. Columns are shown counted
from one. -/
def render (file source : String) (d : Diagnostic) : String :=
  let column := d.span.column
  let margin := String.ofList (List.replicate column ' ')
  s!"error[{d.code.text}]{d.location}: {d.message}\n"
    ++ s!"  --> {file}:{d.span.line}:{column + 1}\n"
    ++ "   |\n"
    ++ s!"{lineNumber d.span.line} | {sourceLine source d.span.line}\n"
    ++ s!"   | {margin}^\n"
    ++ (match d.help with
        | some help => s!"help: {help}\n"
        | none => "")

end Diagnostic

end BisayaPlus
