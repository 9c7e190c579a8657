/-
One step of the scanner. `Slice.next` looks at a text that is not empty
and says what its first piece is and how many characters that piece has
after the first one. A slice is therefore never empty, and a text is cut
into slices without loss whatever `next` answers: the piece is the first
`extra + 1` characters and the scan goes on behind them
(`Token/Scan.lean`).

A malformed piece takes at least the character it starts with, so that
one mistake is reported once and the scan goes on.
-/
import BisayaPlus.Number.Reader
import BisayaPlus.Token.Basic
import BisayaPlus.Token.Kind
import BisayaPlus.Value.Basic

namespace BisayaPlus.Token

/-- What a slice of the source is. -/
inductive Piece where
  /-- A single space, tab, carriage return or line feed. -/
  | blank
  /-- Two dashes and what follows them on the line. -/
  | comment
  | token (kind : Kind) (literal : Option Value)
  | malformed (fault : Fault)
deriving DecidableEq

/-- The first piece of a text, and how many characters it has after the
first. -/
structure Slice where
  piece : Piece
  extra : Nat
deriving DecidableEq

namespace Slice

/-- A token without literal. -/
def plain (kind : Kind) (extra : Nat) : Slice := ⟨.token kind none, extra⟩

/-- A token that stands for a value. -/
def literal (kind : Kind) (v : Value) (extra : Nat) : Slice :=
  ⟨.token kind (some v), extra⟩

-- ======================================== texts, characters, escapes

/-- What comes after a double quote: the text runs to the next double
quote, over line ends too. The texts `OO` and `DILI` are truth values. -/
def afterQuote (cs : List Char) : Slice :=
  let body := cs.takeWhile (· ≠ '"')
  let size := body.length
  if size = cs.length then ⟨.malformed .openText, size⟩
  else
    match String.ofList body with
    | "OO" => literal .oo (.truth true) (size + 1)
    | "DILI" => literal .dili (.truth false) (size + 1)
    | s => literal .string (.text s) (size + 1)

/-- The character meant by one that follows a backslash. -/
def unescape : Char → Char
  | 'n' => '\n'
  | 't' => '\t'
  | 'r' => '\r'
  | '0' => '\x00'
  | c => c

/-- How much of a text belongs to a malformed character: up to the next
quote on the same line, and nothing if there is none. -/
def toClosingQuote (cs : List Char) : Nat :=
  let skipped := (cs.takeWhile fun c => c ≠ '\'' && c ≠ '\n').length
  match cs.drop skipped with
  | '\'' :: _ => skipped + 1
  | _ => 0

/-- The end of a character: the quote must follow, after `used`
characters behind the opening one. -/
def closeCharacter (c : Char) (used : Nat) : List Char → Slice
  | '\'' :: _ => literal .character (.char c) (used + 1)
  | cs => ⟨.malformed .badCharacter, used + toClosingQuote cs⟩

/-- What comes after a single quote: one character, or a backslash and
one character. -/
def afterApostrophe : List Char → Slice
  | [] => ⟨.malformed .openCharacter, 0⟩
  | '\n' :: _ => ⟨.malformed .openCharacter, 0⟩
  | '\'' :: _ => ⟨.malformed .emptyCharacter, 1⟩
  | '\\' :: c :: cs => closeCharacter (unescape c) 2 cs
  | c :: cs => closeCharacter c 1 cs

/-- What comes after an opening bracket: one character and the closing
bracket. -/
def afterBracket : List Char → Slice
  | [] => ⟨.malformed .openEscape, 0⟩
  | '\n' :: _ => ⟨.malformed .openEscape, 0⟩
  | c :: ']' :: _ => literal .escapeCode (.char c) 2
  | _ => ⟨.malformed .badEscape, 1⟩

-- ================================================ numbers and words

/-- A number that starts with the digit `c`: a point belongs to it only
if a digit follows. -/
def number (c : Char) (cs : List Char) : Slice :=
  let whole := cs.takeWhile Char.isDigit
  match cs.drop whole.length with
  | '.' :: d :: more =>
      if d.isDigit then
        let fraction := d :: more.takeWhile Char.isDigit
        literal .number (.number (Number.ofDecimal (c :: whole) fraction))
          (whole.length + 1 + fraction.length)
      else literal .number (.number (Number.ofDecimal (c :: whole) []))
        whole.length
  | _ =>
      literal .number (.number (Number.ofDecimal (c :: whole) [])) whole.length

/-- Letters, digits and underscores make up words. -/
def isWordChar (c : Char) : Bool := c.isAlphanum || c == '_'

/-- A word starts with a letter or an underscore. -/
def isWordStart (c : Char) : Bool := c.isAlpha || c == '_'

/-- The second word of a pair that `first` opens, read from the text
behind it: the pair's kind and the number of characters up to its end.
Only spaces and tabs may stand between the two. -/
def pair? (first : String) (cs : List Char) : Option (Kind × Nat) :=
  let gap := cs.takeWhile fun c => c == ' ' || c == '\t'
  let second := (cs.drop gap.length).takeWhile isWordChar
  if gap.isEmpty || second.isEmpty then none
  else
    (keyword? (first ++ " " ++ String.ofList second)).map fun kind =>
      (kind, gap.length + second.length)

/-- A word that starts with `c`: a pair of words, a keyword or a name. -/
def word (c : Char) (cs : List Char) : Slice :=
  let tail := cs.takeWhile isWordChar
  let first := String.ofList (c :: tail)
  let pair := if startsPair first then pair? first (cs.drop tail.length)
    else none
  match pair with
  | some (kind, more) => plain kind (tail.length + more)
  | none => plain ((keyword? first).getD .identifier) tail.length

-- ============================================================ the step

/-- The first slice of the text `c :: cs`. -/
def next (c : Char) (cs : List Char) : Slice :=
  match c with
  | ' ' | '\r' | '\t' | '\n' => ⟨.blank, 0⟩
  | '(' => plain .leftParen 0
  | ')' => plain .rightParen 0
  | '{' => plain .leftBrace 0
  | '}' => plain .rightBrace 0
  | ',' => plain .comma 0
  | ':' => plain .colon 0
  | '&' => plain .ampersand 0
  | '$' => plain .dollar 0
  | '+' => plain .plus 0
  | '*' => plain .star 0
  | '/' => plain .slash 0
  | '%' => plain .percent 0
  | '-' =>
      match cs with
      | '-' :: _ => ⟨.comment, (cs.takeWhile (· ≠ '\n')).length⟩
      | _ => plain .minus 0
  | '=' =>
      match cs with
      | '=' :: _ => plain .equalEqual 1
      | _ => plain .assign 0
  | '<' =>
      match cs with
      | '=' :: _ => plain .lessEqual 1
      | '>' :: _ => plain .notEqual 1
      | _ => plain .less 0
  | '>' =>
      match cs with
      | '=' :: _ => plain .greaterEqual 1
      | _ => plain .greater 0
  | '"' => afterQuote cs
  | '\'' => afterApostrophe cs
  | '[' => afterBracket cs
  | c =>
      if c.isDigit then number c cs
      else if isWordStart c then word c cs
      else ⟨.malformed (.unexpected c), 0⟩

end Slice

end BisayaPlus.Token
