/-
Tokens: the words, numbers, texts and signs of a source text, and what can
be wrong with its characters.
-/
import BisayaPlus.Diagnostic.Basic
import BisayaPlus.Token.Kind
import BisayaPlus.Value.Basic

namespace BisayaPlus

/-- A token with the text it was read from, the value it stands for if it
is a literal, and the place where it starts. -/
structure Token where
  kind : Token.Kind
  lexeme : String
  literal : Option Value
  span : Span
deriving DecidableEq, Inhabited

namespace Token

/-- The token that ends a text. -/
def endOfText (span : Span) : Token := ⟨.eof, "", none, span⟩

/-- A malformed piece of source text. -/
inductive Fault where
  /-- A character that starts no token. -/
  | unexpected (c : Char)
  /-- A text without closing quote. -/
  | openText
  /-- A quote at the end of its line. -/
  | openCharacter
  /-- Two quotes with nothing between them. -/
  | emptyCharacter
  /-- A character without closing quote, or several between quotes. -/
  | badCharacter
  /-- A bracket at the end of its line. -/
  | openEscape
  /-- A bracket that is not closed after one character. -/
  | badEscape
deriving DecidableEq, Repr

/-- The wording of a fault. -/
def Fault.message : Fault → String
  | unexpected c => s!"Unexpected character '{c}'."
  | openText => "Unterminated string."
  | openCharacter => "Unterminated character literal."
  | emptyCharacter => "Empty character literal."
  | badCharacter => "Unterminated or invalid character literal."
  | openEscape => "Unterminated escape code."
  | badEscape => "Escape code must be a single character in square brackets."

/-- A fault with the place where the malformed piece starts. -/
structure Error where
  fault : Fault
  span : Span
deriving DecidableEq, Repr

/-- The error as it is shown. -/
def Error.diagnostic (e : Error) : Diagnostic where
  code := .lexical
  message := e.fault.message
  span := e.span

end Token

end BisayaPlus
