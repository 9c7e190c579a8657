/-
The kinds of token. The words of the language have one kind each, named
by the word; a pair of words that acts as one keyword, `KUNG DILI`,
`KUNG WALA` or `ALANG SA`, has a kind of its own.
-/
namespace BisayaPlus.Token

/-- What a token is, apart from its text. -/
inductive Kind where
  | leftParen | rightParen | leftBrace | rightBrace | comma | colon | ampersand
      | dollar
  | plus | minus | star | slash | percent
  | assign | equalEqual | notEqual | less | lessEqual | greater | greaterEqual
  /-- `SUGOD` opens a program. -/
  | sugod
  /-- `KATAPUSAN` closes a program. -/
  | katapusan
  /-- `MUGNA` opens a declaration. -/
  | mugna
  /-- `PUNDOK` stands before the body of a branch or loop. -/
  | pundok
  /-- `KUNG` opens a conditional. -/
  | kung
  /-- `KUNG DILI` opens a further condition. -/
  | kungDili
  /-- `KUNG WALA` opens the last branch. -/
  | kungWala
  /-- `ALANG SA` opens a loop. -/
  | alangSa
  /-- `UG` is the conjunction. -/
  | ug
  /-- `O` is the disjunction. -/
  | o
  /-- `IPAKITA` prints. -/
  | ipakita
  /-- `DAWAT` reads input. -/
  | dawat
  | number | string | character | escapeCode
  /-- `OO` is the truth value true. -/
  | oo
  /-- `DILI` is the truth value false, and before a parenthesis the
  negation. -/
  | dili
  | numero | tipik | letra | tinuod
  | identifier
  | eof
deriving DecidableEq, Repr, Inhabited

namespace Kind

/-- The name under which dumps show a kind. -/
def name : Kind → String
  | leftParen => "LeftParen"
  | rightParen => "RightParen"
  | leftBrace => "LeftBrace"
  | rightBrace => "RightBrace"
  | comma => "Comma"
  | colon => "Colon"
  | ampersand => "Ampersand"
  | dollar => "Dollar"
  | plus => "Plus"
  | minus => "Minus"
  | star => "Star"
  | slash => "Slash"
  | percent => "Percent"
  | assign => "Assign"
  | equalEqual => "EqualEqual"
  | notEqual => "NotEqual"
  | less => "Less"
  | lessEqual => "LessEqual"
  | greater => "Greater"
  | greaterEqual => "GreaterEqual"
  | sugod => "Start"
  | katapusan => "End"
  | mugna => "Declare"
  | pundok => "Block"
  | kung => "If"
  | kungDili => "ElseIf"
  | kungWala => "Else"
  | alangSa => "For"
  | ug => "And"
  | o => "Or"
  | ipakita => "Print"
  | dawat => "Input"
  | number => "Number"
  | string => "String"
  | character => "Character"
  | escapeCode => "EscapeCode"
  | oo => "True"
  | dili => "False"
  | numero => "Numero"
  | tipik => "Tipik"
  | letra => "Letra"
  | tinuod => "Tinuod"
  | identifier => "Identifier"
  | eof => "Eof"

/-- Every kind, in the order of the definition. -/
def all : List Kind :=
  [leftParen, rightParen, leftBrace, rightBrace, comma, colon, ampersand,
    dollar, plus, minus, star, slash, percent, assign, equalEqual, notEqual,
    less, lessEqual, greater, greaterEqual, sugod, katapusan, mugna, pundok,
    kung, kungDili, kungWala, alangSa, ug, o, ipakita, dawat, number, string,
    character, escapeCode, oo, dili, numero, tipik, letra, tinuod,
    identifier, eof]

/-- The kind shown under a name. -/
def ofName? (s : String) : Option Kind := all.find? (·.name = s)

end Kind

/-- The kind of a keyword, written with one space inside a pair. Keywords
are in capitals only. -/
def keyword? (word : String) : Option Kind :=
  match word with
  | "SUGOD" => some .sugod
  | "KATAPUSAN" => some .katapusan
  | "MUGNA" => some .mugna
  | "NUMERO" => some .numero
  | "TIPIK" => some .tipik
  | "LETRA" => some .letra
  | "TINUOD" => some .tinuod
  | "IPAKITA" => some .ipakita
  | "DAWAT" => some .dawat
  | "KUNG" => some .kung
  | "KUNG WALA" => some .kungWala
  | "KUNG DILI" => some .kungDili
  | "PUNDOK" => some .pundok
  | "ALANG SA" => some .alangSa
  | "OO" => some .oo
  | "DILI" => some .dili
  | "UG" => some .ug
  | "O" => some .o
  | _ => none

/-- The word may be the first of a pair. -/
def startsPair (word : String) : Bool :=
  word == "KUNG" || word == "ALANG"

end BisayaPlus.Token
