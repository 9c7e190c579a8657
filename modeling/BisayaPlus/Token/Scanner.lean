/-
Scanning with a cursor.

`Token/Scan.lean` cuts slices off the front of a text, and each of them is
a part of it by the way it is cut off. Here the same text is scanned the
way a machine scans it: the characters stand in a row that never changes,
and a cursor moves along it, with the place where the line starts kept
beside it. Nothing keeps an index inside the row, and nothing says that a
loop gets anywhere. A run that looks at a character beside the row, takes
a piece that is not in it or subtracts more than there is crashes, and so
does a run that goes around one loop more often than it may.

For each token that the machine asks for it notes where the cursor stood
before and after (`Call`). That every run has an answer, the one of
`Token.scan`, and what its calls are, is shown in
`Proofs/ScannerRuns.lean`.
-/
import BisayaPlus.Token.Scan

namespace BisayaPlus.Token

-- =========================================================== the state

/-- Why a run has no answer. -/
inductive Crash where
  /-- There is no character at the place that was looked at. -/
  | index (i : Nat)
  /-- The text has no piece from `i` up to `j`. -/
  | slice (i j : Nat)
  /-- More than `a` was to be taken from `a`. -/
  | below (a b : Nat)
  /-- A loop went around too often. -/
  | turns
deriving DecidableEq

/-- The scanner: where the piece starts that is read, where the cursor is,
the line it is in and where that line starts, the place of the piece, and
what was found so far. -/
structure Scanner where
  start : Nat
  current : Nat
  line : Nat
  lineStart : Nat
  tokenLine : Nat
  tokenColumn : Nat
  tokens : List Token
  errors : List Diagnostic

/-- One token that was asked for: the scanner before, and where it left
the cursor. -/
structure Call where
  lineStart : Nat
  start : Nat
  current : Nat
  stop : Nat
deriving DecidableEq

/-- What the call passed. -/
def Call.text (row : List Char) (call : Call) : List Char :=
  (row.take call.stop).drop call.start

namespace Scanner

/-- A step of the machine. -/
abbrev Step := StateT Scanner (Except Crash)

/-- The scanner before the first character. -/
def initial : Scanner := ⟨0, 0, 1, 0, 1, 0, [], []⟩

-- ========================================================== characters

/-- The cursor is behind the last character. -/
def atEnd (row : List Char) : Step Bool := return row.length ≤ (← get).current

/-- Looks at the character at a place. -/
def look (row : List Char) (i : Nat) : Step Char :=
  match row[i]? with
  | some c => return c
  | none => throw (.index i)

/-- Passes a character. -/
def advance (row : List Char) : Step Char := do
  let c ← look row (← get).current
  modify fun s => { s with current := s.current + 1 }
  return c

/-- The character under the cursor, and a zero character at the end. -/
def peek (row : List Char) : Step Char := do
  if ← atEnd row then return '\x00'
  else look row (← get).current

/-- The character behind the one under the cursor, and a zero character if
there is none. -/
def peekNext (row : List Char) : Step Char := do
  let i := (← get).current + 1
  if row.length ≤ i then return '\x00'
  else look row i

/-- Passes the character that is asked for, if it is there. -/
def pass (row : List Char) (expected : Char) : Step Bool := do
  if ← atEnd row then return false
  else if (← look row (← get).current) = expected then
    modify fun s => { s with current := s.current + 1 }
    return true
  else return false

/-- Goes on to the next line. -/
def newline : Step Unit :=
  modify fun s => { s with line := s.line + 1, lineStart := s.current }

-- ============================================================== pieces

/-- The piece of the row from `i` up to `j`. -/
def slice (row : List Char) (i j : Nat) : Step (List Char) :=
  if i ≤ j ∧ j ≤ row.length then return (row.take j).drop i
  else throw (.slice i j)

/-- The difference of two places. -/
def minus (a b : Nat) : Step Nat :=
  if b ≤ a then return a - b
  else throw (.below a b)

/-- The text that was read for the token so far. -/
def lexeme (row : List Char) : Step (List Char) := do
  let s ← get
  slice row s.start s.current

/-- Adds the token that was read. -/
def addToken (row : List Char) (kind : Kind) (literal : Option Value) :
    Step Unit := do
  let text ← lexeme row
  modify fun s =>
    let token : Token :=
      ⟨kind, String.ofList text, literal, ⟨s.tokenLine, s.tokenColumn⟩⟩
    { s with tokens := s.tokens ++ [token] }

/-- Adds an error at the place of the token. -/
def report (message : String) : Step Unit :=
  modify fun s =>
    let error : Diagnostic :=
      { code := .lexical, message := message,
        span := ⟨s.tokenLine, s.tokenColumn⟩ }
    { s with errors := s.errors ++ [error] }

-- =============================================================== loops

/-- Goes around a loop as long as the test holds, less than `n` times. -/
def repeatWhile (test : Step Bool) (body : Step Unit) : Nat → Step Unit
  | 0 => throw .turns
  | n + 1 => do
      if ← test then
        body
        repeatWhile test body n
      else return ()

/-- The first place from `i` on with no character of the class. -/
def probeWhile (row : List Char) (p : Char → Bool) : Nat → (i : Nat) → Step Nat
  | 0, _ => throw .turns
  | n + 1, i => do
      if row.length ≤ i then return i
      else if p (← look row i) then probeWhile row p n (i + 1)
      else return i

/-- Passes characters of a class. -/
def passWhile (row : List Char) (p : Char → Bool) (n : Nat) : Step Unit :=
  repeatWhile (return p (← peek row)) (do let _ ← advance row) n

/-- Passes the characters before `stop`, of which the row may have none. -/
def passUntil (row : List Char) (stop : Char) (body : Step Unit) (n : Nat) :
    Step Unit :=
  repeatWhile (return (← peek row) ≠ stop && !(← atEnd row)) body n

-- ============================================================ literals

/-- Adds the token of a text in double quotes. -/
def addText (row body : List Char) : Step Unit :=
  match String.ofList body with
  | "OO" => addToken row .oo (some (.truth true))
  | "DILI" => addToken row .dili (some (.truth false))
  | s => addToken row .string (some (.text s))

/-- Reads on behind a double quote. -/
def string (row : List Char) (n : Nat) : Step Unit := do
  passUntil row '"' (do if (← advance row) = '\n' then newline) n
  if ← atEnd row then report "Unterminated string."
  else
    let _ ← advance row
    let s ← get
    let body ← slice row (s.start + 1) (← minus s.current 1)
    addText row body

/-- Passes what is left of a malformed character: from the place `i` on, all
up to a closing quote in the line. -/
def skipToClosingQuote (row : List Char) : Nat → (i : Nat) → Step Unit
  | 0, _ => throw .turns
  | n + 1, i => do
      if row.length ≤ i then return ()
      else
        let c ← look row i
        if c = '\n' then return ()
        else if c = '\'' then modify fun s => { s with current := i + 1 }
        else skipToClosingQuote row n (i + 1)

/-- The cursor is at the end of a line. -/
def atLineEnd (row : List Char) : Step Bool := do
  if ← atEnd row then return true
  else return (← peek row) = '\n'

/-- Passes the character that a backslash stands before; at the end of the
row the backslash stands for itself. -/
def unescaped (row : List Char) (c : Char) : Step Char := do
  if c = '\\' then
    if ← atEnd row then return c
    else return Slice.unescape (← advance row)
  else return c

/-- Reads on behind the character `c`: the closing quote must come next. -/
def closeCharacter (row : List Char) (n : Nat) (c : Char) : Step Unit := do
  if ← pass row '\'' then addToken row .character (some (.char c))
  else
    skipToClosingQuote row n (← get).current
    report "Unterminated or invalid character literal."

/-- Reads on behind a single quote. -/
def character (row : List Char) (n : Nat) : Step Unit := do
  if ← atLineEnd row then report "Unterminated character literal."
  else
    let c ← advance row
    if c = '\'' then report "Empty character literal."
    else closeCharacter row n (← unescaped row c)

/-- Reads on behind an opening bracket. -/
def escapeCode (row : List Char) : Step Unit := do
  if ← atLineEnd row then report "Unterminated escape code."
  else
    let c ← advance row
    if ← pass row ']' then addToken row .escapeCode (some (.char c))
    else report "Escape code must be a single character in square brackets."

-- ================================================ numbers and words

/-- Adds a number, if the text spells one. -/
def addNumber (row text : List Char) : Step Unit :=
  match Number.read? text with
  | some x => addToken row .number (some (.number x))
  | none =>
      let shown := String.ofList text
      report s!"Invalid number '{shown}'."

/-- A point and a digit come next. -/
def atFraction (row : List Char) : Step Bool := do
  if (← peek row) = '.' then return (← peekNext row).isDigit
  else return false

/-- Passes a point and digits, if they come next. -/
def fraction (row : List Char) (n : Nat) : Step Unit := do
  if ← atFraction row then
    let _ ← advance row
    passWhile row Char.isDigit n
  else return ()

/-- Reads on behind a digit. -/
def number (row : List Char) (n : Nat) : Step Unit := do
  passWhile row Char.isDigit n
  fraction row n
  addNumber row (← lexeme row)

/-- Passes the second word of a pair, if it comes next. -/
def secondWord (row first : List Char) (n : Nat) : Step (Option Kind) := do
  let s ← get
  let i ← probeWhile row (fun c => c == ' ' || c == '\t') n s.current
  if i = s.current then return none
  else
    let j ← probeWhile row Slice.isWordChar n i
    if i = j then return none
    else
      let second ← slice row i j
      match keyword? (String.ofList first ++ " " ++ String.ofList second) with
      | none => return none
      | some kind =>
          modify fun s => { s with current := j }
          return some kind

/-- The kind of the pair that the word opens, if it opens one here. -/
def pairKind (row first : List Char) (n : Nat) : Step (Option Kind) :=
  if startsPair (String.ofList first) then secondWord row first n
    else return none

/-- Reads on behind the first character of a word. -/
def word (row : List Char) (n : Nat) : Step Unit := do
  passWhile row Slice.isWordChar n
  let first ← lexeme row
  let pair ← pairKind row first n
  addToken row
    (pair.getD ((keyword? (String.ofList first)).getD .identifier)) none

-- ============================================================== tokens

/-- Adds one of two tokens, by the character that comes next. -/
def addEither (row : List Char) (expected : Char) (kind other : Kind) :
    Step Unit := do
  if ← pass row expected then addToken row kind none
  else addToken row other none

/-- Reads on behind the first character. -/
def scanRest (row : List Char) (n : Nat) : Char → Step Unit
  | ' ' | '\r' | '\t' => return ()
  | '\n' => newline
  | '(' => addToken row .leftParen none
  | ')' => addToken row .rightParen none
  | '{' => addToken row .leftBrace none
  | '}' => addToken row .rightBrace none
  | ',' => addToken row .comma none
  | ':' => addToken row .colon none
  | '&' => addToken row .ampersand none
  | '$' => addToken row .dollar none
  | '+' => addToken row .plus none
  | '*' => addToken row .star none
  | '/' => addToken row .slash none
  | '%' => addToken row .percent none
  | '-' => do
      if ← pass row '-' then passUntil row '\n' (do let _ ← advance row) n
      else addToken row .minus none
  | '=' => addEither row '=' .equalEqual .assign
  | '<' => do
      if ← pass row '=' then addToken row .lessEqual none
      else addEither row '>' .notEqual .less
  | '>' => addEither row '=' .greaterEqual .greater
  | '"' => string row n
  | '\'' => character row n
  | '[' => escapeCode row
  | c =>
      if c.isDigit then number row n
      else if Slice.isWordStart c then word row n
      else report s!"Unexpected character '{c}'."

/-- Reads one token, or something else that is passed. -/
def scanToken (row : List Char) (n : Nat) : Step Unit := do
  scanRest row n (← advance row)

/-- Makes ready for the next token. -/
def begin : Step Unit := do
  let s ← get
  let column ← minus s.current s.lineStart
  set { s with start := s.current, tokenLine := s.line, tokenColumn := column }

/-- Adds the end token. -/
def finish : Step Unit := do
  let s ← get
  let column ← minus s.current s.lineStart
  set { s with tokens := s.tokens ++ [endOfText ⟨s.line, column⟩] }

/-- Reads tokens up to the end of the row, and gives back the calls. -/
def scanTokens (row : List Char) (n : Nat) : Nat → Step (List Call)
  | 0 => throw .turns
  | k + 1 => do
      if ← atEnd row then
        finish
        return []
      else
        begin
        let before ← get
        scanToken row n
        let after ← get
        let calls ← scanTokens row n k
        return ⟨before.lineStart, before.start, before.current, after.current⟩
          :: calls

/-- Scans a text with loops of less than `n` turns: the tokens, or all the
errors if there are any, and the calls. -/
def tokenize (n : Nat) (source : String) :
    Except Crash (Except (List Diagnostic) (List Token) × List Call) := do
  let (calls, s) ← scanTokens source.toList n n initial
  return (if s.errors.isEmpty then .ok s.tokens else .error s.errors, calls)

end Scanner

end BisayaPlus.Token
