/-
Reading with a cursor.

`Parse/` reads a program off the front of a list of tokens, and each answer
there carries the proof that it leaves fewer tokens. Here the same program
is read the way a machine reads it: the tokens stand in a row that never
changes, and a cursor moves along it. Nothing keeps the cursor inside the
row, and nothing says that a loop gets anywhere: a function that calls
itself or another is given a depth, each call and each turn of a loop takes
one off it, and a run that uses it up has no answer, nor has one that looks
beside the row.

What a run does is kept in a trace: the places at which a token was looked
at, those to which the cursor moved, and for each item that a list of items
asked for, where the cursor stood before and after. That every run has an
answer, the one of `Parse.program`, and what its trace may hold, is shown in
`Proofs/CursorRuns.lean`. The functions have the names of the readers that
they stand beside.
-/
import BisayaPlus.Parse.Program

namespace BisayaPlus.Parse

-- =========================================================== the state

/-- Something that a run does. -/
inductive Event where
  /-- The token at a place was looked at. -/
  | looked (i : Nat)
  /-- The cursor moved to a place. -/
  | moved (i : Nat)
  /-- An item was asked for with the cursor at `i`, and left it at `j`. -/
  | called (i j : Nat)
deriving DecidableEq

/-- The cursor, with the errors found so far and what was done so far. -/
structure Cursor where
  place : Nat
  errors : List Error
  trace : List Event

/-- The row of tokens in which a list is read: an end token is added behind
a list that does not end with one. -/
def row (tokens : List Token) : List Token :=
  if tokens.getLast?.any (·.kind = .eof) then tokens
  else tokens ++ [.endOfText ((tokens.getLast?.map Token.span).getD ⟨0, 0⟩)]

namespace Cursor

/-- A step of the machine: it reads something or gives it up, and either
way leaves a cursor. A step without answer looked beside the row, or used
up its depth. -/
abbrev Step (α : Type) := ExceptT Unit (StateT Cursor Option) α

/-- Adds to the trace. -/
def note (event : Event) : Step Unit :=
  modifyThe Cursor fun c => { c with trace := c.trace ++ [event] }

/-- Where the cursor stands. -/
def here : Step Nat := return (← getThe Cursor).place

/-- Looks at the token at a place. -/
def look (v : List Token) (i : Nat) : Step Token := do
  note (.looked i)
  fun c => (v[i]?).map fun t => (.ok t, c)

/-- Moves the cursor by one place. -/
def move : Step Unit := do
  modifyThe Cursor fun c => { c with place := c.place + 1 }
  note (.moved (← here))

/-- Adds an error. -/
def report (fault : Fault) (token : Token) : Step Unit :=
  modifyThe Cursor fun c => { c with errors := c.errors ++ [⟨fault, token⟩] }

-- ============================================================== tokens

/-- The token under the cursor. -/
def peek (v : List Token) : Step Token := do look v (← here)

/-- The token before the cursor. -/
def previous (v : List Token) : Step Token := do look v ((← here) - 1)

/-- The cursor stands at an end token. -/
def atEnd (v : List Token) : Step Bool := return (← peek v).kind = .eof

/-- The token under the cursor is of the given kind. -/
def check (v : List Token) (kind : Token.Kind) : Step Bool := do
  if ← atEnd v then return false
  else return (← peek v).kind = kind

/-- The token behind the one under the cursor is of the given kind. -/
def checkNext (v : List Token) (kind : Token.Kind) : Step Bool :=
  return (← look v ((← here) + 1)).kind = kind

/-- The token under the cursor is of one of the given kinds. -/
def checkAny (v : List Token) : List Token.Kind → Step Bool
  | [] => return false
  | kind :: kinds => do
      if ← check v kind then return true
      else checkAny v kinds

/-- Passes a token, unless it is an end token. -/
def advance (v : List Token) : Step Token := do
  if ← atEnd v then previous v
  else
    move
    previous v

/-- Passes a token of the given kind, if one is there. -/
def pass (v : List Token) (kind : Token.Kind) : Step Bool := do
  if ← check v kind then
    let _ ← advance v
    return true
  else return false

/-- Passes a token of one of the given kinds, if one is there. -/
def passAny (v : List Token) : List Token.Kind → Step Bool
  | [] => return false
  | kind :: kinds => do
      if ← pass v kind then return true
      else passAny v kinds

/-- Gives up, for the fault noticed under the cursor. -/
def refuse {α : Type} (v : List Token) (fault : Fault) : Step α := do
  report fault (← peek v)
  throw ()

/-- Passes a token that must be of the given kind. -/
def expect (v : List Token) (kind : Token.Kind) (fault : Fault) :
    Step Token := do
  if ← check v kind then advance v
  else refuse v fault

-- ========================================================= expressions

/-- A minus, or `DILI` before a parenthesis, is under the cursor. -/
def opensUnary (v : List Token) : Step Bool := do
  if ← check v .dili then
    if ← checkNext v .leftParen then return true
    else check v .minus
  else check v .minus

/-- Two plus signs come next. -/
def twoPlus (v : List Token) : Step Bool := do
  if ← check v .plus then checkNext v .plus
  else return false

/-- Reads on behind a name. -/
def readName (v : List Token) : Step Expr := do
  let name ← previous v
  if ← twoPlus v then
    let _ ← advance v
    let _ ← advance v
    return .increment name
  else return .var name

/-- The depth is used up. -/
def tooDeep {α : Type} : Step α := fun _ => none

mutual

def expression (v : List Token) : Nat → Step Expr
  | 0 => tooDeep
  | n + 1 => do
      let left ← tier v .disjunction n
      if ← pass v .assign then
        let sign ← previous v
        let value ← expression v n
        match left with
        | .var name => return .assign name value
        | left =>
            report .assignmentTarget sign
            return left
      else return left

def tier (v : List Token) (k : Tier) : Nat → Step Expr
  | 0 => tooDeep
  | n + 1 => do
      let left ← operand v k n
      chain v k left n

def operand (v : List Token) (k : Tier) : Nat → Step Expr
  | 0 => tooDeep
  | n + 1 =>
      match k.tighter with
      | some j => tier v j n
      | none => unary v n

def chain (v : List Token) (k : Tier) (left : Expr) : Nat → Step Expr
  | 0 => tooDeep
  | n + 1 => do
      if ← passAny v k.operators then
        let operator ← previous v
        let right ← operand v k n
        chain v k (k.join left operator right) n
      else return left

def unary (v : List Token) : Nat → Step Expr
  | 0 => tooDeep
  | n + 1 => do
      if ← opensUnary v then
        let operator ← advance v
        let e ← unary v n
        return .unary operator e
      else primary v n

def primary (v : List Token) : Nat → Step Expr
  | 0 => tooDeep
  | n + 1 => do
      if ← pass v .oo then return .literal (.truth true)
      else if ← pass v .dili then return .literal (.truth false)
      else if ← passAny v [.number, .string, .character, .escapeCode] then
        return literalOf (← previous v)
      else if ← pass v .dollar then return .literal (.char '\n')
      else if ← pass v .leftParen then
        let e ← expression v n
        let _ ← expect v .rightParen .groupingEnd
        return .grouping e
      else if ← pass v .identifier then readName v
      else refuse v .expression

end

-- ================================================ parts of statements

def typeName (v : List Token) : Step VarType := do
  match VarType.ofKind? (← peek v).kind with
  | some type =>
      let _ ← advance v
      return type
  | none => refuse v .typeName

def declared (v : List Token) (type : VarType) (n : Nat) :
    Step Declaration := do
  let name ← expect v .identifier .variableName
  if ← pass v .assign then
    let e ← expression v n
    return ⟨name, some e, type⟩
  else return ⟨name, none, type⟩

/-- Reads variables with commas between them. -/
def declaredAll (v : List Token) (type : VarType) (before : List Declaration) :
    Nat → Step Stmt
  | 0 => tooDeep
  | n + 1 => do
      let d ← declared v type n
      if ← pass v .comma then declaredAll v type (before ++ [d]) n
      else return .declareAll (before ++ [d])

def declarations (v : List Token) (n : Nat) : Step Stmt := do
  let type ← typeName v
  declaredAll v type [] n

def printed (v : List Token) (n : Nat) : Step Stmt := do
  let keyword ← previous v
  let _ ← expect v .colon .printColon
  let e ← expression v n
  return .print keyword e

/-- Reads names with commas between them. -/
def namesAll (v : List Token) (before : List Token) : Nat → Step Stmt
  | 0 => tooDeep
  | n + 1 => do
      let name ← expect v .identifier .variableName
      if ← pass v .comma then namesAll v (before ++ [name]) n
      else return .input (before ++ [name])

def names (v : List Token) (n : Nat) : Step Stmt := do
  let _ ← expect v .colon .inputColon
  namesAll v [] n

/-- Reads something and the token that ends it. -/
def delimited {α : Type} (v : List Token) (m : Step α) (delimiter : Token.Kind)
    (fault : Fault) :
    Step α := do
  let a ← m
  let _ ← expect v delimiter fault
  return a

/-- Reads an expression, or nothing before a token of the given kind. -/
def clause (v : List Token) (delimiter : Token.Kind) (n : Nat) :
    Step (Option Expr) := do
  if ← check v delimiter then return none
  else
    let e ← expression v n
    return some e

def firstClause (v : List Token) (n : Nat) : Step (Option Stmt) := do
  if ← check v .comma then return none
  else if ← pass v .mugna then
    let type ← typeName v
    let d ← declared v type n
    return some (.declare d)
  else
    let e ← expression v n
    return some (.expression e)

-- ============================================================ recovery

/-- Passes tokens up to the next boundary. -/
def skip (v : List Token) : Nat → Step Unit
  | 0 => tooDeep
  | n + 1 => do
      if ← atEnd v then return ()
      else if (← previous v).kind = .dollar then return ()
      else if isBoundary (← peek v).kind then return ()
      else
        let _ ← advance v
        skip v n

/-- Passes the token that did not fit, unless it is `KATAPUSAN`, and skips
to the next boundary. -/
def recover (v : List Token) (n : Nat) : Step Unit := do
  if ← check v .katapusan then skip v n
  else
    let _ ← advance v
    skip v n

/-- Reads something; if it was given up, recovers from that. -/
def attempt {α : Type} (recovery : Step Unit) (m : Step α) : Step (Option α) :=
  fun c => do
  match ← m c with
  | (.ok a, c) => return (.ok (some a), c)
  | (.error (), c) =>
      let (_, c) ← recovery c
      return (.ok none, c)

-- ========================================================== statements

/-- The kinds of token that end a list of items. -/
def closers (inBlock : Bool) : List Token.Kind :=
  if inBlock then [.rightBrace, .katapusan] else [.katapusan]

/-- A list of items is over. -/
def closes (v : List Token) (inBlock : Bool) : Step Bool := do
  if ← checkAny v (closers inBlock) then return true
  else atEnd v

mutual

def statement (v : List Token) : Nat → Step Stmt
  | 0 => tooDeep
  | n + 1 => do
      if ← pass v .kung then conditional v n
      else if ← pass v .alangSa then counting v n
      else if ← pass v .ipakita then printed v n
      else if ← pass v .dawat then names v n
      else if ← pass v .leftBrace then
        let body ← items v true [] n
        let _ ← expect v .rightBrace .blockEnd
        return .block body
      else
        let e ← expression v n
        return .expression e

def conditional (v : List Token) : Nat → Step Stmt
  | 0 => tooDeep
  | n + 1 => do
      let _ ← expect v .leftParen .conditionStart
      let condition ← expression v n
      let _ ← expect v .rightParen .conditionEnd
      let _ ← expect v .pundok .bodyMark
      let body ← statement v n
      if ← pass v .kungDili then
        let other ← conditional v n
        return .ifElse condition body other
      else if ← pass v .kungWala then
        let _ ← expect v .pundok .otherBodyMark
        let other ← statement v n
        return .ifElse condition body other
      else return .ifThen condition body

def counting (v : List Token) : Nat → Step Stmt
  | 0 => tooDeep
  | n + 1 => do
      let _ ← expect v .leftParen .clausesStart
      let first ← delimited v (firstClause v n) .comma .firstClauseEnd
      let condition ← delimited v (clause v .comma n) .comma
        .conditionClauseEnd
      let last ← delimited v (clause v .rightParen n) .rightParen .clausesEnd
      let _ ← expect v .pundok .bodyMark
      let body ← statement v n
      return lowerLoop first condition last body

/-- Reads an item; one that was given up is recovered from. -/
def item (v : List Token) : Nat → Step (Option Stmt)
  | 0 => tooDeep
  | n + 1 =>
      attempt (recover v n) do
        if ← pass v .mugna then declarations v n
        else statement v n

/-- Reads items up to the end of their list. -/
def items (v : List Token) (inBlock : Bool) (before : List Stmt) :
    Nat → Step (List Stmt)
  | 0 => tooDeep
  | n + 1 => do
      if ← closes v inBlock then return before
      else
        let start ← here
        let value ← item v n
        note (.called start (← here))
        items v inBlock (before ++ value.toList) n

end

-- ============================================================ programs

/-- Reads what stands behind the items of a program. -/
def closing (v : List Token) (p : Stmt) : Step Stmt := do
  let _ ← expect v .katapusan .programEnd
  if ← atEnd v then return p
  else refuse v .afterProgram

def program (v : List Token) (n : Nat) : Step Stmt := do
  let _ ← expect v .sugod .programStart
  let body ← items v false [] n
  closing v (.program body)

/-- A program in which an error was found is not given back. -/
def verdict : Except Unit Stmt → List Error → Except (List Error) Stmt
  | .ok p, [] => .ok p
  | _, errors => .error errors

/-- Reads a program off a list of tokens with the depth `n`, and gives back
what was done. -/
def parse (n : Nat) (tokens : List Token) :
    Option (Except (List Error) Stmt × List Event) := do
  let (answer, c) ← program (row tokens) n ⟨0, [], []⟩
  return (verdict answer c.errors, c.trace)

end Cursor

end BisayaPlus.Parse
