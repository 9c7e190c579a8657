/-
What can be wrong with the order of the tokens of a program.
-/
import BisayaPlus.Diagnostic.Basic
import BisayaPlus.Token.Basic

namespace BisayaPlus.Parse

/-- What was missing or misplaced. -/
inductive Fault where
  | programStart
  | programEnd
  | afterProgram
  | typeName
  | variableName
  | conditionStart
  | conditionEnd
  | bodyMark
  | otherBodyMark
  | clausesStart
  | firstClauseEnd
  | conditionClauseEnd
  | clausesEnd
  | printColon
  | inputColon
  | blockEnd
  | groupingEnd
  | assignmentTarget
  | expression
deriving DecidableEq, Repr

/-- The wording of a fault. -/
def Fault.message : Fault → String
  | programStart => "Expect 'SUGOD' at the start of the program."
  | programEnd => "Expect 'KATAPUSAN' at the end of the program."
  | afterProgram => "Expect end of file after 'KATAPUSAN'."
  | typeName =>
      "Expect type name (NUMERO, TIPIK, LETRA or TINUOD) after 'MUGNA'."
  | variableName => "Expect variable name."
  | conditionStart => "Expect '(' after 'KUNG'."
  | conditionEnd => "Expect ')' after KUNG condition."
  | bodyMark => "Expect 'PUNDOK' after ')'."
  | otherBodyMark => "Expect 'PUNDOK' after 'KUNG WALA'."
  | clausesStart => "Expect '(' after 'ALANG SA'."
  | firstClauseEnd => "Expect ',' after loop initializer."
  | conditionClauseEnd => "Expect ',' after loop condition."
  | clausesEnd => "Expect ')' after ALANG SA clauses."
  | printColon => "Expect ':' after 'IPAKITA'."
  | inputColon => "Expect ':' after 'DAWAT'."
  | blockEnd => "Expect '\x7d' after block."
  | groupingEnd => "Expect ')' after expression."
  | assignmentTarget => "Invalid assignment target."
  | expression => "Expect expression."

/-- A fault with the token at which it was noticed. -/
structure Error where
  fault : Fault
  token : Token
deriving DecidableEq

namespace Error

/-- Where the fault was noticed, in words. -/
def location (e : Error) : String :=
  if e.token.kind = .eof then " at end" else s!" at '{e.token.lexeme}'"

/-- The error as it is shown. -/
def diagnostic (e : Error) : Diagnostic where
  code := .syntactic
  message := e.fault.message
  span := e.token.span
  location := e.location

end Error

end BisayaPlus.Parse
