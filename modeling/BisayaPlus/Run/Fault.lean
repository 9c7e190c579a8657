/-
What can go wrong while a program runs.
-/
import BisayaPlus.Diagnostic.Basic
import BisayaPlus.Value.VarType

namespace BisayaPlus.Run

/-- Why a program was stopped. -/
inductive Fault where
  /-- A name that means no variable is used. -/
  | undefined (name : String)
  /-- Input is asked for a name that means no variable. -/
  | undefinedType (name : String)
  /-- A number is negated that is none. -/
  | operand (got : Value)
  /-- Numbers are combined that are none. -/
  | operands (op : String) (left right : Value)
  /-- An operator that combines no values. -/
  | unknownOperator (op : String)
  /-- A variable is given a value of another type. -/
  | assignment (name : String) (type : VarType) (got : Value)
  /-- A variable is declared with a value of another type. -/
  | initializer (name : String) (type : VarType) (got : Value)
  /-- A variable is counted up or down that holds no number. -/
  | notCountable
  /-- The input is exhausted. -/
  | noInput (name : String)
  /-- A line of input is no number. -/
  | notNumber (name : String) (type : VarType) (line : String)
  /-- A line of input is no truth value. -/
  | notTruth (name : String) (line : String)
  /-- A line of input is not one character. -/
  | notCharacter (name : String)
  /-- The console failed. -/
  | console (reason : String)
deriving DecidableEq

namespace Fault

/-- The class of a fault. -/
def code : Fault → Code
  | undefined _ | undefinedType _ => .reference
  | operand _ | operands .. | assignment .. | initializer .. | notCountable =>
      .typing
  | noInput _ | notNumber .. | notTruth .. | notCharacter _ => .input
  | unknownOperator _ | console _ => .runtime

/-- The wording of a fault. -/
def message : Fault → String
  | undefined x => s!"Undefined variable '{x}'."
  | undefinedType x => s!"Undefined variable type '{x}'."
  | operand _ => "Operand must be a number."
  | operands op _ _ => s!"Operands of '{op}' must be numbers."
  | unknownOperator op => s!"Unknown binary operator '{op}'."
  | assignment _ type _ => s!"Expected {type.word} for assignment."
  | initializer x type _ => s!"Variable '{x}' must be of type {type.word}."
  | notCountable => "Only numbers can be incremented or decremented."
  | noInput x => s!"No input left for '{x}'."
  | notNumber x type line => s!"Invalid input for {type.word} '{x}': '{line}'."
  | notTruth x line => s!"Invalid input for TINUOD '{x}': '{line}'."
  | notCharacter x => s!"Expected a single character for '{x}'."
  | console reason => s!"Console failure: {reason}"

/-- What the user may do about a fault, or what was found instead. -/
def help : Fault → Option String
  | undefined _ => some "declare it first with MUGNA"
  | operand got => some s!"got a {got.typeName} value"
  | operands _ l r => some s!"got {l.typeName} and {r.typeName}"
  | assignment x type got =>
      some s!"'{x}' holds {type.word} values, got {got.typeName}"
  | initializer _ _ got =>
      some s!"the initializer produced a {got.typeName} value"
  | notTruth _ _ => some "type OO or DILI"
  | _ => none

end Fault

/-- A fault with the place of the token at which it arose. -/
structure Error where
  fault : Fault
  span : Span
deriving DecidableEq

/-- The error as it is shown. -/
def Error.diagnostic (e : Error) : Diagnostic where
  code := e.fault.code
  message := e.fault.message
  span := e.span
  help := e.fault.help

end BisayaPlus.Run
