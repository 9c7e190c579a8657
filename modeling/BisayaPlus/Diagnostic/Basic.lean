/-
Diagnostics: faults as the user sees them. Each stage has its own type of
faults (`Token/Basic.lean`, `Parse/Fault.lean`, `Run/Fault.lean`), which
names causes; what a cause reads like is a `Diagnostic`.
-/
import BisayaPlus.Span

namespace BisayaPlus

/-- The class of a fault. -/
inductive Code where
  | lexical
  | syntactic
  | runtime
  | typing
  | reference
  | input
deriving DecidableEq, Repr, Inhabited

/-- The code shown for a class. -/
def Code.text : Code → String
  | .lexical => "E_LEX"
  | .syntactic => "E_SYNTAX"
  | .runtime => "E_RUNTIME"
  | .typing => "E_TYPE"
  | .reference => "E_REFERENCE"
  | .input => "E_INPUT"

/-- The class shown under a code. -/
def Code.ofText? (s : String) : Option Code :=
  [lexical, syntactic, runtime, typing, reference, input].find? (·.text = s)

/-- A fault as it is shown. The location is the part of the first line
that says at which token a program is malformed, and empty for faults of
every other class. -/
structure Diagnostic where
  code : Code
  message : String
  span : Span
  location : String := ""
  help : Option String := none
deriving DecidableEq, Repr, Inhabited

namespace Diagnostic

/-- The diagnostic on one line. -/
def summary (d : Diagnostic) : String :=
  s!"[line {d.span.line}] Error{d.location}: {d.message}"

end Diagnostic

end BisayaPlus
