/-
Running source texts.
-/
import BisayaPlus.Parse.Program
import BisayaPlus.Run.Exec

namespace BisayaPlus

/-- Why a source text could not be run to its end. -/
inductive RunError where
  /-- The text is no program, and nothing was run. -/
  | source (e : SourceError)
  /-- The program faulted. -/
  | runtime (e : Run.Error)
deriving DecidableEq

namespace RunError

/-- The errors as they are shown. -/
def diagnostics : RunError → List Diagnostic
  | source e => e.diagnostics
  | runtime e => [e.diagnostic]

/-- All the errors in one line. -/
def message : RunError → String
  | source e => s!"{e.diagnostics.length} error(s) found before execution"
  | runtime e => e.diagnostic.summary

end RunError

namespace Run

/-- The outcome of running a source text: out of turns, or over. -/
inductive Outcome where
  | outOfTurns
  | over (result : Except RunError Unit)

/-- The outcome that an ending amounts to. -/
def Ending.outcome : Ending → Outcome
  | done => .over (.ok ())
  | failed e => .over (.error (.runtime e))
  | outOfTurns => .outOfTurns

variable {m : Type → Type} [Monad m]

/-- Runs a source text on the variables of a session. A text that is no
program leaves them as they are. -/
def sourceIn (con : Console m) (limit : Nat) (env : Environment)
    (text : String) :
    m (Environment × Outcome) :=
  match Stmt.ofSource text with
  | .error e => pure (env, .over (.error (.source e)))
  | .ok program => do
      let r ← program.interpret con limit env
      pure (r.1, r.2.outcome)

/-- Runs a source text with no variables to start with. -/
def source (con : Console m) (limit : Nat) (text : String) : m Outcome := do
  let r ← sourceIn con limit Environment.empty text
  pure r.2

end Run

end BisayaPlus
