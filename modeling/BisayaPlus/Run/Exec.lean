/-
Running statements.

A run ends in one of three ways: it is done, it faults, or a loop has
taken more turns than the run was given. The number of turns is granted
to each loop anew, so a program without loops always comes to an end of
the first two kinds; and a run that ended within its turns ends the same
way with more of them.

Every scope that is opened is closed again, however the run of its
statements ends.
-/
import BisayaPlus.Run.Console
import BisayaPlus.Run.Eval
import BisayaPlus.Run.Input
import BisayaPlus.Tree.Basic

namespace BisayaPlus

open Run

namespace Run

/-- How a run ended. -/
inductive Ending where
  | done
  | failed (e : Error)
  | outOfTurns
deriving DecidableEq

/-- The variables after a run, and how it ended. -/
abbrev Result := Environment × Ending

variable {m : Type → Type} [Monad m]

/-- Goes on with the second run if the first one is done. -/
@[inline] def andThen (first : m Result) (second : Environment → m Result) :
    m Result := do
  let r ← first
  match r.2 with
  | .done => second r.1
  | ending => pure (r.1, ending)

-- ======================================================== declarations

/-- The value a variable is declared with. -/
def initial (scope : Nat) (d : Declaration) : Step Value :=
  match d.init with
  | none => pure d.type.zero
  | some e => do
      let v ← e.eval scope
      if d.type.accepts v then pure v
      else throw ⟨.initializer d.name.lexeme d.type v, d.name.span⟩

/-- Declares a variable in a scope. -/
def declare (scope : Nat) (d : Declaration) : Step Unit := do
  let v ← initial scope d
  modify fun env => env.define scope d.name.lexeme ⟨v, d.type⟩

/-- Declares variables in order. -/
def declareEach (scope : Nat) : List Declaration → Step Unit
  | [] => pure ()
  | d :: ds => do
      declare scope d
      declareEach scope ds

/-- The result of a computation on the variables alone. -/
def Result.ofStep {α : Type} (step : Step α) (env : Environment) : Result :=
  match step env with
  | .ok _ env => (env, .done)
  | .error e env => (env, .failed e)

-- ============================================================== input

/-- The question shown before a line is read. -/
def promptFor (name : Token) : String := s!"Enter value for {name.lexeme}: "

/-- Gives a variable the value of a line. -/
def storeLine (scope : Nat) (name : Token) (line : String) : Step Unit := do
  let type ← settle ((← get).typeOf scope name)
  let v ← settle (ofInput line type name)
  store scope name v

/-- Reads a line for one name. That the input is exhausted is noticed
before the name is looked up. -/
def inputOne (con : Console m) (scope : Nat) (name : Token)
    (env : Environment) :
    m Result := do
  match ← con.readLine (promptFor name) with
  | .error failure => pure (env, .failed ⟨.console failure.reason, name.span⟩)
  | .ok none => pure (env, .failed ⟨.noInput name.lexeme, name.span⟩)
  | .ok (some line) => pure (Result.ofStep (storeLine scope name line) env)

/-- Reads a line for each name in order. -/
def inputEach (con : Console m) (scope : Nat) :
    List Token → Environment → m Result
  | [], env => pure (env, .done)
  | name :: names, env =>
      andThen (inputOne con scope name env) (inputEach con scope names)

-- ==================================================== scopes and loops

/-- Runs in a new scope below `parent` and drops the scope afterwards. -/
@[inline] def inScope (parent : Nat) (env : Environment)
    (run : Nat → Environment → m Result) : m Result := do
  let r ← run env.depth (env.push parent)
  pure (r.1.pop env.depth, r.2)

/-- Runs the body of a branch or loop: a block opens a scope by itself,
and any other statement is given one. -/
@[inline] def ownScope (isBlock : Bool) (scope : Nat) (env : Environment)
    (run : Nat → Environment → m Result) : m Result :=
  if isBlock then run scope env else inScope scope env run

/-- Takes turns as long as the condition holds. -/
@[specialize] def turns (condition : Step Value)
    (body : Environment → m Result) :
    Nat → Environment → m Result
  | 0, env => pure (env, .outOfTurns)
  | n + 1, env =>
      match condition env with
      | .error e env => pure (env, .failed e)
      | .ok v env =>
          if v.isTruthy then andThen (body env) (turns condition body n)
          else pure (env, .done)

end Run

namespace Stmt

variable {m : Type → Type} [Monad m]

mutual

/-- Runs a statement in a scope, with so many turns for each loop. -/
@[specialize] def exec (con : Console m) (limit : Nat) :
    Stmt → Nat → Environment → m Result
  | expression e, scope, env => pure (Result.ofStep (e.eval scope) env)
  | print keyword e, scope, env =>
      match e.eval scope env with
      | .error err env => pure (env, .failed err)
      | .ok v env => do
          match ← con.writeLine v.display with
          | .ok () => pure (env, .done)
          | .error failure =>
              pure (env, .failed ⟨.console failure.reason, keyword.span⟩)
  | declare d, scope, env => pure (Result.ofStep (Run.declare scope d) env)
  | declareAll ds, scope, env =>
      pure (Result.ofStep (declareEach scope ds) env)
  | input names, scope, env => inputEach con scope names env
  | block body, scope, env => inScope scope env (execAll con limit body)
  | ifThen condition body, scope, env =>
      match condition.eval scope env with
      | .error err env => pure (env, .failed err)
      | .ok v env =>
          if v.isTruthy then ownScope body.isBlock scope env
            (exec con limit body)
          else pure (env, .done)
  | ifElse condition body other, scope, env =>
      match condition.eval scope env with
      | .error err env => pure (env, .failed err)
      | .ok v env =>
          if v.isTruthy then ownScope body.isBlock scope env
            (exec con limit body)
          else ownScope other.isBlock scope env (exec con limit other)
  | loop condition body, scope, env =>
      turns (condition.eval scope)
        (fun env => ownScope body.isBlock scope env (exec con limit body))
        limit env
  | program body, scope, env => execAll con limit body scope env

/-- Runs statements in order. -/
@[specialize] def execAll (con : Console m) (limit : Nat) :
    List Stmt → Nat → Environment → m Result
  | [], _, env => pure (env, .done)
  | s :: ss, scope, env =>
      andThen (exec con limit s scope env) (execAll con limit ss scope)

end

/-- Runs a program, or any statement, in the first scope. -/
def interpret (con : Console m) (limit : Nat) (s : Stmt) (env : Environment) :
    m Result :=
  s.exec con limit Environment.global env

end Stmt

end BisayaPlus
