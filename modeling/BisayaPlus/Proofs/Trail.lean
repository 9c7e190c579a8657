/-
The states a run goes through.

A run is given by what it leaves behind (`Run/Eval.lean`, `Run/Exec.lean`).
Its trail is the list of the states of the variables it goes through on
the way: one entry for each place where the run opens or drops a scope,
declares a variable or gives one a value, in order, and also where it
tries to and faults. The trail of a phrase is put together from the
trails of its parts and the states that their runs leave behind, so that
it holds nothing that the run itself does not come to.

That nothing is left out is not part of the definition. It is proved in
`Proofs/StoreTyping.lean`: the trail leads from the first state of the run
to its last one, and no two neighbours are more than one elementary
change apart.
-/
import BisayaPlus.Proofs.Steps

namespace BisayaPlus

open Run

-- ========================================================= expressions

namespace Run

/-- The trail of what follows a computation that may fault. -/
def onward {α : Type} (next : α → Environment → List Environment) :
    EStateM.Result Error Environment α → List Environment
  | .ok a env => next a env
  | .error _ _ => []

end Run

/-- The states that evaluating an expression goes through. -/
def Expr.trail (scope : Nat) : Expr → Environment → List Environment
  | literal _, _ => []
  | var _, _ => []
  | grouping e, env => e.trail scope env
  | unary _ e, env => e.trail scope env
  | binary left _ right, env =>
      left.trail scope env
        ++ onward (fun _ => right.trail scope) (left.eval scope env)
  | logical left op right, env =>
      left.trail scope env
        ++ onward (fun l env =>
          if settles op l then [] else right.trail scope env)
          (left.eval scope env)
  | assign name value, env =>
      value.trail scope env
        ++ [stateAfter ((assign name value).eval scope env)]
  | increment name, env => [stateAfter ((increment name).eval scope env)]
  | decrement name, env => [stateAfter ((decrement name).eval scope env)]

namespace Run

-- ======================================================== declarations

/-- The states that working out a first value goes through. -/
def initialTrail (scope : Nat) (d : Declaration) (env : Environment) :
    List Environment :=
  match d.init with
  | none => []
  | some e => e.trail scope env

/-- The states that a declaration goes through. -/
def declareTrail (scope : Nat) (d : Declaration) (env : Environment) :
    List Environment :=
  initialTrail scope d env ++ [stateAfter (declare scope d env)]

/-- The states that declarations in a row go through. -/
def declareEachTrail (scope : Nat) :
    List Declaration → Environment → List Environment
  | [], _ => []
  | d :: ds, env =>
      declareTrail scope d env
        ++ onward (fun _ => declareEachTrail scope ds) (declare scope d env)

-- ================================================== runs on a console

variable {σ : Type}

/-- The trail of what follows a run, if the run is done. -/
def andThenTrail (next : Environment → σ → List Environment) :
    Result × σ → List Environment
  | ((env, .done), w) => next env w
  | _ => []

/-- The states that an input statement goes through. -/
def inputTrail (con : Console (StateM σ)) (scope : Nat) :
    List Token → Environment → σ → List Environment
  | [], _, _ => []
  | name :: names, env, w =>
      (inputOne con scope name env w).1.1
        :: andThenTrail (inputTrail con scope names) (inputOne con scope
          name env w)

/-- The states of a run in a new scope, which is dropped afterwards. -/
def inScopeTrail (parent : Nat) (env : Environment)
    (run : Nat → Environment → StateM σ Result)
    (trail : Nat → Environment → σ → List Environment) (w : σ) :
    List Environment :=
  env.push parent :: trail env.depth (env.push parent) w
    ++ [(inScope parent env run w).1.1]

/-- The states of a run of the body of a branch or loop. -/
def ownScopeTrail (isBlock : Bool) (scope : Nat) (env : Environment)
    (run : Nat → Environment → StateM σ Result)
    (trail : Nat → Environment → σ → List Environment) (w : σ) :
    List Environment :=
  if isBlock then trail scope env w else inScopeTrail scope env run trail w

/-- The states that the turns of a loop go through. -/
def turnsTrail (condition : Step Value)
    (conditionTrail : Environment → List Environment)
    (body : Environment → StateM σ Result)
    (bodyTrail : Environment → σ → List Environment) :
    Nat → Environment → σ → List Environment
  | 0, _, _ => []
  | n + 1, env, w =>
      conditionTrail env ++ onward (fun v env =>
        if v.isTruthy then
          bodyTrail env w
            ++ andThenTrail (turnsTrail condition conditionTrail body bodyTrail
              n) (body env w)
        else []) (condition env)

end Run

-- ========================================================== statements

namespace Stmt

variable {σ : Type}

mutual

/-- The states that running a statement goes through. -/
def trail (con : Console (StateM σ)) (limit : Nat) :
    Stmt → Nat → Environment → σ → List Environment
  | expression e, scope, env, _ => e.trail scope env
  | print _ e, scope, env, _ => e.trail scope env
  | declare d, scope, env, _ => declareTrail scope d env
  | declareAll ds, scope, env, _ => declareEachTrail scope ds env
  | input names, scope, env, w => inputTrail con scope names env w
  | block body, scope, env, w =>
      inScopeTrail scope env (execAll con limit body)
        (trailAll con limit body) w
  | ifThen condition body, scope, env, w =>
      condition.trail scope env ++ onward (fun v env =>
        if v.isTruthy then
          ownScopeTrail body.isBlock scope env (exec con limit body)
          (trail con limit body) w
        else []) (condition.eval scope env)
  | ifElse condition body other, scope, env, w =>
      condition.trail scope env ++ onward (fun v env =>
        if v.isTruthy then
          ownScopeTrail body.isBlock scope env (exec con limit body)
          (trail con limit body) w
        else
          ownScopeTrail other.isBlock scope env (exec con limit other)
          (trail con limit other) w)
        (condition.eval scope env)
  | loop condition body, scope, env, w =>
      turnsTrail (condition.eval scope) (condition.trail scope)
        (fun env => ownScope body.isBlock scope env (exec con limit body))
        (fun env => ownScopeTrail body.isBlock scope env (exec con limit body)
          (trail con limit body))
        limit env w
  | program body, scope, env, w => trailAll con limit body scope env w

/-- The states that running statements in order goes through. -/
def trailAll (con : Console (StateM σ)) (limit : Nat) :
    List Stmt → Nat → Environment → σ → List Environment
  | [], _, _, _ => []
  | s :: ss, scope, env, w =>
      trail con limit s scope env w
        ++ andThenTrail (trailAll con limit ss scope) (exec con limit s
          scope env w)

end

end Stmt

-- ============================================================ sessions

namespace Run

variable {σ : Type}

/-- Interprets statements one after another on the same variables, each of
them whatever the ending of the one before. -/
def session (con : Console (StateM σ)) (limit : Nat) :
    List Stmt → Environment → StateM σ Environment
  | [], env => pure env
  | s :: calls, env => do
      let r ← s.interpret con limit env
      session con limit calls r.1

/-- The states that a session goes through. -/
def sessionTrail (con : Console (StateM σ)) (limit : Nat) :
    List Stmt → Environment → σ → List Environment
  | [], _, _ => []
  | s :: calls, env, w =>
      s.trail con limit Environment.global env w
        ++ sessionTrail con limit calls (s.interpret con limit env w).1.1
            (s.interpret con limit env w).2

end Run

end BisayaPlus
