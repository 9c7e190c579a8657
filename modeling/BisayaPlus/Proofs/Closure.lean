/-
What follows of runs from what holds of their elementary changes.

A run changes the variables in four ways only: it gives the variable that
a name means in its scope a value, it declares a variable in its scope,
and it opens a scope below its own and drops it again. A relation between
the states before and behind a run that assignments and declarations
have, that goes on from step to step, and that is not lost when what it
is said of has run in a scope of its own, holds of every run, however the
run ends (`Stmt.exec_closed`). The induction over runs is done here once;
a proof about some relation is left with its five closure properties.
-/
import BisayaPlus.Proofs.Steps
import BisayaPlus.Run.Stable

namespace BisayaPlus

open Run

namespace Run

/-- A relation between the states before and behind a run in a scope that
elementary changes have and that parts hand on to the whole. -/
structure Closed (R : Nat → Environment → Environment → Prop) : Prop where
  refl : ∀ scope env, R scope env env
  trans : ∀ {scope env env₁ env₂}, R scope env env₁ → R scope env₁ env₂ →
    R scope env env₂
  assign : ∀ {scope env env' x v}, env.assign? scope x v = some env' →
    R scope env env'
  define : ∀ scope env x b, R scope env (env.define scope x b)
  nest : ∀ {scope env env'}, R env.depth (env.push scope) env' →
    R scope env (env'.pop env.depth)

variable {R : Nat → Environment → Environment → Prop} {scope : Nat}
  {α β : Type}

-- ======================================================== computations

/-- The computation has the relation in every state. -/
def Keeps (R : Nat → Environment → Environment → Prop) (scope : Nat)
    (step : Step α) : Prop :=
  ∀ env, R scope env (stateAfter (step env))

namespace Closed

variable (hR : Closed R)
include hR

/-- Doing nothing is within every closed relation. -/
theorem pure (a : α) : Keeps R scope (Pure.pure a : Step α) := hR.refl scope

/-- So is a fault that comes at once. -/
theorem throw (e : Error) : Keeps R scope (throw e : Step α) := hR.refl scope

/-- So is a result that does not touch the variables. -/
theorem settle (r : Except Error α) : Keeps R scope (Run.settle r) := by
  cases r with
  | error e => exact hR.throw e
  | ok a => exact hR.pure a

/-- One computation behind the other goes on with the relation. -/
theorem bind {step : Step α} {f : α → Step β} (h : Keeps R scope step)
    (hf : ∀ a, Keeps R scope (f a)) : Keeps R scope (step >>= f) := by
  intro env
  have hstep := h env
  cases heq : step env with
  | error e env₁ =>
      rw [heq] at hstep
      rw [bind_of_error heq]
      exact hstep
  | ok a env₁ =>
      rw [heq] at hstep
      rw [bind_of_ok heq]
      exact hR.trans hstep (hf a env₁)

/-- Counting is one assignment, or none. -/
theorem count (name : Token) (delta : Float) :
    Keeps R scope (Run.count scope name delta) := by
  intro env
  rcases count_cases scope name delta env with
    ⟨-, h⟩ | ⟨b, -, -, h⟩ | ⟨b, x, env', -, -, hassign, h⟩
  · rw [h]
    exact hR.refl scope env
  · rw [h]
    exact hR.refl scope env
  · rw [h]
    exact hR.assign hassign

/-- So is taking a line of input for a variable. -/
theorem storeLine (name : Token) (line : String) :
    Keeps R scope (Run.storeLine scope name line) := by
  intro env
  rcases storeLine_cases scope name line env with
    ⟨-, h⟩ | ⟨b, e, -, -, h⟩ | ⟨b, v, env', -, -, hassign, h⟩
  · rw [h]
    exact hR.refl scope env
  · rw [h]
    exact hR.refl scope env
  · rw [h]
    exact hR.assign hassign

/-- Evaluating makes no changes but assignments. -/
theorem eval (e : Expr) : Keeps R scope (e.eval scope) := by
  induction e with
  | literal v => exact hR.pure v
  | var name =>
      intro env
      rw [Expr.eval_var]
      cases env.lookup scope name.lexeme <;> exact hR.refl scope env
  | grouping e ih => exact ih
  | unary op e ih => exact hR.bind ih fun v => hR.settle _
  | binary left op right ihleft ihright =>
      exact hR.bind ihleft fun l => hR.bind ihright fun r => hR.settle _
  | logical left op right ihleft ihright =>
      refine hR.bind ihleft fun l => ?_
      split
      · exact hR.pure l
      · exact ihright
  | assign name value ih =>
      intro env
      have hvalue := ih env
      cases hv : value.eval scope env with
      | error e env₁ =>
          rw [hv] at hvalue
          rw [Expr.eval_assign_of_error hv]
          exact hvalue
      | ok v env₁ =>
          rw [hv] at hvalue
          rcases Expr.eval_assign_cases name hv with
            ⟨-, h⟩ | ⟨b, -, -, h⟩ | ⟨b, env₂, -, -, hassign, h⟩
          · rw [h]
            exact hvalue
          · rw [h]
            exact hvalue
          · rw [h]
            exact hR.trans hvalue (hR.assign hassign)
  | increment name => exact hR.count name 1.0
  | decrement name => exact hR.count name (-1.0)

/-- A declaration evaluates its first value and defines one variable. -/
theorem declare (d : Declaration) : Keeps R scope (Run.declare scope d) := by
  refine hR.bind ?_ fun v env => hR.define scope env d.name.lexeme ⟨v, d.type⟩
  intro env
  rcases initial_cases scope d env with ⟨-, h⟩ | ⟨e, err, env₁, -, hv, h⟩
    | ⟨e, v, env₁, -, hv, -, h⟩ | ⟨e, v, env₁, -, hv, -, h⟩
  · rw [h]
    exact hR.refl scope env
  all_goals
    have he : R scope env (stateAfter (e.eval scope env)) := hR.eval e env
    rw [hv] at he
    rw [h]
    exact he

/-- Declarations go on with the relation in order. -/
theorem declareEach (ds : List Declaration) :
    Keeps R scope (Run.declareEach scope ds) := by
  induction ds with
  | nil => exact hR.pure ()
  | cons d ds ih => exact hR.bind (hR.declare d) fun _ => ih

-- ================================================== runs on a console

variable {σ : Type} {env : Environment} {w : σ}

/-- A run that may follow another one goes on with the relation. -/
theorem andThen {first : StateM σ Result}
    {second : Environment → StateM σ Result}
    (hfirst : R scope env (first w).1.1)
    (hsecond : ∀ env' w', R scope env' (second env' w').1.1) :
    R scope env (Run.andThen first second w).1.1 := by
  rw [andThen_apply]
  rcases hrun : first w with ⟨⟨env', ending⟩, w'⟩
  rw [hrun] at hfirst
  cases ending with
  | done => exact hR.trans hfirst (hsecond env' w')
  | failed e => exact hfirst
  | outOfTurns => exact hfirst

/-- So does a run that follows a computation. -/
theorem afterStep {step : Step α} {run : α → Environment → StateM σ Result}
    (hstep : Keeps R scope step)
    (hrun : ∀ a env', R scope env' (run a env' w).1.1) :
    R scope env (Run.afterStep step run env w).1.1 := by
  have henv := hstep env
  cases h : step env with
  | error e env' =>
      rw [h] at henv
      rw [afterStep_of_error h]
      exact henv
  | ok a env' =>
      rw [h] at henv
      rw [afterStep_of_ok h]
      exact hR.trans henv (hrun a env')

/-- Each line that is read is one assignment, or none. -/
theorem inputEach (con : Console (StateM σ)) (names : List Token)
    (env : Environment) (w : σ) :
    R scope env (Run.inputEach con scope names env w).1.1 := by
  induction names generalizing env w with
  | nil => exact hR.refl scope env
  | cons name names ih =>
      refine hR.andThen ?_ ih
      rcases inputOne_cases con scope name env w with
        ⟨failure, w', -, h⟩ | ⟨w', -, h⟩ | ⟨line, w', -, h⟩
      · rw [h]
        exact hR.refl scope env
      · rw [h]
        exact hR.refl scope env
      · rw [h, ofStep_env]
        exact hR.storeLine name line env

/-- A statement that is no block runs in a scope of its own, which is
dropped behind it. -/
theorem ownScope {run : Nat → Environment → StateM σ Result} {isBlock : Bool}
    (hrun : ∀ inner env w, R inner env (run inner env w).1.1) :
    R scope env (Run.ownScope isBlock scope env run w).1.1 := by
  cases isBlock with
  | true => exact hrun scope env w
  | false => exact hR.nest (hrun env.depth (env.push scope) w)

/-- The turns of a loop go on with the relation. -/
theorem turns {condition : Step Value} {body : Environment → StateM σ Result}
    (hcondition : Keeps R scope condition)
    (hbody : ∀ env w, R scope env (body env w).1.1) (n : Nat)
    (env : Environment) (w : σ) :
    R scope env (Run.turns condition body n env w).1.1 := by
  induction n generalizing env w with
  | zero => exact hR.refl scope env
  | succ n ih =>
      rw [turns_succ]
      refine hR.afterStep hcondition fun v env₁ => ?_
      by_cases hv : v.isTruthy
      · simp only [hv, if_true]
        exact hR.andThen (hbody env₁ w) ih
      · simp only [hv]
        exact hR.refl scope env₁

end Closed

end Run

-- ========================================================== statements

namespace Stmt

variable {R : Nat → Environment → Environment → Prop} {σ : Type}
  (con : Console (StateM σ))
  (limit : Nat)

mutual

/-- Running a statement has every closed relation. -/
theorem exec_closed (hR : Closed R) (s : Stmt) (scope : Nat)
    (env : Environment) (w : σ) :
    R scope env (s.exec con limit scope env w).1.1 := by
  match s with
  | .expression e =>
      show R scope env (Result.ofStep (e.eval scope) env).1
      rw [ofStep_env]
      exact hR.eval e env
  | .print keyword e =>
      rw [exec_print]
      refine hR.afterStep (hR.eval e) fun v env' => ?_
      simp only [bind, StateT.bind]
      rcases con.writeLine v.display w with ⟨answer, w'⟩
      cases answer with
      | error failure => exact hR.refl scope env'
      | ok u => exact hR.refl scope env'
  | .declare d =>
      show R scope env (Result.ofStep (Run.declare scope d) env).1
      rw [ofStep_env]
      exact hR.declare d env
  | .declareAll ds =>
      show R scope env (Result.ofStep (declareEach scope ds) env).1
      rw [ofStep_env]
      exact hR.declareEach ds env
  | .input names => exact hR.inputEach con names env w
  | .block body =>
      exact hR.nest (execAll_closed hR body env.depth (env.push scope) w)
  | .ifThen condition body =>
      rw [exec_ifThen]
      refine hR.afterStep (hR.eval condition) fun v env' => ?_
      by_cases hv : v.isTruthy
      · simp only [hv, if_true]
        exact hR.ownScope (exec_closed hR body)
      · simp only [hv]
        exact hR.refl scope env'
  | .ifElse condition body other =>
      rw [exec_ifElse]
      refine hR.afterStep (hR.eval condition) fun v env' => ?_
      by_cases hv : v.isTruthy
      · simp only [hv, if_true]
        exact hR.ownScope (exec_closed hR body)
      · simp only [hv]
        exact hR.ownScope (exec_closed hR other)
  | .loop condition body =>
      exact hR.turns (hR.eval condition)
        (fun env w => hR.ownScope (exec_closed hR body)) limit env w
  | .program body => exact execAll_closed hR body scope env w

/-- Running statements in order has every closed relation. -/
theorem execAll_closed (hR : Closed R) (ss : List Stmt) (scope : Nat)
    (env : Environment) (w : σ) :
    R scope env (execAll con limit ss scope env w).1.1 := by
  match ss with
  | [] => exact hR.refl scope env
  | s :: ss =>
      exact hR.andThen (exec_closed hR s scope env w)
        (execAll_closed hR ss scope)

end

end Stmt

end BisayaPlus
