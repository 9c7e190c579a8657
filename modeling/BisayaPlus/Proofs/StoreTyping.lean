/-
Every variable holds a value of its declared type, at all times.

Four kinds of step write variables, and each looks at the declared type
in its own way: a declaration and an assignment ask whether the type
admits the value, input is read as a value of the type, and counting does
not look at the type at all. The last is right only because the variable
was right before. So typing is an invariant, and it is proved as one:

- `Change` lists the elementary changes of an environment, with what is
  known of the values they write, and each of them keeps the environment
  typed (`Change.typed`);
- the trail of a run that starts typed is a path of elementary changes
  from its first state to its last one (`Expr.path`, `Stmt.path`), so that
  all states on it are typed (`Path.typed`).

Runs that fault and runs that stop for want of turns are not set apart:
their trails are paths like any other.
-/
import BisayaPlus.Proofs.Trail
import BisayaPlus.Run.Stable

namespace BisayaPlus

open Run

namespace Environment

variable {env env' : Environment}

-- ====================================================== the invariant

/-- Every binding of every live scope holds a value that its declared
type admits. -/
def Typed (env : Environment) : Prop :=
  ∀ scope x b, env.bindingAt scope x = some b → b.type.accepts b.value = true

theorem empty_typed : empty.Typed := by
  intro scope x b h
  cases scope <;> cases h

/-- What a name means is typed like every other binding. -/
theorem Typed.lookup {scope : Nat} {x : String} {b : Binding}
    (henv : env.Typed) (h : env.lookup scope x = some b) :
    b.type.accepts b.value = true := by
  obtain ⟨owner, -, hb⟩ := lookup_eq_some_iff.1 h
  exact henv owner x b hb

-- ================================================ elementary changes

/-- One elementary change of an environment, or none. A value that is
written must be one that the type of its variable admits. -/
inductive Change (env : Environment) : Environment → Prop where
  | stay : Change env env
  | push (parent : Nat) : Change env (env.push parent)
  | pop (scope : Nat) : Change env (env.pop scope)
  | define (scope : Nat) (x : String) (b : Binding)
      (hb : b.type.accepts b.value = true) :
      Change env (env.define scope x b)
  | assign {scope : Nat} {x : String} {b : Binding} {v : Value}
      {env' : Environment}
      (hb : env.lookup scope x = some b) (hv : b.type.accepts v = true)
      (h : env.assign? scope x v = some env') : Change env env'

/-- An elementary change keeps an environment typed. -/
theorem Change.typed (h : Change env env') (henv : env.Typed) :
    env'.Typed := by
  cases h with
  | stay => exact henv
  | push parent =>
      intro i y c hc
      rw [bindingAt_push] at hc
      exact henv i y c hc
  | pop scope =>
      intro i y c hc
      exact henv i y c (bindingAt_of_pop hc)
  | define scope x b hb =>
      rcases Nat.lt_or_ge scope env.depth with hlt | hge
      · intro i y c hc
        rw [bindingAt_define hlt] at hc
        split at hc
        · injection hc with hc
          subst hc
          exact hb
        · exact henv i y c hc
      · rw [define_of_le hge]
        exact henv
  | assign hb hv h =>
      obtain ⟨owner, howner, hat⟩ := bindingAt_assign? h
      obtain ⟨owner', howner', hb'⟩ := lookup_eq_some_iff.1 hb
      have : owner' = owner := Option.some.inj (howner'.symm.trans howner)
      subst this
      intro i y c hc
      rw [hat] at hc
      split at hc
      · next hiy =>
        obtain ⟨rfl, rfl⟩ := hiy
        rw [hb'] at hc
        injection hc with hc
        subst hc
        exact hv
      · exact henv i y c hc

-- =============================================================== paths

/-- The states of a trail lead from one state to another by elementary
changes. -/
inductive Path : Environment → List Environment → Environment → Prop where
  | nil (env : Environment) : Path env [] env
  | cons {env env₁ env₂ : Environment} {trail : List Environment} :
      Change env env₁ → Path env₁ trail env₂ → Path env (env₁ :: trail) env₂

namespace Path

variable {env₁ env₂ : Environment} {trail more : List Environment}

theorem single (h : Change env env₁) : Path env [env₁] env₁ :=
  .cons h (.nil env₁)

theorem append (h : Path env trail env₁) (hmore : Path env₁ more env₂) :
    Path env (trail ++ more) env₂ := by
  induction h with
  | nil env => exact hmore
  | cons hstep _ ih => exact .cons hstep (ih hmore)

/-- All states of a path that starts typed are typed. -/
theorem typed_of_mem (h : Path env trail env₁) (henv : env.Typed) :
    ∀ env' ∈ trail, env'.Typed := by
  induction h with
  | nil env =>
      intro env' hmem
      cases hmem
  | cons hstep _ ih =>
      have hnext := hstep.typed henv
      intro env' hmem
      rcases List.mem_cons.1 hmem with rfl | hmem
      · exact hnext
      · exact ih hnext env' hmem

/-- A path that starts typed ends typed. -/
theorem typed (h : Path env trail env₁) (henv : env.Typed) : env₁.Typed := by
  induction h with
  | nil env => exact henv
  | cons hstep _ ih => exact ih (hstep.typed henv)

end Path

end Environment

open Environment

-- ========================================================= expressions

namespace VarType

/-- A type that admits one number admits every number. -/
theorem accepts_number {type : VarType} {x : Float}
    (h : type.accepts (.number x) = true) (y : Float) :
    type.accepts (.number y) = true := by
  cases type with
  | numero | tipik => rfl
  | letra | tinuod => cases h

/-- A type admits the value it gives to variables declared without one. -/
theorem accepts_zero (type : VarType) : type.accepts type.zero = true := by
  cases type <;> rfl

/-- No type admits a text or the null value. -/
theorem accepts_ne {type : VarType} {v : Value} (h : type.accepts v = true) :
    v ≠ .null ∧ ∀ s, v ≠ .text s := by
  constructor
  · rintro rfl
    cases type <;> cases h
  · rintro s rfl
    cases type <;> cases h

end VarType

namespace Run

variable {scope : Nat} {env : Environment}

/-- What a line is read as is a value of the type it is read for. -/
theorem ofInput_accepts {line : String} {type : VarType} {name : Token}
    {v : Value} (h : ofInput line type name = .ok v) :
    type.accepts v = true := by
  unfold ofInput at h
  cases type with
  | numero | tipik =>
      simp only at h
      split at h
      · obtain rfl := Except.ok.inj h
        rfl
      · cases h
  | tinuod =>
      simp only at h
      split at h
      · obtain rfl := Except.ok.inj h
        rfl
      · obtain rfl := Except.ok.inj h
        rfl
      · cases h
  | letra =>
      simp only at h
      split at h
      · obtain rfl := Except.ok.inj h
        rfl
      · cases h

/-- Counting a typed variable is an elementary change. -/
theorem count_change (henv : env.Typed) (scope : Nat) (name : Token)
    (delta : Float) :
    Change env (stateAfter (count scope name delta env)) := by
  rcases count_cases scope name delta env with
    ⟨-, h⟩ | ⟨b, -, -, h⟩ | ⟨b, x, env', hb, hx, hassign, h⟩
  · rw [h]
    exact .stay
  · rw [h]
    exact .stay
  · rw [h]
    -- The type is not looked at: that it admits numbers is the invariant.
    have hnumber : b.type.accepts (.number x) = true := by
      rw [← hx]
      exact henv.lookup hb
    exact .assign hb (VarType.accepts_number hnumber _) hassign

end Run

namespace Expr

variable {scope : Nat} {env : Environment}

/-- What comes behind an expression that starts a computation goes on from
the state that the expression leaves. -/
theorem path_bind {α : Type} {e : Expr} {f : Value → Step α}
    {next : Value → Environment → List Environment}
    (he : Path env (e.trail scope env) (stateAfter (e.eval scope env)))
    (hnext : ∀ v env', e.eval scope env = .ok v env' →
      Path env' (next v env') (stateAfter (f v env'))) :
    Path env (e.trail scope env ++ onward next (e.eval scope env))
      (stateAfter ((e.eval scope >>= f) env)) := by
  cases h : e.eval scope env with
  | error err env' =>
      rw [bind_of_error h, onward, List.append_nil]
      rw [h] at he
      exact he
  | ok v env' =>
      rw [bind_of_ok h]
      rw [h] at he
      exact he.append (hnext v env' h)

/-- A result that does not touch the variables leaves them as they are. -/
theorem path_settle {α : Type} (r : Except Error α) (env : Environment) :
    Path env [] (stateAfter (settle r env)) := by
  cases r with
  | error e => exact .nil env
  | ok a => exact .nil env

/-- An expression that ends with a computation on its value alone leaves
the variables as its value does. -/
theorem path_bind_settle {α : Type} {e : Expr} {f : Value → Except Error α}
    (he : Path env (e.trail scope env) (stateAfter (e.eval scope env))) :
    Path env (e.trail scope env)
      (stateAfter ((e.eval scope >>= fun v => settle (f v)) env)) := by
  have h : Path env
      (e.trail scope env ++ onward (fun _ _ => []) (e.eval scope env))
      (stateAfter ((e.eval scope >>= fun v => settle (f v)) env)) :=
    path_bind he fun v env' _ => path_settle (f v) env'
  have hnil : onward (fun (_ : Value)
      (_ : Environment) => []) (e.eval scope env) = [] := by
    cases e.eval scope env <;> rfl
  rw [hnil, List.append_nil] at h
  exact h

/-- Evaluating an expression is a path of elementary changes. -/
theorem path (e : Expr) (scope : Nat) (henv : env.Typed) :
    Path env (e.trail scope env) (stateAfter (e.eval scope env)) := by
  induction e generalizing env with
  | literal v => exact .nil env
  | var name =>
      rw [eval_var]
      cases env.lookup scope name.lexeme with
      | none => exact .nil env
      | some b => exact .nil env
  | grouping e ih => exact ih henv
  | unary op e ih => exact path_bind_settle (ih henv)
  | binary left op right ihleft ihright =>
      have hleft := ihleft henv
      refine path_bind hleft fun l env' hl => ?_
      rw [hl] at hleft
      exact path_bind_settle (ihright (hleft.typed henv))
  | logical left op right ihleft ihright =>
      have hleft := ihleft henv
      refine path_bind hleft fun l env' hl => ?_
      rw [hl] at hleft
      split
      · exact .nil env'
      · exact ihright (hleft.typed henv)
  | assign name value ih =>
      have hvalue := ih henv
      rw [trail]
      cases hv : value.eval scope env with
      | error e env' =>
          rw [eval_assign_of_error hv]
          rw [hv] at hvalue
          exact hvalue.append (.single .stay)
      | ok v env' =>
          rw [hv] at hvalue
          refine hvalue.append (.single ?_)
          rcases eval_assign_cases name hv with
            ⟨-, h⟩ | ⟨b, -, -, h⟩ | ⟨b, env'', hb, haccepts, hassign, h⟩
          · rw [h]
            exact .stay
          · rw [h]
            exact .stay
          · rw [h]
            exact .assign hb haccepts hassign
  | increment name => exact .single (count_change henv scope name 1.0)
  | decrement name => exact .single (count_change henv scope name (-1.0))

end Expr

-- ======================================================== declarations

namespace Run

variable {scope : Nat} {env : Environment}

/-- A first value that was worked out is one that the type admits. -/
theorem initial_accepts {d : Declaration} {v : Value} {env' : Environment}
    (h : initial scope d env = .ok v env') : d.type.accepts v = true := by
  rcases initial_cases scope d env with
    ⟨-, hinit⟩ | ⟨e, err, env₁, -, -, hinit⟩
    | ⟨e, v₁, env₁, -, -, -, hinit⟩ | ⟨e, v₁, env₁, -, -, haccepts, hinit⟩
  · rw [hinit] at h
    injection h with hv
    subst hv
    exact d.type.accepts_zero
  · rw [hinit] at h
    cases h
  · rw [hinit] at h
    cases h
  · rw [hinit] at h
    injection h with hv
    subst hv
    exact haccepts

/-- Working out a first value is a path of elementary changes. -/
theorem initial_path (henv : env.Typed) (scope : Nat) (d : Declaration) :
    Path env (initialTrail scope d env)
      (stateAfter (initial scope d env)) := by
  unfold initialTrail
  rcases initial_cases scope d env with ⟨hnone, hinit⟩
    | ⟨e, err, env₁, hsome, hv, hinit⟩
    | ⟨e, v, env₁, hsome, hv, -, hinit⟩ | ⟨e, v, env₁, hsome, hv, -, hinit⟩
  · rw [hnone, hinit]
    exact .nil env
  all_goals
    have hpath := e.path scope henv
    rw [hsome, hinit]
    rw [hv] at hpath
    exact hpath

/-- A declaration is a path of elementary changes. -/
theorem declare_path (henv : env.Typed) (scope : Nat) (d : Declaration) :
    Path env (declareTrail scope d env)
      (stateAfter (declare scope d env)) := by
  have hpath := initial_path henv scope d
  unfold declareTrail
  rcases declare_cases scope d env with ⟨e, env₁, hinit, h⟩
    | ⟨v, env₁, hinit, h⟩
  · rw [h]
    rw [hinit] at hpath
    exact hpath.append (.single .stay)
  · rw [h]
    rw [hinit] at hpath
    exact hpath.append
      (.single (.define scope d.name.lexeme ⟨v, d.type⟩
        (initial_accepts hinit)))

/-- Declarations in a row are a path of elementary changes. -/
theorem declareEach_path (henv : env.Typed) (scope : Nat)
    (ds : List Declaration) :
    Path env (declareEachTrail scope ds env)
      (stateAfter (declareEach scope ds env)) := by
  induction ds generalizing env with
  | nil => exact .nil env
  | cons d ds ih =>
      have hpath := declare_path henv scope d
      unfold declareEachTrail declareEach
      cases h : declare scope d env with
      | error e env₁ =>
          rw [bind_of_error h, onward, List.append_nil]
          rw [h] at hpath
          exact hpath
      | ok u env₁ =>
          rw [bind_of_ok h]
          rw [h] at hpath
          exact hpath.append (ih (hpath.typed henv))

-- ================================================== runs on a console

variable {σ : Type} {w : σ}

/-- One run after another is the path of the first and, if that is done,
the path of the second. -/
theorem andThen_path {first : StateM σ Result}
    {second : Environment → StateM σ Result} {trail : List Environment}
    {next : Environment → σ → List Environment}
    (hfirst : Path env trail (first w).1.1)
    (hsecond : ∀ env' w', first w = ((env', .done), w') →
      Path env' (next env' w') (second env' w').1.1) :
    Path env (trail ++ andThenTrail next (first w))
      (andThen first second w).1.1 := by
  rw [andThen_apply]
  rcases hrun : first w with ⟨⟨env', ending⟩, w'⟩
  rw [hrun] at hfirst
  cases ending with
  | done => exact hfirst.append (hsecond env' w' hrun)
  | failed e =>
      rw [andThenTrail, List.append_nil]
      · exact hfirst
      · intro env w h
        cases h
  | outOfTurns =>
      rw [andThenTrail, List.append_nil]
      · exact hfirst
      · intro env w h
        cases h

/-- A run that starts with a computation on the variables is the path of
the computation and, if that does not fault, the path of the rest. -/
theorem afterStep_path {α : Type} {step : Step α} {trail : List Environment}
    {next : α → Environment → List Environment}
    {run : α → Environment → StateM σ Result}
    (hstep : Path env trail (stateAfter (step env)))
    (hrun : ∀ a env',
      step env = .ok a env' → Path env' (next a env') (run a env' w).1.1) :
    Path env (trail ++ onward next (step env))
      (afterStep step run env w).1.1 := by
  cases h : step env with
  | error e env' =>
      rw [h] at hstep
      rw [afterStep_of_error h, onward, List.append_nil]
      exact hstep
  | ok a env' =>
      rw [h] at hstep
      rw [afterStep_of_ok h]
      exact hstep.append (hrun a env' h)

/-- Reading a line for a name is an elementary change. -/
theorem inputOne_change (con : Console (StateM σ)) (scope : Nat) (name : Token)
    (env : Environment) (w : σ) :
    Change env (inputOne con scope name env w).1.1 := by
  rcases inputOne_cases con scope name env w with
    ⟨failure, w', -, h⟩ | ⟨w', -, h⟩ | ⟨line, w', -, h⟩
  · rw [h]
    exact .stay
  · rw [h]
    exact .stay
  · rw [h, ofStep_env]
    rcases storeLine_cases scope name line env with
      ⟨-, h⟩ | ⟨b, e, -, -, h⟩ | ⟨b, v, env', hb, hv, hassign, h⟩
    · rw [h]
      exact .stay
    · rw [h]
      exact .stay
    · rw [h]
      exact .assign hb (ofInput_accepts hv) hassign

/-- An input statement is a path of elementary changes. -/
theorem inputEach_path (con : Console (StateM σ)) (scope : Nat)
    (names : List Token) (env : Environment) (w : σ) :
    Path env (inputTrail con scope names env w)
      (inputEach con scope names env w).1.1 := by
  induction names generalizing env w with
  | nil => exact .nil env
  | cons name names ih =>
      exact andThen_path (.single (inputOne_change con scope name env w))
        fun env' w' _ => ih env' w'

section Scopes

variable {run : Nat → Environment → StateM σ Result}
  {trail : Nat → Environment → σ → List Environment}

theorem inScope_path {parent : Nat} (henv : env.Typed)
    (hrun : ∀ inner env w,
      env.Typed → Path env (trail inner env w) (run inner env w).1.1) :
    Path env (inScopeTrail parent env run trail w)
      (inScope parent env run w).1.1 := by
  have hpush : Change env (env.push parent) := .push parent
  have hinner := hrun env.depth (env.push parent) w (hpush.typed henv)
  have hpop : Change (run env.depth (env.push parent) w).1.1
      (inScope parent env run w).1.1 :=
    .pop env.depth
  exact .cons hpush (hinner.append (.single hpop))

theorem ownScope_path {isBlock : Bool} (henv : env.Typed)
    (hrun : ∀ inner env w,
      env.Typed → Path env (trail inner env w) (run inner env w).1.1) :
    Path env (ownScopeTrail isBlock scope env run trail w)
      (ownScope isBlock scope env run w).1.1 := by
  cases isBlock with
  | true => exact hrun scope env w henv
  | false => exact inScope_path henv hrun

end Scopes

/-- The turns of a loop are a path, if its condition and its body are. -/
theorem turns_path {condition : Step Value}
    {conditionTrail : Environment → List Environment}
    {body : Environment → StateM σ Result}
    {bodyTrail : Environment → σ → List Environment}
    (hcondition : ∀ env,
      env.Typed → Path env (conditionTrail env) (stateAfter (condition env)))
    (hbody : ∀ env w, env.Typed → Path env (bodyTrail env w) (body env w).1.1)
    (n : Nat) (henv : env.Typed) :
    Path env (turnsTrail condition conditionTrail body bodyTrail n env w)
      (turns condition body n env w).1.1 := by
  induction n generalizing env w with
  | zero => exact .nil env
  | succ n ih =>
      have hc := hcondition env henv
      rw [turnsTrail, turns_succ]
      refine afterStep_path hc fun v env₁ h => ?_
      rw [h] at hc
      have henv₁ := hc.typed henv
      by_cases hv : v.isTruthy
      · simp only [hv, if_true]
        have hb := hbody env₁ w henv₁
        refine andThen_path hb fun env₂ w₂ hdone => ?_
        rw [hdone] at hb
        exact ih (hb.typed henv₁)
      · simp only [hv]
        exact .nil env₁

end Run

-- ========================================================== statements

namespace Stmt

variable {σ : Type} (con : Console (StateM σ)) (limit : Nat)

mutual

/-- Running a statement is a path of elementary changes. -/
theorem path (s : Stmt) (scope : Nat) (env : Environment) (w : σ)
    (henv : env.Typed) :
    Path env (s.trail con limit scope env w)
      (s.exec con limit scope env w).1.1 := by
  match s with
  | .expression e =>
      show Path env (e.trail scope env) (Result.ofStep (e.eval scope) env).1
      rw [ofStep_env]
      exact e.path scope henv
  | .print keyword e =>
      have he := e.path scope henv
      rw [trail, exec_print, ← List.append_nil (e.trail scope env)]
      cases h : e.eval scope env with
      | error err env₁ =>
          rw [h] at he
          rw [afterStep_of_error h]
          exact he.append (.nil env₁)
      | ok v env₁ =>
          rw [h] at he
          rw [afterStep_of_ok h]
          refine he.append ?_
          simp only [bind, StateT.bind]
          -- Writing the line is the console's affair and no state of the run.
          rcases con.writeLine v.display w with ⟨answer, w'⟩
          cases answer with
          | error failure => exact .nil env₁
          | ok u => exact .nil env₁
  | .declare d =>
      show Path env (declareTrail scope d env)
        (Result.ofStep (Run.declare scope d) env).1
      rw [ofStep_env]
      exact declare_path henv scope d
  | .declareAll ds =>
      show Path env (declareEachTrail scope ds env)
        (Result.ofStep (declareEach scope ds) env).1
      rw [ofStep_env]
      exact declareEach_path henv scope ds
  | .input names => exact inputEach_path con scope names env w
  | .block body =>
      exact inScope_path henv fun inner env w => pathAll body inner env w
  | .ifThen condition body =>
      have hc := condition.path scope henv
      rw [trail, exec_ifThen]
      refine afterStep_path hc fun v env₁ h => ?_
      rw [h] at hc
      by_cases hv : v.isTruthy
      · simp only [hv, if_true]
        exact ownScope_path (hc.typed henv) fun inner env w =>
          path body inner env w
      · simp only [hv]
        exact .nil env₁
  | .ifElse condition body other =>
      have hc := condition.path scope henv
      rw [trail, exec_ifElse]
      refine afterStep_path hc fun v env₁ h => ?_
      rw [h] at hc
      by_cases hv : v.isTruthy
      · simp only [hv, if_true]
        exact ownScope_path (hc.typed henv) fun inner env w =>
          path body inner env w
      · simp only [hv]
        exact ownScope_path (hc.typed henv) fun inner env w =>
          path other inner env w
  | .loop condition body =>
      exact turns_path (fun env henv => condition.path scope henv)
        (fun env w henv => ownScope_path henv fun inner env w =>
          path body inner env w) limit henv
  | .program body => exact pathAll body scope env w henv

/-- Running statements in order is a path of elementary changes. -/
theorem pathAll (ss : List Stmt) (scope : Nat) (env : Environment) (w : σ)
    (henv : env.Typed) :
    Path env (trailAll con limit ss scope env w)
      (execAll con limit ss scope env w).1.1 := by
  match ss with
  | [] => exact .nil env
  | s :: ss =>
      have hs := path s scope env w henv
      refine andThen_path hs fun env₁ w₁ hdone => ?_
      rw [hdone] at hs
      exact pathAll ss scope env₁ w₁ (hs.typed henv)

end

end Stmt

-- ============================================================ sessions

namespace Run

variable {σ : Type} (con : Console (StateM σ)) (limit : Nat)

/-- A session is a path of elementary changes. -/
theorem session_path (calls : List Stmt) {env : Environment} (w : σ)
    (henv : env.Typed) :
    Path env (sessionTrail con limit calls env w)
      (session con limit calls env w).1 := by
  induction calls generalizing env w with
  | nil => exact .nil env
  | cons s calls ih =>
      have hs := s.path con limit Environment.global env w henv
      exact hs.append (ih _ (hs.typed henv))

/-- In a session that starts without variables every variable holds a
value of its declared type, in every state that is reached: the trail
leads from the empty environment to the last one by elementary changes,
and no variable ever holds a text or the null value. -/
theorem session_store_typed (calls : List Stmt) (w : σ) :
    Path Environment.empty (sessionTrail con limit calls Environment.empty w)
        (session con limit calls Environment.empty w).1
      ∧ ∀ env ∈ Environment.empty
            :: sessionTrail con limit calls Environment.empty w,
          env.Typed ∧ ∀ scope x b, env.bindingAt scope x = some b →
            b.value ≠ .null ∧ ∀ s, b.value ≠ .text s := by
  have hpath := session_path con limit calls w Environment.empty_typed
  refine ⟨hpath, fun env hmem => ?_⟩
  have henv : env.Typed := by
    rcases List.mem_cons.1 hmem with rfl | hmem
    · exact Environment.empty_typed
    · exact hpath.typed_of_mem Environment.empty_typed env hmem
  exact ⟨henv, fun scope x b hb => VarType.accepts_ne (henv scope x b hb)⟩

end Run

end BisayaPlus
