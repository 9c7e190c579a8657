/-
What a running program can do in one step.

Evaluation and declaration are written as computations on the variables
(`Run.Step`); here each of them is opened once. For the steps that read or
write a variable there is one lemma that lists all that can happen, with
the fault or the new state, and the lemmas on expressions say how the
parts of an expression follow one another. Proofs about runs go through
these cases and do not open the computations again.
-/
import BisayaPlus.Proofs.Bindings
import BisayaPlus.Run.Source

namespace BisayaPlus

open Run

variable {scope : Nat} {name op : Token} {env env' : Environment} {v : Value}

namespace Run

-- ======================================================== computations

/-- The variables after a computation on them, whether it faulted or not. -/
def stateAfter {α : Type} : EStateM.Result Error Environment α → Environment
  | .ok _ env => env
  | .error _ env => env

theorem ofStep_env {α : Type} (step : Step α) (env : Environment) :
    (Result.ofStep step env).1 = stateAfter (step env) := by
  unfold Result.ofStep
  cases step env <;> rfl

@[simp] theorem throw_apply {α : Type} (e : Error) (env : Environment) :
    (throw e : Step α) env = .error e env := rfl

theorem bind_apply {α β : Type} (x : Step α) (f : α → Step β)
    (env : Environment) :
    (x >>= f) env = match x env with
      | .ok a env => f a env
      | .error e env => .error e env := by
  show EStateM.bind x f env = _
  unfold EStateM.bind
  cases x env <;> rfl

theorem bind_of_ok {α β : Type} {x : Step α} {f : α → Step β} {a : α}
    (h : x env = .ok a env') : (x >>= f) env = f a env' := by
  rw [bind_apply, h]

theorem bind_of_error {α β : Type} {x : Step α} {f : α → Step β} {e : Error}
    (h : x env = .error e env') : (x >>= f) env = .error e env' := by
  rw [bind_apply, h]

/-- Two computations in a row come to a value if both of them do. -/
theorem bind_eq_ok {α β : Type} {x : Step α} {f : α → Step β} {b : β}
    (h : (x >>= f) env = .ok b env') :
    ∃ a env₁, x env = .ok a env₁ ∧ f a env₁ = .ok b env' := by
  cases hx : x env with
  | error e env₁ =>
      rw [bind_of_error hx] at h
      cases h
  | ok a env₁ =>
      rw [bind_of_ok hx] at h
      exact ⟨a, env₁, rfl, h⟩

/-- A result that is settled well was good. -/
theorem settle_eq_ok {α : Type} {r : Except Error α} {a : α}
    (h : settle r env = .ok a env') :
    r = .ok a := by
  cases r with
  | error e => cases h
  | ok b =>
      injection h with h
      rw [h]

-- ================================================ reading a variable

/-- Reading a variable that a name means. -/
theorem read_of_some {α : Type} {b : Binding} {f : Binding → Step α}
    (h : env.lookup scope name.lexeme = some b) :
    (do f (← settle ((← get).binding scope name)) : Step α) env = f b env := by
  show (settle (env.binding scope name) >>= f) env = _
  unfold Environment.binding
  rw [h]
  rfl

/-- Reading a variable by a name that means nothing. -/
theorem read_of_none {α : Type} {f : Binding → Step α}
    (h : env.lookup scope name.lexeme = none) :
    (do f (← settle ((← get).binding scope name)) : Step α) env
      = .error ⟨.undefined name.lexeme, name.span⟩ env := by
  show (settle (env.binding scope name) >>= f) env = _
  unfold Environment.binding
  rw [h]
  rfl

-- ================================================ writing a variable

/-- Giving a variable a value: where the name means nothing, nothing is
changed. -/
theorem store_apply (scope : Nat) (name : Token) (v : Value)
    (env : Environment) :
    store scope name v env = match env.assign scope name v with
      | .ok env' => .ok () env'
      | .error e => .error e env := by
  show (settle (env.assign scope name v) >>= set) env = _
  cases env.assign scope name v <;> rfl

/-- A name that means something can be given a value. -/
theorem store_of_some {b : Binding} (h : env.lookup scope name.lexeme = some b)
    (v : Value) :
    ∃ env', env.assign? scope name.lexeme v = some env'
      ∧ store scope name v env = .ok () env' := by
  have hsome : (env.assign? scope name.lexeme v).isSome = true := by
    rw [Environment.assign?_isSome, h]
    rfl
  obtain ⟨env', henv'⟩ := Option.isSome_iff_exists.1 hsome
  refine ⟨env', henv', ?_⟩
  rw [store_apply, Environment.assign, henv']

/-- All that can happen when a variable is counted up or down. -/
theorem count_cases (scope : Nat) (name : Token) (delta : Float)
    (env : Environment) :
    (env.lookup scope name.lexeme = none
        ∧ count scope name delta env = .error ⟨.undefined name.lexeme,
          name.span⟩ env)
      ∨ (∃ b, env.lookup scope name.lexeme = some b ∧ b.value.asNumber? = none
        ∧ count scope name delta env = .error ⟨.notCountable, name.span⟩ env)
      ∨ (∃ b x env', env.lookup scope name.lexeme = some b
        ∧ b.value = .number x
        ∧ env.assign? scope name.lexeme (.number (x + delta)) = some env'
        ∧ count scope name delta env = .ok (.number (x + delta)) env') := by
  unfold count
  cases hb : env.lookup scope name.lexeme with
  | none => exact .inl ⟨rfl, read_of_none hb⟩
  | some b =>
      rw [read_of_some hb]
      cases hv : b.value with
      | number x =>
          obtain ⟨env', hassign, hstore⟩ :=
            store_of_some hb (.number (x + delta))
          exact .inr (.inr ⟨b, x, env', rfl, hv, hassign, bind_of_ok hstore⟩)
      | truth _ | char _ | text _ | null =>
          exact .inr (.inl ⟨b, rfl, by rw [hv]; rfl, rfl⟩)

/-- All that can happen when a variable is given the value of a line. -/
theorem storeLine_cases (scope : Nat) (name : Token) (line : String)
    (env : Environment) :
    (env.lookup scope name.lexeme = none
        ∧ storeLine scope name line env = .error ⟨.undefinedType name.lexeme,
          name.span⟩ env)
      ∨ (∃ b e, env.lookup scope name.lexeme = some b
        ∧ ofInput line b.type name = .error e
        ∧ storeLine scope name line env = .error e env)
      ∨ (∃ b v env', env.lookup scope name.lexeme = some b
        ∧ ofInput line b.type name = .ok v
        ∧ env.assign? scope name.lexeme v = some env'
        ∧ storeLine scope name line env = .ok () env') := by
  have hline : storeLine scope name line env
      = (do
          store scope name (← settle
            (ofInput line (← settle (env.typeOf scope name)) name)) :
          Step Unit) env := rfl
  rw [hline]
  unfold Environment.typeOf
  cases hb : env.lookup scope name.lexeme with
  | none => exact .inl ⟨rfl, rfl⟩
  | some b =>
      cases hv : ofInput line b.type name with
      | error e =>
          refine .inr (.inl ⟨b, e, rfl, hv, ?_⟩)
          show (settle (ofInput line b.type name) >>= store scope name) env = _
          rw [hv]
          rfl
      | ok v =>
          obtain ⟨env', hassign, hstore⟩ := store_of_some hb v
          refine .inr (.inr ⟨b, v, env', rfl, hv, hassign, ?_⟩)
          show (settle (ofInput line b.type name) >>= store scope name) env = _
          rw [hv]
          exact hstore

/-- All that can happen when the first value of a variable is worked out:
one that is given must fit the type. -/
theorem initial_cases (scope : Nat) (d : Declaration) (env : Environment) :
    (d.init = none ∧ initial scope d env = .ok d.type.zero env)
      ∨ (∃ e err env', d.init = some e ∧ e.eval scope env = .error err env'
        ∧ initial scope d env = .error err env')
      ∨ (∃ e v env', d.init = some e ∧ e.eval scope env = .ok v env'
        ∧ d.type.accepts v = false
        ∧ initial scope d env = .error ⟨.initializer d.name.lexeme d.type v,
          d.name.span⟩ env')
      ∨ (∃ e v env', d.init = some e ∧ e.eval scope env = .ok v env'
        ∧ d.type.accepts v = true
        ∧ initial scope d env = .ok v env') := by
  unfold initial
  cases d.init with
  | none => exact .inl ⟨rfl, rfl⟩
  | some e =>
      cases hv : e.eval scope env with
      | error err env' =>
          exact .inr (.inl ⟨e, err, env', rfl, hv, bind_of_error hv⟩)
      | ok v env' =>
          cases haccepts : d.type.accepts v with
          | false =>
              refine .inr (.inr
                (.inl ⟨e, v, env', rfl, hv, haccepts,
                  (bind_of_ok hv).trans ?_⟩))
              rw [haccepts]
              rfl
          | true =>
              refine .inr (.inr
                (.inr ⟨e, v, env', rfl, hv, haccepts,
                  (bind_of_ok hv).trans ?_⟩))
              rw [haccepts]
              rfl

/-- All that can happen when a variable is declared: its first value is
worked out, and bound. -/
theorem declare_cases (scope : Nat) (d : Declaration) (env : Environment) :
    (∃ e env₁, initial scope d env = .error e env₁
      ∧ declare scope d env = .error e env₁)
      ∨ (∃ v env₁, initial scope d env = .ok v env₁
        ∧ declare scope d env
        = .ok () (env₁.define scope d.name.lexeme ⟨v, d.type⟩)) := by
  unfold declare
  cases h : initial scope d env with
  | error e env₁ => exact .inl ⟨e, env₁, rfl, bind_of_error h⟩
  | ok v env₁ => exact .inr ⟨v, env₁, rfl, bind_of_ok h⟩

end Run

-- ========================================================= expressions

namespace Expr

variable {value : Expr}

/-- All that can happen when a value that was worked out is assigned. -/
theorem eval_assign_cases (name : Token)
    (h : value.eval scope env = .ok v env') :
    (env'.lookup scope name.lexeme = none ∧ (assign name value).eval scope env
          = .error ⟨.undefined name.lexeme, name.span⟩ env')
      ∨ (∃ b, env'.lookup scope name.lexeme = some b ∧ b.type.accepts v = false
        ∧ (assign name value).eval scope env
          = .error ⟨.assignment name.lexeme b.type v, name.span⟩ env')
      ∨ (∃ b env'', env'.lookup scope name.lexeme = some b
        ∧ b.type.accepts v = true
        ∧ env'.assign? scope name.lexeme v = some env''
        ∧ (assign name value).eval scope env = .ok v env'') := by
  unfold eval
  rw [bind_of_ok h]
  cases hb : env'.lookup scope name.lexeme with
  | none => exact .inl ⟨rfl, read_of_none hb⟩
  | some b =>
      rw [read_of_some hb]
      cases hv : b.type.accepts v with
      | false => exact .inr (.inl ⟨b, rfl, hv, by simp⟩)
      | true =>
          obtain ⟨env'', hassign, hstore⟩ := store_of_some hb v
          refine .inr (.inr ⟨b, env'', rfl, hv, hassign, ?_⟩)
          rw [if_pos rfl]
          exact bind_of_ok hstore

/-- A fault in the value of an assignment is that of the assignment. -/
theorem eval_assign_of_error {e : Error}
    (h : value.eval scope env = .error e env') :
    (assign name value).eval scope env = .error e env' := by
  unfold eval
  exact bind_of_error h

/-- The value of a variable. -/
theorem eval_var (scope : Nat) (name : Token) (env : Environment) :
    (var name).eval scope env = match env.lookup scope name.lexeme with
      | some b => .ok b.value env
      | none => .error ⟨.undefined name.lexeme, name.span⟩ env := by
  unfold eval
  cases hb : env.lookup scope name.lexeme with
  | none => exact read_of_none hb
  | some b => exact read_of_some hb

end Expr

-- ========================================================== statements

namespace Run

variable {m : Type → Type} [Monad m]

/-- A run that starts with a computation on the variables: a fault of the
computation is the end of the run. -/
def afterStep {α : Type} (step : Step α) (run : α → Environment → m Result)
    (env : Environment) : m Result :=
  match step env with
  | .error e env => pure (env, .failed e)
  | .ok a env => run a env

theorem afterStep_of_ok {α : Type} {step : Step α}
    {run : α → Environment → m Result} {a : α} (h : step env = .ok a env') :
    afterStep step run env = run a env' := by
  unfold afterStep
  rw [h]

theorem afterStep_of_error {α : Type} {step : Step α}
    {run : α → Environment → m Result} {e : Error}
    (h : step env = .error e env') :
    afterStep step run env = pure (env', .failed e) := by
  unfold afterStep
  rw [h]

/-- All that can happen when a line is read for a name. -/
theorem inputOne_cases {σ : Type} (con : Console (StateM σ)) (scope : Nat)
    (name : Token) (env : Environment) (w : σ) :
    (∃ failure w', con.readLine (promptFor name) w = (.error failure, w')
        ∧ inputOne con scope name env w
          = ((env, .failed ⟨.console failure.reason, name.span⟩), w'))
      ∨ (∃ w', con.readLine (promptFor name) w = (.ok none, w')
        ∧ inputOne con scope name env w
          = ((env, .failed ⟨.noInput name.lexeme, name.span⟩), w'))
      ∨ (∃ line w', con.readLine (promptFor name) w = (.ok (some line), w')
        ∧ inputOne con scope name env w
          = (Result.ofStep (storeLine scope name line) env, w')) := by
  unfold inputOne
  simp only [bind, StateT.bind]
  rcases con.readLine (promptFor name) w with ⟨answer, w'⟩
  rcases answer with failure | line
  · exact .inl ⟨failure, w', rfl, rfl⟩
  · cases line with
    | none => exact .inr (.inl ⟨w', rfl, rfl⟩)
    | some line => exact .inr (.inr ⟨line, w', rfl, rfl⟩)

/-- One turn of a loop, and the turns behind it. -/
theorem turns_succ (condition : Step Value) (body : Environment → m Result)
    (n : Nat) (env : Environment) :
    turns condition body (n + 1) env = afterStep condition (fun v env =>
      if v.isTruthy then andThen (body env) (turns condition body n)
      else pure (env, .done)) env := by
  rw [turns]
  unfold afterStep
  cases condition env <;> rfl

end Run

namespace Stmt

variable {m : Type → Type} [Monad m] (con : Console m) (limit : Nat)

theorem exec_print (keyword : Token) (e : Expr) (scope : Nat)
    (env : Environment) :
    (print keyword e).exec con limit scope env
      = afterStep (e.eval scope) (fun v env => do
      match ← con.writeLine v.display with
      | .ok () => pure (env, .done)
      | .error failure =>
          pure (env, .failed ⟨.console failure.reason, keyword.span⟩))
            env := by
  rw [exec]
  unfold afterStep
  cases e.eval scope env <;> rfl

theorem exec_ifThen (condition : Expr) (body : Stmt) (scope : Nat)
    (env : Environment) :
    (ifThen condition body).exec con limit scope env
      = afterStep (condition.eval scope) (fun v env =>
          if v.isTruthy then ownScope body.isBlock scope env
          (body.exec con limit)
          else pure (env, .done)) env := by
  rw [exec]
  unfold afterStep
  cases condition.eval scope env <;> rfl

theorem exec_ifElse (condition : Expr) (body other : Stmt) (scope : Nat)
    (env : Environment) :
    (ifElse condition body other).exec con limit scope env
      = afterStep (condition.eval scope) (fun v env =>
          if v.isTruthy then ownScope body.isBlock scope env
          (body.exec con limit)
          else ownScope other.isBlock scope env
          (other.exec con limit)) env := by
  rw [exec]
  unfold afterStep
  cases condition.eval scope env <;> rfl

end Stmt

-- ========================================================= source texts

/-- A run that fails has faulted. -/
theorem Run.Ending.exists_failed_of_outcome {ending : Ending} {e : RunError}
    (h : ending.outcome = .over (.error e)) :
    ∃ err, e = .runtime err ∧ ending = .failed err := by
  cases ending with
  | failed err =>
      injection h with h
      injection h with h
      exact ⟨err, h.symm, rfl⟩
  | done => cases h
  | outOfTurns => cases h

/-- A fault as the outcome is a fault as the ending. -/
theorem Run.Ending.eq_failed_of_outcome {ending : Ending} {e : Error}
    (h : ending.outcome = .over (.error (.runtime e))) :
    ending = .failed e := by
  obtain ⟨err, herr, hending⟩ := exists_failed_of_outcome h
  injection herr with herr
  rw [hending, herr]

/-- The run of a text that is a program is the run of the program, with no
variables to start with. -/
theorem Run.source_apply {σ : Type} (con : Console (StateM σ)) (limit : Nat)
    {text : String} {p : Stmt} (h : Stmt.ofSource text = .ok p) (w : σ) :
    source con limit text w
      = ((p.interpret con limit Environment.empty w).1.2.outcome,
      (p.interpret con limit Environment.empty w).2) := by
  unfold source sourceIn
  rw [h]
  rfl

/-- A text that is no program is not run. -/
theorem Run.source_apply_error {σ : Type} (con : Console (StateM σ))
    (limit : Nat) {text : String} {e : SourceError}
    (h : Stmt.ofSource text = .error e) (w : σ) :
    source con limit text w = (.over (.error (.source e)), w) := by
  unfold source sourceIn
  rw [h]
  rfl

end BisayaPlus
