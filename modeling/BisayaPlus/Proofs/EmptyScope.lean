/-
An empty scope goes unnoticed.

Statements that declare nothing in the scope they run in do the same in a
new scope that is dropped behind them (`Stmt.inScope_exec`,
`Stmt.inScope_execAll`). Their variables are found through the empty
scope, and whatever they open lies one place higher. So a block that only
wraps such a statement, or another block, might as well not be there
(`Stmt.block_unnoticed`).

The proof compares two runs. One goes on in an environment, the other in
the same environment with an empty scope put in (`Environment.padded`). At
every step the second state is the first one padded, the values, the
faults and the talk with the console are the same, and the state still
fits the comparison. `Alike` says so of computations on the variables and
`AlikeRun` of runs on a console, with one lemma for each way in which runs
are put together.
-/
import BisayaPlus.Proofs.Padding

namespace BisayaPlus

open Run Environment

-- ===================================================== comparing states

namespace Run

variable {k p i : Nat} {env env' : Environment}

/-- A state that can be compared with itself padded at place `k` below
`p`, while something runs in the scope `i`: in `p` itself, or in a scope
that was opened from there. -/
structure Fits (k p i : Nat) (env : Environment) : Prop where
  grounded : env.Grounded
  before : p < k
  place : k ≤ env.depth
  runs : i = p ∨ k ≤ i
  live : i < env.depth

/-- A change in one scope leaves the empty scope where it fits. -/
theorem Fits.differs {scope : Nat} (h : Fits k p i env)
    (hd : Differs scope env env') :
    Fits k p i env' where
  grounded := hd.grounded h.grounded
  before := h.before
  place := hd.depth ▸ h.place
  runs := h.runs
  live := hd.depth ▸ h.live

/-- Whether the empty scope fits is told by the outline. -/
theorem Fits.congr (h : Fits k p i env) (heq : env'.outline = env.outline) :
    Fits k p i env' :=
  h.differs (Differs.of_eq heq : Differs i env env')

/-- It fits when a further scope is opened. -/
theorem Fits.push (h : Fits k p i env) : Fits k p env.depth (env.push i) := by
  have hdepth := env.depth_push i
  have hplace := h.place
  exact ⟨h.grounded.push h.live, h.before, by omega, .inr h.place, by omega⟩

/-- It fits when the further scope is dropped again. -/
theorem Fits.pop (henv : Fits k p i env) (h : Fits k p env.depth env') :
    Fits k p i (env'.pop env.depth) := by
  have hlive := henv.live
  have hdepth : (env'.pop env.depth).depth = env.depth := by
    rw [depth_pop (by unfold global; omega)]
    exact Nat.min_eq_left (Nat.le_of_lt h.live)
  have hplace := henv.place
  exact ⟨h.grounded.pop env.depth, henv.before, by omega, henv.runs, by omega⟩

-- ================================================ computations alike

variable {α β : Type}

/-- The result of a computation with the variables changed. -/
def mapState (f : Environment → Environment) :
    EStateM.Result Error Environment α → EStateM.Result Error Environment α
  | .ok a env => .ok a (f env)
  | .error e env => .error e (f env)

/-- The first computation does in a padded state what the second one does
in the state itself. -/
def Alike (k p i : Nat) (step' step : Step α) : Prop :=
  ∀ env, Fits k p i env →
    step' (env.padded k p) = mapState (·.padded k p) (step env)
      ∧ Fits k p i (stateAfter (step env))

namespace Alike

theorem pure (a : α) : Alike k p i (Pure.pure a) (Pure.pure a) :=
  fun _ henv => ⟨rfl, henv⟩

theorem throw (e : Error) : Alike k p i (throw e : Step α) (throw e) :=
  fun _ henv => ⟨rfl, henv⟩

theorem settle (r : Except Error α) :
    Alike k p i (Run.settle r) (Run.settle r) := by
  cases r with
  | error e => exact throw e
  | ok a => exact pure a

/-- Two computations in a row go alike if each does. -/
theorem bind {step' step : Step α} {f' f : α → Step β}
    (h : Alike k p i step' step) (hf : ∀ a, Alike k p i (f' a) (f a)) :
    Alike k p i (step' >>= f') (step >>= f) := by
  intro env henv
  obtain ⟨heq, hfits⟩ := h env henv
  cases hstep : step env with
  | error e env₁ =>
      rw [hstep] at heq hfits
      rw [bind_of_error heq, bind_of_error hstep]
      exact ⟨rfl, hfits⟩
  | ok a env₁ =>
      rw [hstep] at heq hfits
      rw [bind_of_ok heq, bind_of_ok hstep]
      exact hf a env₁ hfits

/-- Reading a variable. -/
theorem read (name : Token) {f' f : Binding → Step α}
    (hf : ∀ b, Alike k p i (f' b) (f b)) :
    Alike k p i (do f' (← Run.settle ((← get).binding (moved k p i) name)))
      (do f (← Run.settle ((← get).binding i name))) := by
  intro env henv
  have hlookup :=
    lookup_padded henv.grounded henv.place henv.before henv.runs name.lexeme
  cases hb : env.lookup i name.lexeme with
  | none =>
      rw [hb] at hlookup
      rw [read_of_none hb, read_of_none hlookup]
      exact ⟨rfl, henv⟩
  | some b =>
      rw [hb] at hlookup
      rw [read_of_some hb, read_of_some hlookup]
      exact hf b env henv

/-- Giving a variable a value. -/
theorem store (name : Token) (v : Value) :
    Alike k p i (Run.store (moved k p i) name v) (Run.store i name v) := by
  intro env henv
  have hassign :=
    assign?_padded henv.grounded henv.place henv.before henv.runs name.lexeme v
  rw [store_apply, store_apply, Environment.assign, Environment.assign,
    hassign]
  cases h : env.assign? i name.lexeme v with
  | none => exact ⟨rfl, henv⟩
  | some env' => exact ⟨rfl, henv.congr (outline_assign? h)⟩

/-- Counting goes alike, for the variable is found alike. -/
theorem count (name : Token) (delta : Float) :
    Alike k p i (Run.count (moved k p i) name delta)
      (Run.count i name delta) := by
  refine read name fun b => ?_
  cases b.value with
  | number x => exact bind (store name _) fun _ => pure _
  | truth _ | char _ | text _ | null => exact throw _

end Alike

end Run

/-- Expressions do not notice an empty scope. -/
theorem Expr.eval_alike (e : Expr) (k p i : Nat) :
    Alike k p i (e.eval (moved k p i)) (e.eval i) := by
  induction e with
  | literal v => exact .pure v
  | var name => exact .read name fun b => .pure b.value
  | grouping e ih => exact ih
  | unary op e ih => exact .bind ih fun v => .settle _
  | binary left op right ihleft ihright =>
      exact .bind ihleft fun l => .bind ihright fun r => .settle _
  | logical left op right ihleft ihright =>
      refine .bind ihleft fun l => ?_
      split
      · exact .pure l
      · exact ihright
  | assign name value ih =>
      refine .bind ih fun v => .read name fun b => ?_
      split
      · exact .bind (.store name v) fun _ => .pure v
      · exact .throw _
  | increment name => exact .count name 1.0
  | decrement name => exact .count name (-1.0)

namespace Run

variable {k p i : Nat} {env env' : Environment}

/-- A declaration does not notice an empty scope, unless it would stand in
it. -/
theorem declare_alike (hi : k ≤ i) (d : Declaration) :
    Alike k p i (declare (moved k p i) d) (declare i d) := by
  have hinitial : Alike k p i (initial (moved k p i) d) (initial i d) := by
    unfold initial
    cases d.init with
    | none => exact .pure _
    | some e =>
        refine .bind (e.eval_alike k p i) fun v => ?_
        split
        · exact .pure v
        · exact .throw _
  refine .bind hinitial fun v env henv => ⟨?_, ?_⟩
  · exact congrArg (EStateM.Result.ok ())
      (define_padded henv.place henv.before hi _ _)
  · exact henv.differs (.define env i d.name.lexeme ⟨v, d.type⟩)

/-- Declarations go alike where they do not hit the empty scope. -/
theorem declareEach_alike (hi : k ≤ i) (ds : List Declaration) :
    Alike k p i (declareEach (moved k p i) ds) (declareEach i ds) := by
  induction ds with
  | nil => exact .pure ()
  | cons d ds ih => exact .bind (declare_alike hi d) fun _ => ih

-- ========================================================== runs alike

variable {σ : Type}

/-- The first run does in a padded state what the second one does in the
state itself, with the same ending and the same effect on the console. -/
def AlikeRun (k p i : Nat) (run' run : Environment → StateM σ Result) : Prop :=
  ∀ env w, Fits k p i env →
    run' (env.padded k p) w
        = (((run env w).1.1.padded k p, (run env w).1.2), (run env w).2)
      ∧ Fits k p i (run env w).1.1

namespace AlikeRun

theorem stop (ending : Ending) :
    AlikeRun (σ := σ) k p i (fun env => Pure.pure (env, ending))
      (fun env => Pure.pure (env, ending)) :=
  fun _ _ henv => ⟨rfl, henv⟩

/-- Two runs in a row go alike if each does. -/
theorem andThen {first' first second' second : Environment → StateM σ Result}
    (hfirst : AlikeRun k p i first' first)
    (hsecond : AlikeRun k p i second' second) :
    AlikeRun k p i (fun env => Run.andThen (first' env) second')
      (fun env => Run.andThen (first env) second) := by
  intro env w henv
  obtain ⟨heq, hfits⟩ := hfirst env w henv
  dsimp only
  rw [andThen_apply, andThen_apply, heq]
  rcases hrun : first env w with ⟨⟨env₁, ending⟩, w₁⟩
  rw [hrun] at hfits
  cases ending with
  | done => exact hsecond env₁ w₁ hfits
  | failed e => exact ⟨rfl, hfits⟩
  | outOfTurns => exact ⟨rfl, hfits⟩

/-- A run of one computation goes alike if that does. -/
theorem ofStep {α : Type} {step' step : Step α} (h : Alike k p i step' step) :
    AlikeRun (σ := σ) k p i (fun env => Pure.pure (Result.ofStep step' env))
      (fun env => Pure.pure (Result.ofStep step env)) := by
  intro env w henv
  obtain ⟨heq, hfits⟩ := h env henv
  show ((Result.ofStep step' (env.padded k p)), w) = _
    ∧ Fits k p i (Result.ofStep step env).1
  rw [ofStep_env]
  refine ⟨?_, hfits⟩
  unfold Result.ofStep
  rw [heq]
  show _ = (((Result.ofStep step env).1.padded k p,
    (Result.ofStep step env).2), w)
  unfold Result.ofStep
  cases step env <;> rfl

/-- So does a run behind a computation. -/
theorem afterStep {α : Type} {step' step : Step α}
    {run' run : α → Environment → StateM σ Result}
    (hstep : Alike k p i step' step)
    (hrun : ∀ a, AlikeRun k p i (run' a) (run a)) :
    AlikeRun k p i (Run.afterStep step' run') (Run.afterStep step run) := by
  intro env w henv
  obtain ⟨heq, hfits⟩ := hstep env henv
  cases h : step env with
  | error e env₁ =>
      rw [h] at heq hfits
      rw [afterStep_of_error heq, afterStep_of_error h]
      exact ⟨rfl, hfits⟩
  | ok a env₁ =>
      rw [h] at heq hfits
      rw [afterStep_of_ok heq, afterStep_of_ok h]
      exact hrun a env₁ w hfits

/-- Reading a line goes alike: the console knows nothing of scopes. -/
theorem inputOne (con : Console (StateM σ)) (name : Token) :
    AlikeRun k p i (Run.inputOne con (moved k p i) name)
      (Run.inputOne con i name) := by
  intro env w henv
  have hstore : ∀ line,
      Alike k p i (storeLine (moved k p i) name line)
      (storeLine i name line) := by
    intro line env henv
    have hlookup :=
      lookup_padded henv.grounded henv.place henv.before henv.runs name.lexeme
    have htype : (env.padded k p).typeOf (moved k p i) name
        = env.typeOf i name := by
      unfold typeOf
      rw [hlookup]
    show (Run.settle ((env.padded k p).typeOf (moved k p i) name)
          >>= fun type => Run.settle (ofInput line type name)
          >>= fun v => store (moved k p i) name v) (env.padded k p)
        = mapState (·.padded k p) ((Run.settle (env.typeOf i name)
          >>= fun type => Run.settle (ofInput line type name)
          >>= fun v => store i name v) env)
      ∧ _
    rw [htype]
    exact Alike.bind (.settle _) (fun type => .bind (.settle _) fun v =>
      .store name v) env henv
  simp only [Run.inputOne, Bind.bind, StateT.bind]
  rcases con.readLine (promptFor name) w with ⟨answer, w₁⟩
  rcases answer with failure | line
  · exact ⟨rfl, henv⟩
  · cases line with
    | none => exact ⟨rfl, henv⟩
    | some line => exact ofStep (hstore line) env w₁ henv

/-- So does reading several. -/
theorem inputEach (con : Console (StateM σ)) (names : List Token) :
    AlikeRun k p i (Run.inputEach con (moved k p i) names)
      (Run.inputEach con i names) := by
  induction names with
  | nil => exact stop .done
  | cons name names ih => exact andThen (inputOne con name) ih

/-- A scope that is opened in the padded state lies one place higher. -/
theorem inScope {run : Nat → Environment → StateM σ Result}
    (hrun : ∀ j, k ≤ j → AlikeRun k p j (run (moved k p j)) (run j)) :
    AlikeRun k p i (fun env => Run.inScope (moved k p i) env run)
      (fun env => Run.inScope i env run) := by
  intro env w henv
  obtain ⟨heq, hfits⟩ := hrun env.depth henv.place (env.push i) w henv.push
  refine ⟨?_, henv.pop hfits⟩
  simp only [Run.inScope, Bind.bind, StateT.bind]
  rw [push_padded henv.place, depth_padded henv.place,
    ← moved_of_le henv.before henv.place, heq,
    moved_of_le henv.before henv.place]
  show (((((run env.depth (env.push i) w).1.1.padded k p).pop (env.depth + 1),
    _), _) : Result × σ) = _
  rw [pop_padded hfits.place hfits.before henv.place]
  rfl

/-- A scope of its own is opened one further on. -/
theorem ownScope {run : Nat → Environment → StateM σ Result} {isBlock : Bool}
    (hrun : ∀ j, k ≤ j → AlikeRun k p j (run (moved k p j)) (run j))
    (hblock : isBlock = true → AlikeRun k p i (run (moved k p i)) (run i)) :
    AlikeRun k p i (fun env => Run.ownScope isBlock (moved k p i) env run)
      (fun env => Run.ownScope isBlock i env run) := by
  cases isBlock with
  | true => exact hblock rfl
  | false => exact inScope hrun

/-- The turns of a loop go alike. -/
theorem turns {condition' condition : Step Value}
    {body' body : Environment → StateM σ Result}
    (hcondition : Alike k p i condition' condition)
    (hbody : AlikeRun k p i body' body) (n : Nat) :
    AlikeRun k p i (Run.turns condition' body' n)
    (Run.turns condition body n) := by
  induction n with
  | zero => exact stop .outOfTurns
  | succ n ih =>
      intro env w henv
      rw [turns_succ, turns_succ]
      refine afterStep hcondition (fun v => ?_) env w henv
      by_cases hv : v.isTruthy
      · simp only [hv, if_true]
        exact andThen hbody ih
      · simp only [hv]
        exact stop .done

end AlikeRun

end Run

-- ================================================== runs one after another

namespace Run

variable {σ : Type} {w : σ}

/-- Runs in a row that agree step by step agree. -/
theorem andThen_congr {first first' : StateM σ Result}
    {second second' : Environment → StateM σ Result}
    (hfirst : first w = first' w)
    (hsecond : ∀ env' w',
      first' w = ((env', .done), w') → second env' w' = second' env' w') :
    andThen first second w = andThen first' second' w := by
  rw [andThen_apply, andThen_apply, hfirst]
  rcases hrun : first' w with ⟨⟨env', ending⟩, w'⟩
  cases ending with
  | done => exact hsecond env' w' hrun
  | failed e => rfl
  | outOfTurns => rfl

theorem andThen_assoc (first : StateM σ Result)
    (second third : Environment → StateM σ Result) :
    andThen (andThen first second) third w
      = andThen first (fun env => andThen (second env) third) w := by
  rw [andThen_apply, andThen_apply, andThen_apply]
  rcases first w with ⟨⟨env', ending⟩, w'⟩
  cases ending with
  | done => exact (andThen_apply (second env') third w').symm
  | failed e => rfl
  | outOfTurns => rfl

/-- A run that does nothing more is as good as none. -/
theorem andThen_done (first : StateM σ Result) :
    andThen first (fun env => pure (env, .done)) w = first w := by
  rw [andThen_apply]
  rcases first w with ⟨⟨env', ending⟩, w'⟩
  cases ending <;> rfl

end Run

namespace Stmt

variable {σ : Type} (con : Console (StateM σ)) (limit : Nat)

theorem execAll_append (ss ss' : List Stmt) (scope : Nat) (env : Environment)
    (w : σ) :
    execAll con limit (ss ++ ss') scope env w
      = andThen (execAll con limit ss scope env) (execAll con limit ss'
        scope) w := by
  induction ss generalizing env w with
  | nil => rfl
  | cons s ss ih =>
      show andThen (s.exec con limit scope env) (execAll con limit (ss ++ ss')
        scope) w = _
      rw [execAll, andThen_assoc]
      exact andThen_congr rfl fun env' w' _ => ih env' w'

theorem execAll_singleton (s : Stmt) (scope : Nat) (env : Environment)
    (w : σ) :
    execAll con limit [s] scope env w = s.exec con limit scope env w :=
  andThen_done (s.exec con limit scope env)

end Stmt

-- ========================================================== statements

namespace Stmt

variable {σ : Type} (con : Console (StateM σ)) (limit : Nat) {k p : Nat}

mutual

/-- A statement does not notice an empty scope, unless it would declare
something in it. -/
theorem exec_alike (s : Stmt) (i : Nat) (hi : s.declares = true → k ≤ i) :
    AlikeRun k p i (s.exec con limit (moved k p i)) (s.exec con limit i) := by
  match s with
  | .expression e => exact .ofStep (e.eval_alike k p i)
  | .print keyword e =>
      intro env w henv
      rw [exec_print, exec_print]
      refine AlikeRun.afterStep (e.eval_alike k p i) (fun v env w henv => ?_)
        env w henv
      simp only [bind, StateT.bind]
      rcases con.writeLine v.display w with ⟨answer, w₁⟩
      cases answer with
      | error failure => exact ⟨rfl, henv⟩
      | ok u => exact ⟨rfl, henv⟩
  | .declare d => exact .ofStep (declare_alike (hi rfl) d)
  | .declareAll ds => exact .ofStep (declareEach_alike (hi rfl) ds)
  | .input names => exact .inputEach con names
  | .block body => exact .inScope fun j hj => execAll_alike body j fun _ => hj
  | .ifThen condition body =>
      intro env w henv
      rw [exec_ifThen, exec_ifThen]
      refine AlikeRun.afterStep (condition.eval_alike k p i)
        (fun v => ?_) env w henv
      by_cases hv : v.isTruthy
      · simp only [hv, if_true]
        exact body_alike body i
      · simp only [hv]
        exact .stop .done
  | .ifElse condition body other =>
      intro env w henv
      rw [exec_ifElse, exec_ifElse]
      refine AlikeRun.afterStep (condition.eval_alike k p i)
        (fun v => ?_) env w henv
      by_cases hv : v.isTruthy
      · simp only [hv, if_true]
        exact body_alike body i
      · simp only [hv]
        exact body_alike other i
  | .loop condition body =>
      exact .turns (condition.eval_alike k p i) (body_alike body i) limit
  | .program body => exact execAll_alike body i hi

/-- The body of a branch or loop does not notice an empty scope, whatever
it declares. -/
theorem body_alike (s : Stmt) (i : Nat) :
    AlikeRun k p i
      (fun env => ownScope s.isBlock (moved k p i) env (s.exec con limit))
      (fun env => ownScope s.isBlock i env (s.exec con limit)) := by
  refine .ownScope (fun j hj => exec_alike s j fun _ => hj) fun hblock => ?_
  refine exec_alike s i fun hs => ?_
  rw [declares_of_isBlock hblock] at hs
  cases hs

/-- Statements in a row do not notice an empty scope, unless they would
declare something in it. -/
theorem execAll_alike (ss : List Stmt) (i : Nat)
    (hi : declaresAny ss = true → k ≤ i) :
    AlikeRun k p i (execAll con limit ss (moved k p i))
      (execAll con limit ss i) := by
  match ss with
  | [] => exact .stop .done
  | s :: ss =>
      refine .andThen (exec_alike s i fun hs => hi ?_)
        (execAll_alike ss i fun hss => hi ?_)
      · rw [declaresAny, hs]
        rfl
      · rw [declaresAny, hss, Bool.or_true]

end

-- ================================================== the scope is dropped

variable {scope : Nat} {env : Environment} {w : σ}

/-- A run that does not notice an empty scope and keeps the depth does the
same in a scope of its own as without it. -/
theorem inScope_of_alike {run : Nat → Environment → StateM σ Result}
    (henv : env.Grounded) (hscope : scope < env.depth)
    (hrun : AlikeRun env.depth scope scope (run (moved env.depth scope scope))
      (run scope)) (hdepth : (run scope env w).1.1.depth = env.depth) :
    inScope scope env run w = run scope env w := by
  obtain ⟨heq, -⟩ := hrun env w ⟨henv, hscope, Nat.le_refl _, .inl rfl, hscope⟩
  rw [moved_self] at heq
  simp only [inScope, bind, StateT.bind]
  rw [push_eq_padded, heq]
  show ((((run scope env w).1.1.padded env.depth scope).pop env.depth,
    (run scope env w).1.2), (run scope env w).2) = run scope env w
  rw [← hdepth, pop_padded_self (hdepth ▸ hscope)]
  rfl

/-- Statements that declare nothing do the same in a scope of their own as
without it. -/
theorem inScope_execAll (ss : List Stmt) (hss : declaresAny ss = false)
    (henv : env.Grounded) (hscope : scope < env.depth) :
    inScope scope env (execAll con limit ss) w
      = execAll con limit ss scope env w := by
  refine inScope_of_alike henv hscope (execAll_alike con limit ss scope
    fun h => ?_) (execAll_outline con limit ss scope env w
    hscope).differs.depth
  rw [hss] at h
  cases h

/-- A statement that declares nothing does the same in a scope of its own
as without it. -/
theorem inScope_exec (s : Stmt) (hs : s.declares = false) (henv : env.Grounded)
    (hscope : scope < env.depth) :
    inScope scope env (s.exec con limit) w = s.exec con limit scope env w := by
  refine inScope_of_alike henv hscope (exec_alike con limit s scope
    fun h => ?_) (s.exec_outline con limit scope env w hscope).differs.depth
  rw [hs] at h
  cases h

-- ========================================================= the theorem

/-- A block around one statement that declares nothing goes unnoticed, and
so does a block around a block: in every state whose scopes are grounded,
in every scope that is there and on every console, the run with the block
ends as the run without it, with the same effect on the console and the
same variables. -/
theorem block_unnoticed (henv : env.Grounded) (hscope : scope < env.depth) :
    (∀ s : Stmt, s.declares = false →
        (block [s]).exec con limit scope env w = s.exec con limit scope env w)
      ∧ ∀ ss : List Stmt,
        (block [block ss]).exec con limit scope env w
          = (block ss).exec con limit scope env w := by
  have hsingle : ∀ s : Stmt, s.declares = false →
      (block [s]).exec con limit scope env w
      = s.exec con limit scope env w := by
    intro s hs
    have hss : declaresAny [s] = false := by rw [declaresAny, hs]; rfl
    show inScope scope env (execAll con limit [s]) w = _
    rw [inScope_execAll con limit [s] hss henv hscope, execAll_singleton]
  exact ⟨hsingle, fun ss => hsingle (block ss) rfl⟩

/-- A loop that is left by a fault. It takes one turn, in which it declares
a letter in a block of its own and prints it, and then asks for a variable
that there is none of. -/
def letterLoop : Stmt :=
  let name lexeme : Token := ⟨.identifier, lexeme, none, ⟨1, 0⟩⟩
  .loop (.literal (.truth true)) (.block
    [ .declareAll [⟨name "c", some (.literal (.char 'a')), .letra⟩],
      .print ⟨.ipakita, "IPAKITA", none, ⟨1, 0⟩⟩ (.var (name "c")),
      .expression (.assign (name "d") (.literal (.truth true))) ])

/-- Below the first scope, `letterLoop` prints its letter and faults, in a
block as without it. -/
theorem block_unnoticed_letterLoop :
    let env := Environment.empty.push Environment.global
    let start : Scripted := { queue := [] }
    env.Grounded ∧ letterLoop.declares = false
      ∧ (block [letterLoop]).exec Scripted.console 2 1 env start
        = ((env, .failed ⟨.undefined "d", ⟨1, 0⟩⟩),
          { queue := [], output := #["a"] })
      ∧ (block [block [letterLoop]]).exec Scripted.console 2 1 env start
        = ((env, .failed ⟨.undefined "d", ⟨1, 0⟩⟩),
          { queue := [], output := #["a"] }) := by
  intro env start
  have henv : env.Grounded := empty_grounded.push Nat.zero_lt_one
  obtain ⟨hsingle, hdouble⟩ :=
    block_unnoticed Scripted.console 2 (w := start) henv
      (show 1 < env.depth from Nat.one_lt_two)
  have hplain : letterLoop.exec Scripted.console 2 1 env start
      = ((env, .failed ⟨.undefined "d", ⟨1, 0⟩⟩),
        { queue := [], output := #["a"] }) := rfl
  refine ⟨henv, rfl, ?_, ?_⟩
  · rw [hsingle letterLoop rfl, hplain]
  · rw [hdouble, hsingle letterLoop rfl, hplain]

end Stmt

end BisayaPlus
