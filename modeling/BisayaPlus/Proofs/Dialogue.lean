/-
A run as a dialogue with its console.

Running is defined for consoles of any kind of effect (`Run/Exec.lean`).
What a statement does with a console is always the same, though: it
writes a line and stops if that fails, or it reads a line and stops if
there is none. A `Dialogue` is this and nothing else. It knows every
line that is written, every name a line is read for and, for each answer
of the console, how the run goes on.

`Stmt.dialogue` is the dialogue of a statement, and `Stmt.exec_answer`
says that running the statement on a console is to have the console
answer the dialogue. What holds of runs on all consoles, or of two runs
on different ones, is then shown by induction on dialogues, which have
three cases, and not by induction on statements, loops and scopes.

That needs three facts on the dialogues of statements. They are the
parts of `Dialogue.Regular`, and `Stmt.dialogue_regular` goes through the
statements for all three at once.
-/
import BisayaPlus.Proofs.Faults

namespace BisayaPlus

open Run

namespace Run

-- =========================================================== dialogues

/-- A run with its questions to the console left open. -/
inductive Dialogue where
  /-- The run comes to its end and asks nothing more. -/
  | ended (r : Result)
  /-- The `IPAKITA` of this keyword writes a line. The variables `left`
  are those that the run leaves if it ends here. -/
  | write (keyword : Token) (line : String) (left : Environment)
      (next : Dialogue)
  /-- A line is read for a name. -/
  | read (name : Token) (left : Environment) (next : String → Dialogue)

namespace Dialogue

/-- The run of a dialogue on a console. -/
def answer {m : Type → Type} [Monad m] (con : Console m) : Dialogue → m Result
  | ended r => pure r
  | write keyword line left next => do
      match ← con.writeLine line with
      | .ok () => next.answer con
      | .error failure =>
          pure (left, .failed ⟨.console failure.reason, keyword.span⟩)
  | read name left next => do
      match ← con.readLine (promptFor name) with
      | .error failure =>
          pure (left, .failed ⟨.console failure.reason, name.span⟩)
      | .ok none => pure (left, .failed ⟨.noInput name.lexeme, name.span⟩)
      | .ok (some line) => (next line).answer con

-- ------------------------------------------------ putting them together

/-- Goes on with the second dialogue where the first one is done. -/
def andThen (second : Environment → Dialogue) : Dialogue → Dialogue
  | ended (env, .done) => second env
  | ended (env, ending) => ended (env, ending)
  | write keyword line left next =>
      write keyword line left (next.andThen second)
  | read name left next =>
      read name left fun line => (next line).andThen second

/-- The dialogue with other variables behind it, wherever it ends. -/
def leaving (f : Environment → Environment) : Dialogue → Dialogue
  | ended r => ended (f r.1, r.2)
  | write keyword line left next =>
      write keyword line (f left) (next.leaving f)
  | read name left next => read name (f left) fun line => (next line).leaving f

/-- The dialogue behind a computation on the variables. -/
def afterStep {α : Type} (step : Step α) (run : α → Environment → Dialogue)
    (env : Environment) : Dialogue :=
  match step env with
  | .error e env => ended (env, .failed e)
  | .ok a env => run a env

/-- The dialogue in a new scope, which is dropped wherever it ends. -/
def inScope (parent : Nat) (env : Environment)
    (run : Nat → Environment → Dialogue) : Dialogue :=
  (run env.depth (env.push parent)).leaving (·.pop env.depth)

/-- The dialogue of the body of a branch or loop. -/
def ownScope (isBlock : Bool) (scope : Nat) (env : Environment)
    (run : Nat → Environment → Dialogue) : Dialogue :=
  if isBlock then run scope env else inScope scope env run

/-- The dialogue of the turns of a loop. -/
def turns (condition : Step Value) (body : Environment → Dialogue) :
    Nat → Environment → Dialogue
  | 0 => fun env => ended (env, .outOfTurns)
  | n + 1 => afterStep condition fun v env =>
      if v.isTruthy then (body env).andThen (turns condition body n)
        else ended (env, .done)

/-- The dialogue of an input statement. -/
def inputEach (scope : Nat) : List Token → Environment → Dialogue
  | [], env => ended (env, .done)
  | name :: names, env => read name env fun line =>
      (ended (Result.ofStep (storeLine scope name line) env)).andThen
        (inputEach scope names)

end Dialogue

end Run

-- ========================================================== statements

namespace Stmt

mutual

/-- The dialogue of a statement in a scope, with so many turns for each
loop. -/
def dialogue (limit : Nat) : Stmt → Nat → Environment → Dialogue
  | expression e, scope, env => .ended (Result.ofStep (e.eval scope) env)
  | print keyword e, scope, env =>
      Dialogue.afterStep (e.eval scope) (fun v env =>
      .write keyword v.display env (.ended (env, .done))) env
  | declare d, scope, env => .ended (Result.ofStep (Run.declare scope d) env)
  | declareAll ds, scope, env =>
      .ended (Result.ofStep (declareEach scope ds) env)
  | input names, scope, env => Dialogue.inputEach scope names env
  | block body, scope, env =>
      Dialogue.inScope scope env (dialogueAll limit body)
  | ifThen condition body, scope, env =>
      Dialogue.afterStep (condition.eval scope) (fun v env =>
      if v.isTruthy then Dialogue.ownScope body.isBlock scope env
      (dialogue limit body)
      else .ended (env, .done)) env
  | ifElse condition body other, scope, env =>
      Dialogue.afterStep (condition.eval scope) (fun v env =>
        if v.isTruthy then Dialogue.ownScope body.isBlock scope env
        (dialogue limit body)
        else Dialogue.ownScope other.isBlock scope env
        (dialogue limit other)) env
  | loop condition body, scope, env => Dialogue.turns (condition.eval scope)
      (fun env => Dialogue.ownScope body.isBlock scope env
        (dialogue limit body)) limit env
  | program body, scope, env => dialogueAll limit body scope env

/-- The dialogue of statements in order. -/
def dialogueAll (limit : Nat) : List Stmt → Nat → Environment → Dialogue
  | [], _, env => .ended (env, .done)
  | s :: ss, scope, env =>
      (dialogue limit s scope env).andThen (dialogueAll limit ss scope)

end

end Stmt

-- ===================================================== runs as answers

namespace Run.Dialogue

variable {m : Type → Type} [Monad m] (con : Console m)

theorem answer_afterStep {α : Type} (step : Step α)
    (run : α → Environment → Dialogue) (env : Environment) :
    (afterStep step run env).answer con
      = Run.afterStep step (fun a env => (run a env).answer con) env := by
  unfold afterStep Run.afterStep
  cases step env <;> rfl

variable [LawfulMonad m]

theorem answer_andThen (second : Environment → Dialogue) (d : Dialogue) :
    (d.andThen second).answer con
      = Run.andThen (d.answer con) fun env => (second env).answer con := by
  induction d with
  | ended r =>
      obtain ⟨env, ending⟩ := r
      unfold Run.andThen
      cases ending <;> simp [andThen, answer]
  | write keyword line left next ih =>
      simp only [andThen, answer, Run.andThen, bind_assoc, ih]
      congr
      funext r
      cases r <;> simp
  | read name left next ih =>
      simp only [andThen, answer, Run.andThen, bind_assoc, ih]
      congr
      funext r
      rcases r with failure | (_ | line) <;> simp

theorem answer_leaving (f : Environment → Environment) (d : Dialogue) :
    (d.leaving f).answer con = d.answer con >>= fun r =>
      pure (f r.1, r.2) := by
  induction d with
  | ended r => simp [leaving, answer]
  | write keyword line left next ih =>
      simp only [leaving, answer, bind_assoc, ih]
      congr
      funext r
      cases r <;> simp
  | read name left next ih =>
      simp only [leaving, answer, bind_assoc, ih]
      congr
      funext r
      rcases r with failure | (_ | line) <;> simp

theorem answer_inScope (parent : Nat) (env : Environment)
    (run : Nat → Environment → Dialogue) :
    (inScope parent env run).answer con
      = Run.inScope parent env fun scope env => (run scope env).answer con :=
  answer_leaving con _ _

theorem answer_ownScope (isBlock : Bool) (scope : Nat) (env : Environment)
    (run : Nat → Environment → Dialogue) :
    (ownScope isBlock scope env run).answer con
      = Run.ownScope isBlock scope env fun scope env =>
        (run scope env).answer con := by
  cases isBlock with
  | true => rfl
  | false => exact answer_inScope con scope env run

theorem answer_turns (condition : Step Value) (body : Environment → Dialogue)
    (n : Nat) :
    (fun env => (turns condition body n env).answer con)
      = Run.turns condition (fun env => (body env).answer con) n := by
  induction n with
  | zero => rfl
  | succ n ih =>
      funext env
      rw [turns_succ, turns, answer_afterStep]
      congr
      funext v env
      split
      · rw [answer_andThen, ih]
      · rfl

theorem answer_inputEach (scope : Nat) (names : List Token) :
    (fun env => (inputEach scope names env).answer con)
      = Run.inputEach con scope names := by
  induction names with
  | nil => rfl
  | cons name names ih =>
      funext env
      simp only [inputEach, answer, Run.inputEach, Run.inputOne, Run.andThen,
        bind_assoc]
      congr
      funext r
      rcases r with failure | (_ | line)
      · simp
      · simp
      · dsimp only
        rw [answer_andThen, ih]
        rfl

end Run.Dialogue

namespace Stmt

variable {m : Type → Type} [Monad m] [LawfulMonad m] (con : Console m)
  (limit : Nat)

mutual

/-- Running a statement on a console is to have the console answer its
dialogue. -/
theorem exec_answer (s : Stmt) :
    s.exec con limit = fun scope env =>
      (s.dialogue limit scope env).answer con := by
  funext scope env
  match s with
  | .expression _ | .declare _ | .declareAll _ => rfl
  | .print keyword e =>
      rw [exec_print, dialogue, Dialogue.answer_afterStep]
      rfl
  | .input names =>
      exact congrFun (Dialogue.answer_inputEach con scope names).symm env
  | .block body =>
      rw [exec, dialogue, Dialogue.answer_inScope, execAll_answer body]
  | .ifThen condition body =>
      rw [exec_ifThen, dialogue, Dialogue.answer_afterStep, exec_answer body]
      congr
      funext v env
      split
      · rw [Dialogue.answer_ownScope]
      · rfl
  | .ifElse condition body other =>
      rw [exec_ifElse, dialogue, Dialogue.answer_afterStep, exec_answer body,
        exec_answer other]
      congr
      funext v env
      split
      · rw [Dialogue.answer_ownScope]
      · rw [Dialogue.answer_ownScope]
  | .loop condition body =>
      rw [exec, dialogue, exec_answer body]
      simp only [← Dialogue.answer_ownScope]
      exact congrFun (Dialogue.answer_turns con _ _ limit).symm env
  | .program body => rw [exec, dialogue, execAll_answer body]

/-- Running statements in order on a console is to have the console
answer their dialogue. -/
theorem execAll_answer (ss : List Stmt) :
    execAll con limit ss = fun scope env =>
      (dialogueAll limit ss scope env).answer con := by
  funext scope env
  match ss with
  | [] => rfl
  | s :: ss =>
      rw [execAll, dialogueAll, Dialogue.answer_andThen, exec_answer s,
        execAll_answer ss]

end

theorem interpret_answer (s : Stmt) (env : Environment) :
    s.interpret con limit env
      = (s.dialogue limit Environment.global env).answer con := by
  unfold interpret
  rw [exec_answer]

end Stmt

-- ============================================= answers one at a time

namespace Run.Dialogue

variable {σ : Type} {con : Console (StateM σ)} {keyword name : Token}
  {line : String}
  {left : Environment} {w w' : σ} {failure : Console.Failure}

/-- A line that is written takes the dialogue on. -/
theorem answer_write_ok {next : Dialogue}
    (h : con.writeLine line w = (.ok (), w')) :
    (write keyword line left next).answer con w = next.answer con w' := by
  simp only [answer, bind, StateT.bind, h]

/-- A line that is not written ends it. -/
theorem answer_write_error {next : Dialogue}
    (h : con.writeLine line w = (.error failure, w')) :
    (write keyword line left next).answer con w
      = ((left, .failed ⟨.console failure.reason, keyword.span⟩), w') := by
  simp only [answer, bind, StateT.bind, h]
  rfl

variable {next : String → Dialogue}

/-- A line that is read takes the dialogue on. -/
theorem answer_read_some
    (h : con.readLine (promptFor name) w = (.ok (some line), w')) :
    (read name left next).answer con w = (next line).answer con w' := by
  simp only [answer, bind, StateT.bind, h]

/-- An exhausted input ends it. -/
theorem answer_read_none
    (h : con.readLine (promptFor name) w = (.ok none, w')) :
    (read name left next).answer con w
      = ((left, .failed ⟨.noInput name.lexeme, name.span⟩), w') := by
  simp only [answer, bind, StateT.bind, h]
  rfl

/-- So does a read that fails. -/
theorem answer_read_error
    (h : con.readLine (promptFor name) w = (.error failure, w')) :
    (read name left next).answer con w
      = ((left, .failed ⟨.console failure.reason, name.span⟩), w') := by
  simp only [answer, bind, StateT.bind, h]
  rfl

end Run.Dialogue

-- =================================================== regular dialogues

namespace Run

/-- The fault is that the input is exhausted. -/
def Fault.starved : Fault → Bool
  | noInput _ => true
  | _ => false

/-- The run has ended because the input is exhausted. -/
def Ending.starved : Ending → Bool
  | failed e => e.fault.starved
  | done | outOfTurns => false

/-- A dialogue that a statement can have. -/
inductive Dialogue.Regular (prints : Token → String → Prop) : Dialogue → Prop
  /-- Where nothing was asked, no input was missing. -/
  | ended {r : Result} (h : r.2.starved = false) : Regular prints (.ended r)
  | write {keyword : Token} {line : String} {left : Environment}
      {next : Dialogue}
      (h : prints keyword line) (hnext : Regular prints next) :
      Regular prints (.write keyword line left next)
  /-- A line feed behind a line that was read makes no difference. -/
  | read {name : Token} {left : Environment} {next : String → Dialogue}
      (h : ∀ line, next (line ++ "\n") = next line)
      (hnext : ∀ line, Regular prints (next line)) :
      Regular prints (.read name left next)

-- ---------------------------------------------------------- single steps

/-- Characters of the class at the end of a text are dropped with it. -/
theorem dropEnd_append {p : Char → Bool} (cs : List Char) {tail : List Char}
    (h : ∀ c ∈ tail, p c = true) :
    Text.dropEnd p (cs ++ tail) = Text.dropEnd p cs := by
  unfold Text.dropEnd
  rw [List.reverse_append, List.dropWhile_append_of_pos]
  intro c hc
  exact h c (List.mem_reverse.1 hc)

/-- A line feed behind a line of input does not count. -/
theorem inputText_feed (line : String) :
    inputText (line ++ "\n") = inputText line := by
  unfold inputText
  rw [String.toList_append, dropEnd_append]
  exact List.forall_mem_singleton.2 rfl

/-- A line feed behind a line makes no difference to its value. -/
theorem ofInput_feed (line : String) (type : VarType) (name : Token) :
    ofInput (line ++ "\n") type name = ofInput line type name := by
  unfold ofInput
  rw [inputText_feed]

theorem storeLine_feed (scope : Nat) (name : Token) (line : String) :
    storeLine scope name (line ++ "\n") = storeLine scope name line := by
  unfold storeLine
  simp only [ofInput_feed]

/-- The error is no lack of input. -/
def Error.Fed (e : Error) : Prop := e.fault.starved = false

/-- A line that does not fit did not run out. -/
theorem ofInput_fed {line : String} {type : VarType} {name : Token} {e : Error}
    (h : ofInput line type name = .error e) : e.Fed := by
  rcases ofInput_error h with ⟨text, rfl⟩ | ⟨text, rfl⟩ | rfl <;> rfl

/-- Taking a line for a variable does not run out of lines. -/
theorem storeLine_fed (scope : Nat) (name : Token) (line : String) :
    OnlyThrows Error.Fed (storeLine scope name line) := by
  intro env
  rcases storeLine_cases scope name line env with
    ⟨-, h⟩ | ⟨b, e, -, he, h⟩ | ⟨b, v, env', -, -, -, h⟩
  · rw [h]
    exact rfl
  · rw [h]
    exact ofInput_fed he
  · rw [h]
    trivial

end Run

/-- No expression runs out of lines. -/
theorem Expr.Causes.fed {e : Expr} {err : Error} (h : e.Causes err) :
    err.Fed := by
  obtain ⟨n, -, hraises⟩ := h
  cases hraises <;> rfl

/-- Evaluating does not run out of lines. -/
theorem Expr.eval_fed (e : Expr) (scope : Nat) :
    OnlyThrows Error.Fed (e.eval scope) :=
  (e.eval_throws scope).mono fun _ => Causes.fed

/-- Only input statements raise a lack of input. -/
theorem Stmt.Raises.fed {s : Stmt} {err : Error} (h : s.Raises err)
    (hs : ∀ names, s ≠ input names) : err.Fed := by
  cases h with
  | print | initializer => rfl
  | console | noInput | undefinedType | line => exact absurd rfl (hs _)

/-- Nor does a declaration. -/
theorem Run.declare_fed (scope : Nat) (d : Declaration) :
    OnlyThrows Error.Fed (declare scope d) := by
  have hinit : ∀ e ∈ d.init, e ∈ (Stmt.declare d).heads := fun e he =>
    Option.mem_toList.2 he
  refine (declare_throws List.mem_cons_self hinit scope).mono fun err h => ?_
  obtain ⟨t, ht, hraises | ⟨e, -, hcauses⟩⟩ := h
  · obtain rfl := List.mem_singleton.1 ht
    exact hraises.fed fun names => Stmt.noConfusion
  · exact hcauses.fed

theorem Run.declareEach_fed (scope : Nat) (ds : List Declaration) :
    OnlyThrows Error.Fed (declareEach scope ds) := by
  induction ds with
  | nil => exact .pure ()
  | cons d ds ih => exact .bind (declare_fed scope d) fun _ => ih

-- -------------------------------------------------------- whole dialogues

namespace Run.Dialogue.Regular

variable {K K' : Token → String → Prop} {α : Type}

/-- What is printed may be said more weakly. -/
theorem mono {d : Dialogue} (h : Regular K d)
    (hK : ∀ keyword line, K keyword line → K' keyword line) :
    Regular K' d := by
  induction h with
  | ended h => exact .ended h
  | write h _ ih => exact .write (hK _ _ h) ih
  | read h _ ih => exact .read h ih

/-- A computation without input is a dialogue that has ended. -/
theorem ofStep {step : Step α} (h : OnlyThrows Error.Fed step)
    (env : Environment) :
    Regular K (.ended (Result.ofStep step env)) := by
  refine .ended ?_
  have hstep := h env
  unfold Result.ofStep
  cases heq : step env with
  | ok a env' => rfl
  | error e env' =>
      rw [heq] at hstep
      exact hstep

/-- Two regular dialogues in a row are regular. -/
theorem andThen {d : Dialogue} {second : Environment → Dialogue}
    (h : Regular K d) (hsecond : ∀ env, Regular K (second env)) :
    Regular K (d.andThen second) := by
  induction h with
  | @ended r h =>
      obtain ⟨env, ending⟩ := r
      cases ending with
      | done => exact hsecond env
      | failed e => exact .ended h
      | outOfTurns => exact .ended h
  | write h _ ih => exact .write h ih
  | read h _ ih => exact .read (fun line => by rw [h line]) ih

theorem leaving {d : Dialogue} {f : Environment → Environment}
    (h : Regular K d) :
    Regular K (d.leaving f) := by
  induction h with
  | ended h => exact .ended h
  | write h _ ih => exact .write h ih
  | read h _ ih => exact .read (fun line => by rw [h line]) ih

/-- So is a regular one behind a computation. -/
theorem afterStep {step : Step α} {run : α → Environment → Dialogue}
    {env : Environment} (hstep : OnlyThrows Error.Fed step)
    (hrun : ∀ a env', step env = .ok a env' → Regular K (run a env')) :
    Regular K (Dialogue.afterStep step run env) := by
  have henv := hstep env
  unfold Dialogue.afterStep
  cases h : step env with
  | ok a env' => exact hrun a env' h
  | error e env' =>
      rw [h] at henv
      exact .ended henv

/-- A scope of its own asks nothing. -/
theorem ownScope {run : Nat → Environment → Dialogue}
    (hrun : ∀ scope env, Regular K (run scope env)) (isBlock : Bool)
    (scope : Nat) (env : Environment) :
    Regular K (Dialogue.ownScope isBlock scope env run) := by
  cases isBlock with
  | true => exact hrun scope env
  | false => exact (hrun env.depth (env.push scope)).leaving

/-- The turns of a loop are regular if the body is. -/
theorem turns {condition : Step Value} {body : Environment → Dialogue}
    (hcondition : OnlyThrows Error.Fed condition)
    (hbody : ∀ env, Regular K (body env)) (n : Nat) (env : Environment) :
    Regular K (Dialogue.turns condition body n env) := by
  induction n generalizing env with
  | zero => exact .ended rfl
  | succ n ih =>
      refine afterStep hcondition fun v env' _ => ?_
      split
      · exact (hbody env').andThen ih
      · exact .ended rfl

/-- Reading names is regular: a line feed behind a line is no part of it.
-/
theorem inputEach (scope : Nat) (names : List Token) (env : Environment) :
    Regular K (Dialogue.inputEach scope names env) := by
  induction names generalizing env with
  | nil => exact .ended rfl
  | cons name names ih =>
      refine .read (fun line => ?_) fun line => ?_
      · rw [storeLine_feed]
      · exact (ofStep (storeLine_fed scope name line) env).andThen ih

end Run.Dialogue.Regular

namespace Stmt

/-- A print statement of this keyword in the statement can write the
line: in some state it is what its value looks like. -/
def Prints (s : Stmt) (keyword : Token) (line : String) : Prop :=
  ∃ e scope env v env', print keyword e ∈ s.parts
    ∧ e.eval scope env = .ok v env'
    ∧ v.display = line

/-- What a part prints the whole prints. -/
theorem Prints.of_part {s part : Stmt} {keyword : Token} {line : String}
    (h : part.Prints keyword line) (hsub : part.parts ⊆ s.parts) :
    s.Prints keyword line := by
  obtain ⟨e, scope, env, v, env', hpart, hv⟩ := h
  exact ⟨e, scope, env, v, env', hsub hpart, hv⟩

variable (limit : Nat)

mutual

/-- The dialogue of a statement is regular, and writes what its print
statements do. -/
theorem dialogue_regular (s : Stmt) (scope : Nat) (env : Environment) :
    (s.dialogue limit scope env).Regular s.Prints := by
  match s with
  | .expression e => exact .ofStep (e.eval_fed scope) env
  | .print keyword e =>
      refine .afterStep (e.eval_fed scope) fun v env' hv =>
        .write ?_ (.ended rfl)
      exact ⟨e, scope, env, v, env', List.mem_cons_self, hv, rfl⟩
  | .declare d => exact .ofStep (declare_fed scope d) env
  | .declareAll ds => exact .ofStep (declareEach_fed scope ds) env
  | .input names => exact .inputEach scope names env
  | .block body =>
      refine .leaving
        ((dialogueAll_regular body env.depth (env.push scope)).mono ?_)
      exact fun keyword line ⟨s, hs, h⟩ => h.of_part fun t ht =>
        List.mem_cons_of_mem _ (mem_partsAll.2 ⟨s, hs, ht⟩)
  | .ifThen condition body =>
      refine .afterStep (condition.eval_fed scope) fun v env' _ => ?_
      split
      · exact .ownScope
          (fun scope env =>
            (dialogue_regular body scope env).mono fun keyword line h =>
            h.of_part (List.subset_cons_self _ _)) _ scope env'
      · exact .ended rfl
  | .ifElse condition body other =>
      have hbody : body.parts ⊆ (ifElse condition body other).parts := by
        simp [parts]
      have hother : other.parts ⊆ (ifElse condition body other).parts := by
        simp [parts]
      refine .afterStep (condition.eval_fed scope) fun v env' _ => ?_
      split
      · exact .ownScope
          (fun scope env =>
            (dialogue_regular body scope env).mono fun keyword line h =>
            h.of_part hbody) _ scope env'
      · exact .ownScope
          (fun scope env =>
            (dialogue_regular other scope env).mono fun keyword line h =>
            h.of_part hother) _ scope env'
  | .loop condition body =>
      exact .turns (condition.eval_fed scope)
        (fun env => .ownScope (fun scope env =>
        (dialogue_regular body scope env).mono
          fun keyword line h =>
          h.of_part (List.subset_cons_self _ _)) _ scope env) limit env
  | .program body =>
      exact (dialogueAll_regular body scope env).mono
        fun keyword line ⟨s, hs, h⟩ =>
        h.of_part fun t ht =>
          List.mem_cons_of_mem _ (mem_partsAll.2 ⟨s, hs, ht⟩)

/-- So is that of statements in order. -/
theorem dialogueAll_regular (ss : List Stmt) (scope : Nat)
    (env : Environment) :
    (dialogueAll limit ss scope env).Regular
      fun keyword line => ∃ s ∈ ss, s.Prints keyword line := by
  match ss with
  | [] => exact .ended rfl
  | s :: ss =>
      refine .andThen ((dialogue_regular s scope env).mono ?_) fun env' =>
        (dialogueAll_regular ss scope env').mono ?_
      · exact fun keyword line h => ⟨s, List.mem_cons_self, h⟩
      · exact fun keyword line ⟨t, ht, h⟩ => ⟨t, List.mem_cons_of_mem s ht, h⟩

end

end Stmt

end BisayaPlus
