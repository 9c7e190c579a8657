/-
Where the faults of a run come from.

Every fault arises at one part of the tree that is run. `Expr.Raises` and
`Stmt.Raises` list the faults that a part can raise by itself, with the
tokens they are raised at; what a run ends with is a fault of this kind,
raised by some part of the statement that was run (`Stmt.exec_fails`).

The proof says which errors a computation can throw and a run can end
with at all (`OnlyThrows`, `OnlyFails`), whatever the variables and the
console are, and goes through the tree with that.
-/
import BisayaPlus.Proofs.Steps
import BisayaPlus.Run.Stable

namespace BisayaPlus

open Run

-- ===================================================== parts of a tree

/-- An expression and all the expressions in it. -/
def Expr.parts : Expr → List Expr
  | literal v => [literal v]
  | var name => [var name]
  | grouping e => grouping e :: e.parts
  | unary op e => unary op e :: e.parts
  | binary left op right => binary left op right :: (left.parts ++ right.parts)
  | logical left op right =>
      logical left op right :: (left.parts ++ right.parts)
  | assign name value => assign name value :: value.parts
  | increment name => [increment name]
  | decrement name => [decrement name]

theorem Expr.mem_parts_self (e : Expr) : e ∈ e.parts := by
  cases e <;> exact List.mem_cons_self

/-- Parts of a part are parts of the whole. -/
theorem Expr.parts_subset {e part : Expr} (h : part ∈ e.parts) :
    part.parts ⊆ e.parts := by
  induction e with
  | literal | var | increment | decrement =>
      obtain rfl := List.mem_singleton.1 h
      exact List.Subset.refl _
  | grouping e ih | unary op e ih | assign name e ih =>
      rcases List.mem_cons.1 h with rfl | h
      · exact List.Subset.refl _
      · exact List.subset_cons_of_subset _ (ih h)
  | binary left op right ihl ihr | logical left op right ihl ihr =>
      rcases List.mem_cons.1 h with rfl | h
      · exact List.Subset.refl _
      · refine List.subset_cons_of_subset _ ?_
        rcases List.mem_append.1 h with h | h
        · exact List.subset_append_of_subset_left _ (ihl h)
        · exact List.subset_append_of_subset_right _ (ihr h)

namespace Stmt

mutual

/-- A statement and all the statements in it. -/
def parts : Stmt → List Stmt
  | expression e => [expression e]
  | print keyword e => [print keyword e]
  | declare d => [declare d]
  | declareAll ds => [declareAll ds]
  | input names => [input names]
  | block body => block body :: partsAll body
  | ifThen condition body => ifThen condition body :: body.parts
  | ifElse condition body other =>
      ifElse condition body other :: (body.parts ++ other.parts)
  | loop condition body => loop condition body :: body.parts
  | program body => program body :: partsAll body

/-- The parts of statements. -/
def partsAll : List Stmt → List Stmt
  | [] => []
  | s :: ss => s.parts ++ partsAll ss

end

theorem mem_parts_self (s : Stmt) : s ∈ s.parts := by
  cases s <;> exact List.mem_cons_self

/-- The parts of statements are those of each of them. -/
theorem mem_partsAll {t : Stmt} {ss : List Stmt} :
    t ∈ partsAll ss ↔ ∃ s ∈ ss, t ∈ s.parts := by
  induction ss with
  | nil => simp [partsAll]
  | cons s ss ih => simp [partsAll, ih]

/-- The variables that a statement itself declares. -/
def declarations : Stmt → List Declaration
  | declare d => [d]
  | declareAll ds => ds
  | _ => []

/-- The expressions that stand in a statement itself. -/
def heads : Stmt → List Expr
  | expression e => [e]
  | print _ e => [e]
  | declare d => d.init.toList
  | declareAll ds => ds.flatMap (·.init.toList)
  | ifThen condition _ => [condition]
  | ifElse condition _ _ => [condition]
  | loop condition _ => [condition]
  | input _ | block _ | program _ => []

/-- All the expressions in a statement. -/
def exprs (s : Stmt) : List Expr :=
  s.parts.flatMap fun t => t.heads.flatMap Expr.parts

/-- An expression of a statement is part of one that stands in a part of
it. -/
theorem mem_exprs {s : Stmt} {e : Expr} :
    e ∈ s.exprs ↔ ∃ t ∈ s.parts, ∃ head ∈ t.heads, e ∈ head.parts := by
  simp [exprs]

/-- The expressions of a program are those of its statements. -/
theorem mem_exprs_program {body : List Stmt} {e : Expr} :
    e ∈ (program body).exprs ↔ ∃ s ∈ body, e ∈ s.exprs := by
  constructor
  · intro he
    obtain ⟨t, ht, head, hhead, he⟩ := mem_exprs.1 he
    rcases List.mem_cons.1 ht with rfl | ht
    · cases hhead
    · obtain ⟨s, hs, ht⟩ := mem_partsAll.1 ht
      exact ⟨s, hs, mem_exprs.2 ⟨t, ht, head, hhead, he⟩⟩
  · rintro ⟨s, hs, he⟩
    obtain ⟨t, ht, head⟩ := mem_exprs.1 he
    exact mem_exprs.2 ⟨t, List.mem_cons_of_mem _ (mem_partsAll.2 ⟨s, hs, ht⟩),
      head⟩

end Stmt

-- ============================================================== causes

/-- The kinds of token that combine two values. -/
def Run.binaryOperators : List Token.Kind :=
  [.plus, .minus, .star, .slash, .percent, .equalEqual, .notEqual, .less,
    .lessEqual, .greater, .greaterEqual, .ampersand, .dollar]

/-- The variable that an expression itself names. -/
def Expr.name? : Expr → Option Token
  | var name | assign name _ | increment name | decrement name => some name
  | _ => none

/-- The faults that an expression can raise by itself, its parts apart. -/
inductive Expr.Raises : Expr → Error → Prop where
  | undefined {e : Expr} {name : Token} (h : e.name? = some name) :
      Raises e ⟨.undefined name.lexeme, name.span⟩
  | operand {op : Token} {e : Expr} (h : op.kind = .minus) (v : Value) :
      Raises (unary op e) ⟨.operand v, op.span⟩
  | operands {left right : Expr} {op : Token} (h : op.kind ∈ binaryOperators)
      (l r : Value) :
      Raises (binary left op right) ⟨.operands op.lexeme l r, op.span⟩
  | unknownOperator {left right : Expr} {op : Token}
      (h : op.kind ∉ binaryOperators) :
      Raises (binary left op right) ⟨.unknownOperator op.lexeme, op.span⟩
  | assignment {name : Token} {value : Expr} (type : VarType) (v : Value) :
      Raises (assign name value) ⟨.assignment name.lexeme type v, name.span⟩
  | increment {name : Token} : Raises
      (increment name) ⟨.notCountable, name.span⟩
  | decrement {name : Token} : Raises
      (decrement name) ⟨.notCountable, name.span⟩

/-- The faults that a statement can raise by itself, the expressions and
statements in it apart. -/
inductive Stmt.Raises : Stmt → Error → Prop where
  | print {keyword : Token} {e : Expr} (reason : String) :
      Raises (print keyword e) ⟨.console reason, keyword.span⟩
  | initializer {s : Stmt} {d : Declaration} (h : d ∈ s.declarations)
      (v : Value) :
      Raises s ⟨.initializer d.name.lexeme d.type v, d.name.span⟩
  | console {names : List Token} {name : Token} (h : name ∈ names)
      (reason : String) :
      Raises (input names) ⟨.console reason, name.span⟩
  | noInput {names : List Token} {name : Token} (h : name ∈ names) :
      Raises (input names) ⟨.noInput name.lexeme, name.span⟩
  | undefinedType {names : List Token} {name : Token} (h : name ∈ names) :
      Raises (input names) ⟨.undefinedType name.lexeme, name.span⟩
  | line {names : List Token} {name : Token} (h : name ∈ names) {line : String}
      {type : VarType}
      {e : Error} (he : ofInput line type name = .error e) :
      Raises (input names) e

/-- Some part of the expression raises the fault. -/
def Expr.Causes (e : Expr) (err : Error) : Prop := ∃ n ∈ e.parts, n.Raises err

/-- Some part of the statement raises the fault. -/
def Stmt.Causes (s : Stmt) (err : Error) : Prop :=
  ∃ t ∈ s.parts, t.Raises err ∨ ∃ e ∈ t.heads, e.Causes err

-- ======================================================== computations

namespace Run

variable {P Q : Error → Prop} {α β : Type}

/-- If the computation threw an error, it is such an error. -/
def ErrorIn (P : Error → Prop) : EStateM.Result Error Environment α → Prop
  | .ok _ _ => True
  | .error err _ => P err

/-- Whatever the variables are, the computation throws only such errors. -/
def OnlyThrows (P : Error → Prop) (step : Step α) : Prop :=
  ∀ env, ErrorIn P (step env)

namespace OnlyThrows

/-- Faults may be said more weakly. -/
theorem mono {step : Step α} (h : OnlyThrows P step)
    (hPQ : ∀ err, P err → Q err) :
    OnlyThrows Q step := by
  intro env
  have hstep := h env
  cases heq : step env with
  | ok a env' => trivial
  | error err env' =>
      rw [heq] at hstep
      exact hPQ err hstep

theorem pure (a : α) : OnlyThrows P (Pure.pure a : Step α) := fun _ => trivial

/-- A result throws the error that it is. -/
theorem settle {r : Except Error α} (h : ∀ err, r = .error err → P err) :
    OnlyThrows P (Run.settle r) := by
  cases r with
  | error err => exact fun _ => h err rfl
  | ok a => exact .pure a

/-- A computation throws what its parts throw. -/
theorem bind {step : Step α} {f : α → Step β} (h : OnlyThrows P step)
    (hf : ∀ a, OnlyThrows P (f a)) : OnlyThrows P (step >>= f) := by
  intro env
  have hstep := h env
  cases heq : step env with
  | error err env' =>
      rw [heq] at hstep
      rw [bind_of_error heq]
      exact hstep
  | ok a env' =>
      rw [bind_of_ok heq]
      exact hf a env'

/-- Counting wants a variable, and a number in it. -/
theorem count {scope : Nat} {name : Token} {delta : Float}
    (hundefined : P ⟨.undefined name.lexeme, name.span⟩)
    (hcountable : P ⟨.notCountable, name.span⟩) :
    OnlyThrows P (Run.count scope name delta) := by
  intro env
  rcases count_cases scope name delta env with
    ⟨-, h⟩ | ⟨b, -, -, h⟩ | ⟨b, x, env₁, -, -, -, h⟩
  · rw [h]
    exact hundefined
  · rw [h]
    exact hcountable
  · rw [h]
    trivial

end OnlyThrows

-- =========================================================== operators

variable {op : Token} {l r v : Value} {err : Error}

/-- A number is missing at an operator that wants two. -/
theorem numberOperands_error {p : Float × Float → Value}
    (h : (numberOperands op l r).map p = .error err) :
    err = ⟨.operands op.lexeme l r, op.span⟩ := by
  unfold numberOperands at h
  split at h
  · cases h
  · exact (Except.error.inj h).symm

/-- Of the operators with one operand, only the minus faults. -/
theorem applyUnary_error (h : applyUnary op v = .error err) :
    op.kind = .minus ∧ err = ⟨.operand v, op.span⟩ := by
  unfold applyUnary numberOperand at h
  split at h
  next hop =>
    split at h
    · cases h
    · exact ⟨hop, (Except.error.inj h).symm⟩
  next => cases h

/-- A binary operator faults because its operands are no numbers, or
because it is none. -/
theorem applyBinary_error (h : applyBinary op l r = .error err) :
    (op.kind ∈ binaryOperators ∧ err = ⟨.operands op.lexeme l r, op.span⟩)
      ∨ (op.kind ∉ binaryOperators
        ∧ err = ⟨.unknownOperator op.lexeme, op.span⟩) := by
  unfold applyBinary arithmetic comparison at h
  split at h
  next =>
    split at h
    · cases h
    · cases h
  -- The signs of arithmetic and comparison want two numbers, and the other
  -- four take all values.
  iterate 8
    next hop => exact .inl ⟨by rw [hop]; decide, numberOperands_error h⟩
  iterate 4
    next => cases h
  next =>
    refine .inr ⟨?_, (Except.error.inj h).symm⟩
    simp_all [binaryOperators]

end Run

-- ========================================================= expressions

namespace Expr

/-- What a part causes the whole causes. -/
theorem Causes.of_part {e part : Expr} {err : Error} (h : part.Causes err)
    (hsub : part.parts ⊆ e.parts) : e.Causes err := by
  obtain ⟨n, hn, hraises⟩ := h
  exact ⟨n, hsub hn, hraises⟩

/-- What an expression raises by itself it causes. -/
theorem Raises.causes {e : Expr} {err : Error} (h : e.Raises err) :
    e.Causes err :=
  ⟨e, e.mem_parts_self, h⟩

/-- What evaluating an expression throws is raised by one of its parts. -/
theorem eval_throws (e : Expr) (scope : Nat) :
    OnlyThrows e.Causes (e.eval scope) := by
  induction e with
  | literal v => exact .pure v
  | var name =>
      intro env
      rw [eval_var]
      cases env.lookup scope name.lexeme with
      | none => exact (Raises.undefined rfl).causes
      | some b => trivial
  | grouping e ih =>
      exact ih.mono fun err h => h.of_part (List.subset_cons_self _ _)
  | unary op e ih =>
      refine .bind (ih.mono fun err h => h.of_part (List.subset_cons_self _ _))
        fun v => ?_
      refine .settle fun err herr => ?_
      obtain ⟨hop, rfl⟩ := applyUnary_error herr
      exact (Raises.operand hop v).causes
  | binary left op right ihleft ihright =>
      have hleft : left.parts ⊆ (binary left op right).parts := by simp [parts]
      have hright : right.parts ⊆ (binary left op right).parts := by
        simp [parts]
      refine .bind (ihleft.mono fun err h => h.of_part hleft) fun l => ?_
      refine .bind (ihright.mono fun err h => h.of_part hright) fun r => ?_
      refine .settle fun err herr => ?_
      rcases applyBinary_error herr with ⟨hop, rfl⟩ | ⟨hop, rfl⟩
      · exact (Raises.operands hop l r).causes
      · exact (Raises.unknownOperator hop).causes
  | logical left op right ihleft ihright =>
      have hleft : left.parts ⊆ (logical left op right).parts := by
        simp [parts]
      have hright : right.parts ⊆ (logical left op right).parts := by
        simp [parts]
      refine .bind (ihleft.mono fun err h => h.of_part hleft) fun l => ?_
      split
      · exact .pure l
      · exact ihright.mono fun err h => h.of_part hright
  | assign name value ih =>
      intro env
      have hvalue := ih env
      cases hv : value.eval scope env with
      | error err env₁ =>
          rw [hv] at hvalue
          rw [eval_assign_of_error hv]
          exact Causes.of_part hvalue (List.subset_cons_self _ _)
      | ok v env₁ =>
          rcases eval_assign_cases name hv with ⟨-, h⟩ | ⟨b, -, -, h⟩
            | ⟨b, env₂, -, -, -, h⟩
          · rw [h]
            exact (Raises.undefined rfl).causes
          · rw [h]
            exact (Raises.assignment b.type v).causes
          · rw [h]
            trivial
  | increment name =>
      exact .count (Raises.undefined rfl).causes Raises.increment.causes
  | decrement name =>
      exact .count (Raises.undefined rfl).causes Raises.decrement.causes

end Expr

-- ================================================== runs on a console

namespace Run

variable {P Q : Error → Prop} {α σ : Type}

/-- If the run faulted, it is with such an error. -/
def Ending.FaultIn (P : Error → Prop) : Ending → Prop
  | failed err => P err
  | done | outOfTurns => True

/-- Whatever the console is, the run ends with no other faults. -/
def OnlyFails (P : Error → Prop) (run : StateM σ Result) : Prop :=
  ∀ w, (run w).1.2.FaultIn P

namespace OnlyFails

/-- Failures may be said more weakly. -/
theorem mono {run : StateM σ Result} (h : OnlyFails P run)
    (hPQ : ∀ err, P err → Q err) :
    OnlyFails Q run := by
  intro w
  have hrun := h w
  cases heq : (run w).1.2 with
  | failed err =>
      rw [heq] at hrun
      exact hPQ err hrun
  | done => trivial
  | outOfTurns => trivial

theorem done (env : Environment) :
    OnlyFails P (pure (env, .done) : StateM σ Result) :=
  fun _ => trivial

/-- A run of one computation fails with what that throws. -/
theorem ofStep {step : Step α} (h : OnlyThrows P step) (env : Environment) :
    OnlyFails P (pure (Result.ofStep step env) : StateM σ Result) := by
  intro w
  have hstep := h env
  show (Result.ofStep step env).2.FaultIn P
  unfold Result.ofStep
  cases heq : step env with
  | ok a env' => trivial
  | error err env' =>
      rw [heq] at hstep
      exact hstep

/-- A run fails with what its parts fail with. -/
theorem andThen {first : StateM σ Result}
    {second : Environment → StateM σ Result} (hfirst : OnlyFails P first)
    (hsecond : ∀ env, OnlyFails P (second env)) :
    OnlyFails P (Run.andThen first second) := by
  intro w
  have hrun := hfirst w
  rw [andThen_apply]
  rcases heq : first w with ⟨⟨env', ending⟩, w'⟩
  rw [heq] at hrun
  cases ending with
  | done => exact hsecond env' w'
  | failed err => exact hrun
  | outOfTurns => trivial

/-- So does a run behind a computation. -/
theorem afterStep {step : Step α} {run : α → Environment → StateM σ Result}
    {env : Environment} (hstep : OnlyThrows P step)
    (hrun : ∀ a env, OnlyFails P (run a env)) :
    OnlyFails P (Run.afterStep step run env) := by
  have henv := hstep env
  cases h : step env with
  | error err env' =>
      rw [h] at henv
      rw [afterStep_of_error h]
      exact fun _ => henv
  | ok a env' =>
      rw [afterStep_of_ok h]
      exact hrun a env'

theorem inScope {run : Nat → Environment → StateM σ Result} {parent : Nat}
    {env : Environment} (hrun : ∀ inner env, OnlyFails P (run inner env)) :
    OnlyFails P (Run.inScope parent env run) :=
  hrun env.depth (env.push parent)

/-- A scope of its own adds no failure. -/
theorem ownScope {run : Nat → Environment → StateM σ Result} {isBlock : Bool}
    {scope : Nat} {env : Environment}
    (hrun : ∀ inner env, OnlyFails P (run inner env)) :
    OnlyFails P (Run.ownScope isBlock scope env run) := by
  cases isBlock with
  | true => exact hrun scope env
  | false => exact .inScope hrun

/-- The turns of a loop fail with what the condition throws or the body
fails with. -/
theorem turns {condition : Step Value} {body : Environment → StateM σ Result}
    (hcondition : OnlyThrows P condition)
    (hbody : ∀ env, OnlyFails P (body env)) (n : Nat) (env : Environment) :
    OnlyFails P (Run.turns condition body n env) := by
  induction n generalizing env with
  | zero => exact fun _ => trivial
  | succ n ih =>
      rw [turns_succ]
      refine .afterStep hcondition fun v env' => ?_
      by_cases hv : v.isTruthy
      · simp only [hv, if_true]
        exact .andThen (hbody env') ih
      · simp only [hv]
        exact .done env'

end OnlyFails

-- ============================================== declarations and input

/-- A declaration faults in its first value, or because of its type. -/
theorem declare_throws {s : Stmt} {d : Declaration} (hd : d ∈ s.declarations)
    (hinit : ∀ e ∈ d.init, e ∈ s.heads) (scope : Nat) :
    OnlyThrows s.Causes (declare scope d) := by
  refine .bind ?_ fun v => fun _ => trivial
  intro env
  rcases initial_cases scope d env with ⟨-, h⟩ | ⟨e, err, env', he, heval, h⟩
    | ⟨e, v, env', -, -, -, h⟩ | ⟨e, v, env', -, -, -, h⟩
  · rw [h]
    trivial
  · have hcauses := e.eval_throws scope env
    rw [heval] at hcauses
    rw [h]
    exact ⟨s, s.mem_parts_self, .inr ⟨e, hinit e he, hcauses⟩⟩
  · rw [h]
    exact ⟨s, s.mem_parts_self, .inl (.initializer hd v)⟩
  · rw [h]
    trivial

/-- Declarations fault as each of them does. -/
theorem declareEach_throws {s : Stmt} (scope : Nat) (ds : List Declaration)
    (h : ∀ d ∈ ds, d ∈ s.declarations ∧ ∀ e ∈ d.init, e ∈ s.heads) :
    OnlyThrows s.Causes (declareEach scope ds) := by
  induction ds with
  | nil => exact .pure ()
  | cons d ds ih =>
      obtain ⟨⟨hd, hinit⟩, hds⟩ := List.forall_mem_cons.1 h
      exact .bind (declare_throws hd hinit scope) fun _ => ih hds

/-- A line that is not what was asked for is a fault at the name that it
was read for. -/
theorem ofInput_error {line : String} {type : VarType} {name : Token}
    {e : Error} (h : ofInput line type name = .error e) :
    (∃ text, e = ⟨.notNumber name.lexeme type text, name.span⟩)
      ∨ (∃ text, e = ⟨.notTruth name.lexeme text, name.span⟩)
      ∨ e = ⟨.notCharacter name.lexeme, name.span⟩ := by
  unfold ofInput at h
  cases type with
  | numero | tipik =>
      simp only at h
      split at h
      · cases h
      · exact .inl ⟨_, (Except.error.inj h).symm⟩
  | tinuod =>
      simp only at h
      split at h
      · cases h
      · cases h
      · exact .inr (.inl ⟨_, (Except.error.inj h).symm⟩)
  | letra =>
      simp only at h
      split at h
      · cases h
      · exact .inr (.inr (Except.error.inj h).symm)

/-- A line that does not fit is a fault of input. -/
theorem ofInput_code {line : String} {type : VarType} {name : Token}
    {e : Error} (h : ofInput line type name = .error e) :
    e.fault.code = .input := by
  rcases ofInput_error h with ⟨text, rfl⟩ | ⟨text, rfl⟩ | rfl <;> rfl

variable {names all : List Token}

/-- A line is for a variable, and must fit its type. -/
theorem storeLine_throws {name : Token} (hname : name ∈ names) (scope : Nat)
    (line : String) :
    OnlyThrows (Stmt.input names).Raises (storeLine scope name line) := by
  intro env
  rcases storeLine_cases scope name line env with
    ⟨-, h⟩ | ⟨b, e, -, he, h⟩ | ⟨b, v, env', -, -, -, h⟩
  · rw [h]
    exact .undefinedType hname
  · rw [h]
    exact .line hname he
  · rw [h]
    trivial

/-- Reading lines fails as `DAWAT` may. -/
theorem inputEach_fails (con : Console (StateM σ)) (scope : Nat)
    (h : names ⊆ all) (env : Environment) :
    OnlyFails (Stmt.input all).Raises (inputEach con scope names env) := by
  induction names generalizing env with
  | nil => exact .done env
  | cons name names ih =>
      obtain ⟨hname, hnames⟩ := List.cons_subset.1 h
      refine .andThen (fun w => ?_) (ih hnames)
      rcases inputOne_cases con scope name env w with
        ⟨failure, w', -, h⟩ | ⟨w', -, h⟩ | ⟨line, w', -, h⟩
      · rw [h]
        exact .console hname failure.reason
      · rw [h]
        exact .noInput hname
      · rw [h]
        exact OnlyFails.ofStep (storeLine_throws hname scope line) env w'

end Run

-- ========================================================== statements

namespace Stmt

/-- What a part causes the whole causes. -/
theorem Causes.of_part {s part : Stmt} {err : Error} (h : part.Causes err)
    (hsub : part.parts ⊆ s.parts) : s.Causes err := by
  obtain ⟨t, ht, hraises⟩ := h
  exact ⟨t, hsub ht, hraises⟩

/-- What a statement raises by itself it causes. -/
theorem Raises.causes {s : Stmt} {err : Error} (h : s.Raises err) :
    s.Causes err :=
  ⟨s, s.mem_parts_self, .inl h⟩

/-- What an expression of a statement throws is caused by the statement. -/
theorem head_throws {s : Stmt} {e : Expr} (he : e ∈ s.heads) (scope : Nat) :
    OnlyThrows s.Causes (e.eval scope) :=
  (e.eval_throws scope).mono fun _ h => ⟨s, s.mem_parts_self, .inr ⟨e, he, h⟩⟩

variable {σ : Type} (con : Console (StateM σ)) (limit : Nat)

mutual

/-- What a run faults with is raised by some part of the statement that
was run. -/
theorem exec_fails (s : Stmt) (scope : Nat) (env : Environment) :
    OnlyFails s.Causes (s.exec con limit scope env) := by
  match s with
  | .expression e => exact .ofStep (head_throws List.mem_cons_self scope) env
  | .print keyword e =>
      rw [exec_print]
      refine .afterStep (head_throws List.mem_cons_self scope)
        fun v env' w => ?_
      simp only [bind, StateT.bind]
      rcases con.writeLine v.display w with ⟨answer, w'⟩
      cases answer with
      | error failure => exact (Raises.print failure.reason).causes
      | ok u => trivial
  | .declare d =>
      have hinit : ∀ e ∈ d.init, e ∈ (declare d).heads := fun e he =>
        Option.mem_toList.2 he
      exact .ofStep (declare_throws List.mem_cons_self hinit scope) env
  | .declareAll ds =>
      refine .ofStep (declareEach_throws (s := .declareAll ds) scope ds
        fun d hd => ⟨hd, ?_⟩) env
      exact fun e he => List.mem_flatMap.2 ⟨d, hd, Option.mem_toList.2 he⟩
  | .input names =>
      exact (inputEach_fails con scope (List.Subset.refl names) env).mono
        fun _ h => h.causes
  | .block body =>
      exact .inScope fun inner env => (execAll_fails body inner env).mono
        fun err ⟨s, hs, h⟩ => h.of_part fun t ht =>
          List.mem_cons_of_mem _ (mem_partsAll.2 ⟨s, hs, ht⟩)
  | .ifThen condition body =>
      rw [exec_ifThen]
      refine .afterStep (head_throws List.mem_cons_self scope) fun v env' => ?_
      by_cases hv : v.isTruthy
      · simp only [hv, if_true]
        exact .ownScope fun inner env =>
          (exec_fails body inner env).mono fun err h =>
            h.of_part (List.subset_cons_self _ _)
      · simp only [hv]
        exact .done env'
  | .ifElse condition body other =>
      have hbody : body.parts ⊆ (ifElse condition body other).parts := by
        simp [parts]
      have hother : other.parts ⊆ (ifElse condition body other).parts := by
        simp [parts]
      rw [exec_ifElse]
      refine .afterStep (head_throws List.mem_cons_self scope) fun v env' => ?_
      by_cases hv : v.isTruthy
      · simp only [hv, if_true]
        exact .ownScope fun inner env =>
          (exec_fails body inner env).mono fun err h => h.of_part hbody
      · simp only [hv]
        exact .ownScope fun inner env =>
          (exec_fails other inner env).mono fun err h => h.of_part hother
  | .loop condition body =>
      exact .turns (head_throws List.mem_cons_self scope)
        (fun env => .ownScope fun inner env =>
        (exec_fails body inner env).mono fun err h =>
        h.of_part (List.subset_cons_self _ _))
        limit env
  | .program body =>
      exact (execAll_fails body scope env).mono fun err ⟨s, hs, h⟩ =>
        h.of_part fun t ht =>
        List.mem_cons_of_mem _ (mem_partsAll.2 ⟨s, hs, ht⟩)

/-- What a run of statements in order faults with is caused by one of
them. -/
theorem execAll_fails (ss : List Stmt) (scope : Nat) (env : Environment) :
    OnlyFails (fun err => ∃ s ∈ ss, s.Causes err)
      (execAll con limit ss scope env) := by
  match ss with
  | [] => exact .done env
  | s :: ss =>
      exact .andThen ((exec_fails s scope env).mono fun err h =>
        ⟨s, List.mem_cons_self, h⟩) fun env' =>
        (execAll_fails ss scope env').mono fun err ⟨t, ht, h⟩ =>
        ⟨t, List.mem_cons_of_mem s ht, h⟩

end

end Stmt

end BisayaPlus
