/-
Expressions are local.

Evaluating an expression asks nothing of the console and declares
nothing. It can give variables other values, but only those that a name
means which stands in the expression as the target of an assignment or of
counting; all other variables, also hidden ones of the same name, keep
theirs (`Expr.eval_touched`). And what it comes to depends on nothing but
what its names mean: in another environment and another scope in which
they mean variables of the same types and values, it has the same value
or faults alike, and what the names mean is the same again behind it
(`Expr.eval_together`). The variables themselves may stand in scopes of
quite different places.

Both are statements on computations that are put together from smaller
ones, and each of them has its lemma for every way of doing so: `Touched`
is a relation between the states of one run, `Together` compares two runs
step by step. A fault needs no separate account, since what was changed
before it stays changed in both.
-/
import BisayaPlus.Proofs.ScopeChain

namespace BisayaPlus

open Run Environment

-- ======================================================= names in a tree

namespace Expr

/-- The names that occur in an expression. -/
def names : Expr → List String
  | literal _ => []
  | var name => [name.lexeme]
  | grouping e => e.names
  | unary _ e => e.names
  | binary left _ right => left.names ++ right.names
  | logical left _ right => left.names ++ right.names
  | assign name value => name.lexeme :: value.names
  | increment name => [name.lexeme]
  | decrement name => [name.lexeme]

/-- The names that occur in an expression as the target of an assignment
or of counting. -/
def targets : Expr → List String
  | literal _ => []
  | var _ => []
  | grouping e => e.targets
  | unary _ e => e.targets
  | binary left _ right => left.targets ++ right.targets
  | logical left _ right => left.targets ++ right.targets
  | assign name value => name.lexeme :: value.targets
  | increment name => [name.lexeme]
  | decrement name => [name.lexeme]

end Expr

-- ============================================ what an expression changes

namespace Environment

variable {env env₁ env₂ : Environment} {scope : Nat} {x : String}
  {xs ys : List String}

/-- The environment is the same but for the values of variables that some
names mean in a scope. -/
structure Touched (xs : List String) (scope : Nat) (env env' : Environment) :
    Prop where
  outline : env'.outline = env.outline
  only : ∀ i x, env'.bindingAt i x ≠ env.bindingAt i x →
    x ∈ xs ∧ env.resolve scope x = some i

namespace Touched

theorem refl (xs : List String) (scope : Nat) (env : Environment) :
    Touched xs scope env env :=
  ⟨rfl, fun _ _ h => absurd rfl h⟩

/-- More names may be touched. -/
theorem mono (h : Touched xs scope env env₁) (hsub : xs ⊆ ys) :
    Touched ys scope env env₁ := by
  refine ⟨h.outline, fun i x hne => ?_⟩
  obtain ⟨hx, howner⟩ := h.only i x hne
  exact ⟨hsub hx, howner⟩

/-- Two changes in a row touch what either touches. -/
theorem trans (h₁ : Touched xs scope env env₁)
    (h₂ : Touched xs scope env₁ env₂) :
    Touched xs scope env env₂ := by
  refine ⟨h₂.outline.trans h₁.outline, fun i x hne => ?_⟩
  by_cases hfirst : env₁.bindingAt i x = env.bindingAt i x
  · -- The outline decides where a name is found, and it has not changed.
    rw [← hfirst] at hne
    obtain ⟨hx, howner⟩ := h₂.only i x hne
    rw [resolve_congr h₁.outline] at howner
    exact ⟨hx, howner⟩
  · exact h₁.only i x hfirst

/-- An assignment touches its name. -/
theorem assign {v : Value} (h : env.assign? scope x v = some env₁)
    (hx : x ∈ xs) :
    Touched xs scope env env₁ := by
  obtain ⟨owner, howner, hat⟩ := bindingAt_assign? h
  refine ⟨outline_assign? h, fun i y hne => ?_⟩
  by_cases hiy : i = owner ∧ y = x
  · obtain ⟨rfl, rfl⟩ := hiy
    exact ⟨hx, howner⟩
  · rw [hat, if_neg hiy] at hne
    exact absurd rfl hne

/-- All other names mean what they meant, in every scope. -/
theorem lookup (h : Touched xs scope env env₁) (hx : x ∉ xs) (i : Nat) :
    env₁.lookup i x = env.lookup i x := by
  unfold Environment.lookup
  rw [resolve_congr h.outline]
  cases env.resolve i x with
  | none => rfl
  | some owner =>
      show env₁.bindingAt owner x = env.bindingAt owner x
      by_cases hsame : env₁.bindingAt owner x = env.bindingAt owner x
      · exact hsame
      · exact absurd (h.only owner x hsame).1 hx

end Touched

end Environment

namespace Run

variable {α β : Type} {scope : Nat} {xs ys : List String}

/-- In every state the computation changes no more than the values of the
variables that some names mean. -/
def Confined (xs : List String) (scope : Nat) (step : Step α) : Prop :=
  ∀ env, Touched xs scope env (stateAfter (step env))

namespace Confined

theorem pure (a : α) : Confined xs scope (Pure.pure a : Step α) :=
  Touched.refl xs scope

theorem settle (r : Except Error α) : Confined xs scope (Run.settle r) := by
  intro env
  cases r with
  | error e => exact .refl xs scope env
  | ok a => exact .refl xs scope env

/-- A computation may be confined to more names. -/
theorem mono {step : Step α} (h : Confined xs scope step) (hsub : xs ⊆ ys) :
    Confined ys scope step := fun env => (h env).mono hsub

/-- Two computations in a row are confined if each is. -/
theorem bind {step : Step α} {f : α → Step β} (h : Confined xs scope step)
    (hf : ∀ a, Confined xs scope (f a)) : Confined xs scope (step >>= f) := by
  intro env
  have hstep := h env
  cases heq : step env with
  | error e env₁ =>
      rw [heq] at hstep
      rw [bind_of_error heq]
      exact hstep
  | ok a env₁ =>
      rw [heq] at hstep
      rw [bind_of_ok heq]
      exact hstep.trans (hf a env₁)

/-- Counting is confined to its name. -/
theorem count (name : Token) (delta : Float) :
    Confined [name.lexeme] scope (Run.count scope name delta) := by
  intro env
  rcases count_cases scope name delta env with
    ⟨-, h⟩ | ⟨b, -, -, h⟩ | ⟨b, x, env', -, -, hassign, h⟩
  · rw [h]
    exact .refl _ scope env
  · rw [h]
    exact .refl _ scope env
  · rw [h]
    exact .assign hassign List.mem_cons_self

end Confined

end Run

/-- Evaluating an expression changes no more than the values of the
variables that its targets mean. -/
theorem Expr.eval_touched (e : Expr) (scope : Nat) :
    Confined e.targets scope (e.eval scope) := by
  induction e with
  | literal v => exact .pure v
  | var name =>
      intro env
      rw [eval_var]
      cases env.lookup scope name.lexeme <;> exact .refl _ scope env
  | grouping e ih => exact ih
  | unary op e ih => exact .bind ih fun v => .settle _
  | binary left op right ihleft ihright =>
      have hleft :=
        ihleft.mono (List.subset_append_left left.targets right.targets)
      have hright :=
        ihright.mono (List.subset_append_right left.targets right.targets)
      exact .bind hleft fun l => .bind hright fun r => .settle _
  | logical left op right ihleft ihright =>
      refine .bind (ihleft.mono
        (List.subset_append_left left.targets right.targets)) fun l => ?_
      by_cases hl : settles op l = true
      · rw [if_pos hl]
        exact .pure l
      · rw [if_neg hl]
        exact ihright.mono
          (List.subset_append_right left.targets right.targets)
  | assign name value ih =>
      intro env
      have hvalue :=
        ih.mono (List.subset_cons_self name.lexeme value.targets) env
      cases hv : value.eval scope env with
      | error err env₁ =>
          rw [hv] at hvalue
          rw [eval_assign_of_error hv]
          exact hvalue
      | ok v env₁ =>
          rw [hv] at hvalue
          rcases eval_assign_cases name hv with
            ⟨-, h⟩ | ⟨b, -, -, h⟩ | ⟨b, env₂, -, -, hassign, h⟩
          · rw [h]
            exact hvalue
          · rw [h]
            exact hvalue
          · rw [h]
            exact hvalue.trans (.assign hassign List.mem_cons_self)
  | increment name => exact .count name 1.0
  | decrement name => exact .count name (-1.0)

-- ======================================== what an expression depends on

namespace Environment

variable {env env' : Environment} {scope : Nat} {x : String} {v : Value}

/-- Seen from the scope in which it was made, an assignment gives the name
another value and no other name. -/
theorem lookup_assign?_same (h : env.assign? scope x v = some env')
    (y : String) :
    env'.lookup scope y = if y = x then (env.lookup scope y).map fun b =>
      { b with value := v }
      else env.lookup scope y := by
  obtain ⟨owner, howner, hlookup⟩ := lookup_assign? h
  rw [hlookup]
  by_cases hyx : y = x
  · subst hyx
    rw [if_pos ⟨rfl, howner⟩, if_pos rfl]
  · rw [if_neg fun hy => hyx hy.1, if_neg hyx]

/-- Some names mean the same in a scope of one environment and a scope of
another: variables with the same value and the same type, or nothing. -/
def AgreeOn (xs : List String) (scope scope' : Nat) (env env' : Environment) :
    Prop :=
  ∀ x ∈ xs, env'.lookup scope' x = env.lookup scope x

/-- A name that means the same in both is given a value in both, or in
neither, and all names mean the same again. -/
theorem AgreeOn.assign {xs : List String} {scope' : Nat}
    {env env' : Environment} (h : AgreeOn xs scope scope' env env')
    (hx : x ∈ xs) (v : Value) :
    (env.assign? scope x v = none ∧ env'.assign? scope' x v = none)
      ∨ ∃ env₁ env₁', env.assign? scope x v = some env₁
        ∧ env'.assign? scope' x v = some env₁'
        ∧ AgreeOn xs scope scope' env₁ env₁' := by
  have hboth : (env'.assign? scope' x v).isSome
      = (env.assign? scope x v).isSome := by
    rw [assign?_isSome, assign?_isSome, h x hx]
  cases hassign : env.assign? scope x v with
  | none =>
      rw [hassign] at hboth
      exact .inl ⟨rfl,
        Option.isSome_eq_false_iff.1 hboth |> Option.isNone_iff_eq_none.1⟩
  | some env₁ =>
      rw [hassign] at hboth
      obtain ⟨env₁', hassign'⟩ := Option.isSome_iff_exists.1 hboth
      refine .inr ⟨env₁, env₁', rfl, hassign', fun y hy => ?_⟩
      rw [lookup_assign?_same hassign, lookup_assign?_same hassign', h y hy]

end Environment

namespace Run

variable {α β : Type} {scope scope' : Nat} {xs : List String}

/-- What a computation comes to, without the variables it leaves. -/
def answerOf : EStateM.Result Error Environment α → Except Error α
  | .ok a _ => .ok a
  | .error e _ => .error e

/-- Wherever the names mean the same to both, the two computations come to
the same, and the names mean the same behind them. -/
def Together (xs : List String) (scope scope' : Nat) (step step' : Step α) :
    Prop :=
  ∀ env env', AgreeOn xs scope scope' env env' →
    answerOf (step' env') = answerOf (step env)
      ∧ AgreeOn xs scope scope' (stateAfter (step env)) (stateAfter
        (step' env'))

namespace Together

theorem pure (a : α) : Together xs scope scope' (Pure.pure a) (Pure.pure a) :=
  fun _ _ h => ⟨rfl, h⟩

theorem throw (e : Error) : Together xs scope scope' (throw e : Step α)
    (throw e) :=
  fun _ _ h => ⟨rfl, h⟩

theorem settle (r : Except Error α) :
    Together xs scope scope' (Run.settle r) (Run.settle r) := by
  cases r with
  | error e => exact throw e
  | ok a => exact pure a

/-- Two computations in a row go together if each does. -/
theorem bind {step step' : Step α} {f f' : α → Step β}
    (h : Together xs scope scope' step step')
    (hf : ∀ a, Together xs scope scope' (f a) (f' a)) :
    Together xs scope scope' (step >>= f) (step' >>= f') := by
  intro env env' hagree
  obtain ⟨hanswer, hafter⟩ := h env env' hagree
  cases hstep : step env with
  | error e env₁ =>
      cases hstep' : step' env' with
      | error e' env₁' =>
          rw [hstep, hstep'] at hanswer hafter
          rw [bind_of_error hstep, bind_of_error hstep']
          exact ⟨congrArg Except.error (Except.error.inj hanswer), hafter⟩
      | ok a' env₁' =>
          rw [hstep, hstep'] at hanswer
          cases hanswer
  | ok a env₁ =>
      cases hstep' : step' env' with
      | error e' env₁' =>
          rw [hstep, hstep'] at hanswer
          cases hanswer
      | ok a' env₁' =>
          rw [hstep, hstep'] at hanswer hafter
          obtain rfl := Except.ok.inj hanswer
          rw [bind_of_ok hstep, bind_of_ok hstep']
          exact hf _ env₁ env₁' hafter

/-- Reading a variable. -/
theorem read {name : Token} (hname : name.lexeme ∈ xs)
    {f f' : Binding → Step α}
    (hf : ∀ b, Together xs scope scope' (f b) (f' b)) :
    Together xs scope scope' (do f (← Run.settle ((← get).binding scope name)))
      (do f' (← Run.settle ((← get).binding scope' name))) := by
  intro env env' hagree
  have hlookup := hagree name.lexeme hname
  cases hb : env.lookup scope name.lexeme with
  | none =>
      rw [hb] at hlookup
      rw [read_of_none hb, read_of_none hlookup]
      exact ⟨rfl, hagree⟩
  | some b =>
      rw [hb] at hlookup
      rw [read_of_some hb, read_of_some hlookup]
      exact hf b env env' hagree

/-- Giving a variable a value. -/
theorem store {name : Token} (hname : name.lexeme ∈ xs) (v : Value) :
    Together xs scope scope' (Run.store scope name v)
      (Run.store scope' name v) := by
  intro env env' hagree
  rw [store_apply, store_apply, Environment.assign, Environment.assign]
  rcases hagree.assign hname v with ⟨hnone, hnone'⟩
    | ⟨env₁, env₁', hsome, hsome', hagree₁⟩
  · rw [hnone, hnone']
    exact ⟨rfl, hagree⟩
  · rw [hsome, hsome']
    exact ⟨rfl, hagree₁⟩

/-- Counting goes together where its name means the same. -/
theorem count {name : Token} (hname : name.lexeme ∈ xs) (delta : Float) :
    Together xs scope scope' (Run.count scope name delta)
      (Run.count scope' name delta) := by
  refine read hname fun b => ?_
  cases b.value with
  | number x => exact bind (store hname _) fun _ => pure _
  | truth _ | char _ | text _ | null => exact throw _

end Together

end Run

/-- What an expression comes to depends on nothing but what its names
mean. -/
theorem Expr.eval_together (e : Expr) {xs : List String}
    (hnames : e.names ⊆ xs) (scope scope' : Nat) :
    Together xs scope scope' (e.eval scope) (e.eval scope') := by
  induction e with
  | literal v => exact .pure v
  | var name => exact .read (hnames List.mem_cons_self) fun b => .pure b.value
  | grouping e ih => exact ih hnames
  | unary op e ih => exact .bind (ih hnames) fun v => .settle _
  | binary left op right ihleft ihright =>
      obtain ⟨hleft, hright⟩ := List.append_subset.1 hnames
      exact .bind (ihleft hleft) fun l => .bind (ihright hright) fun r =>
        .settle _
  | logical left op right ihleft ihright =>
      obtain ⟨hleft, hright⟩ := List.append_subset.1 hnames
      refine .bind (ihleft hleft) fun l => ?_
      by_cases hl : settles op l = true
      · rw [if_pos hl, if_pos hl]
        exact .pure l
      · rw [if_neg hl, if_neg hl]
        exact ihright hright
  | assign name value ih =>
      obtain ⟨hname, hvalue⟩ := List.cons_subset.1 hnames
      refine .bind (ih hvalue) fun v => .read hname fun b => ?_
      by_cases hv : b.type.accepts v = true
      · rw [if_pos hv, if_pos hv]
        exact .bind (.store hname v) fun _ => .pure v
      · rw [if_neg hv, if_neg hv]
        exact .throw _
  | increment name => exact .count (hnames List.mem_cons_self) 1.0
  | decrement name => exact .count (hnames List.mem_cons_self) (-1.0)

-- ========================================================= the theorem

/-- Evaluating an expression, to a value or to a fault, is local. It asks
nothing of the console, whatever kind of console there is. Scopes, names
and declared types stay as they are, and a binding that has changed is
one that a target of the expression means in the scope of evaluation. In
any other environment and scope to which all names of the expression mean
the same, it comes to the same value or the same fault, and the names
mean the same again behind it. -/
theorem Expr.eval_local (e : Expr) (scope : Nat) (env : Environment) :
    let after := stateAfter (e.eval scope env)
    (∀ {m : Type → Type} [Monad m] (con : Console m) (limit : Nat),
        (Stmt.expression e).exec con limit scope env
          = pure (Result.ofStep (e.eval scope) env))
      ∧ after.depth = env.depth
      ∧ (∀ i, after.parentAt i = env.parentAt i)
      ∧ (∀ i x, after.typeAt i x = env.typeAt i x)
      ∧ (∀ i x, after.bindingAt i x ≠ env.bindingAt i x →
          x ∈ e.targets ∧ env.resolve scope x = some i)
      ∧ ∀ (scope' : Nat) (env' : Environment),
          (∀ x ∈ e.names, env'.lookup scope' x = env.lookup scope x) →
            answerOf (e.eval scope' env') = answerOf (e.eval scope env)
              ∧ ∀ x ∈ e.names,
                  (stateAfter (e.eval scope' env')).lookup scope' x
                  = after.lookup scope x := by
  intro after
  have htouched : Touched e.targets scope env after := e.eval_touched scope env
  have hdiffers : Differs scope env after := .of_eq htouched.outline
  refine ⟨fun con limit => rfl, hdiffers.depth, hdiffers.parentAt,
    fun i x => ?_, htouched.only, fun scope' env' hagree => ?_⟩
  · rw [typeAt_outline, typeAt_outline, htouched.outline]
  · exact e.eval_together (List.Subset.refl _) scope scope' env env' hagree

/-- Assigns a letter to `x` and then asks for its negative. -/
def Expr.assignAndFault : Expr :=
  let name lexeme : Token := ⟨.identifier, lexeme, none, ⟨1, 0⟩⟩
  .binary (.assign (name "x") (.literal (.char 'b'))) ⟨.plus, "+", none,
    ⟨1, 5⟩⟩ (.unary ⟨.minus, "-", none, ⟨1, 7⟩⟩ (.var (name "x")))

/-- An assignment before a fault, in an inner scope that hides another
variable of the name and in a first scope that has only one. Both runs
fault at the minus, both have assigned, and the hidden variable keeps its
value. -/
theorem Expr.eval_local_hidden :
    let outer :=
      Environment.empty.define Environment.global "x" ⟨.char 'a', .letra⟩
    let inner :=
      (outer.push Environment.global).define 1 "x" ⟨.char 'a', .letra⟩
    let fault : Error := ⟨.operand (.char 'b'), ⟨1, 7⟩⟩
    answerOf (assignAndFault.eval 1 inner) = .error fault
      ∧ answerOf (assignAndFault.eval 0 outer) = .error fault
      ∧ (stateAfter (assignAndFault.eval 1 inner)).bindingAt 0 "x"
        = some ⟨.char 'a', .letra⟩
      ∧ (stateAfter (assignAndFault.eval 0 outer)).lookup 0 "x"
        = some ⟨.char 'b', .letra⟩ := by
  intro outer inner fault
  have hinner : answerOf (assignAndFault.eval 1 inner) = .error fault := rfl
  have hagree : ∀ x ∈ assignAndFault.names,
      outer.lookup 0 x = inner.lookup 1 x := by decide
  obtain ⟨-, -, -, -, honly, hother⟩ := eval_local assignAndFault 1 inner
  obtain ⟨hanswer, hafter⟩ := hother 0 outer hagree
  refine ⟨hinner, hanswer.trans hinner, ?_, ?_⟩
  · by_cases hsame : (stateAfter (assignAndFault.eval 1 inner)).bindingAt 0 "x"
        = inner.bindingAt 0 "x"
    · exact hsame
    · obtain ⟨-, howner⟩ := honly 0 "x" hsame
      exact absurd howner (by decide)
  · rw [hafter "x" (by decide)]
    decide

end BisayaPlus
