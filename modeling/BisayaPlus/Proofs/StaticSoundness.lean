/-
Programs that keep to the static discipline have no faults of type or of
reference.

The argument is the usual one of progress and preservation. The state of
a run is tied to the context of the place where it stands by `Ready`:
every name of the context means a variable of the declared type, and by
store typing (`Proofs/StoreTyping.lean`) that variable holds a value of
it. A typed expression then always comes to a value of its type
(`Expr.eval_sound`); no fault is left for it. A statement comes to a state
that is ready for the context behind it, or stops for a reason that lies
outside the program (`Stmt.exec_sound`).

What a block or a turn of a loop declares is dropped with its scope, so
that the context of the place before it holds again behind it. That is
the part of `Proofs/Scopes.lean`.
-/
import BisayaPlus.Proofs.Discipline
import BisayaPlus.Proofs.Faults
import BisayaPlus.Proofs.Scopes
import BisayaPlus.Proofs.StoreTyping

namespace BisayaPlus

open Run Environment

-- ===================================================== types of values

/-- A declared type admits the values of its type. -/
theorem VarType.accepts_iff {type : VarType} {v : Value} :
    type.accepts v = true ↔ v.ty? = some type.ty := by
  cases type <;> cases v <;> simp [accepts, ty, Value.ty?]

namespace Value

theorem eq_number_of_ty? {v : Value} (h : v.ty? = some .number) :
    ∃ x, v = .number x := by
  cases v with
  | number x => exact ⟨x, rfl⟩
  | _ => cases h

end Value

namespace Run

/-- An operator applied to a value of a type it is made for. -/
theorem applyUnary_sound {op : Token} {v : Value} {t t' : Ty}
    (hv : v.ty? = some t) (h : unaryTy? op.kind t = some t') :
    ∃ v', applyUnary op v = .ok v' ∧ v'.ty? = some t' := by
  unfold unaryTy? at h
  split at h
  · next hkind =>
    obtain ⟨x, rfl⟩ := Value.eq_number_of_ty? hv
    exact ⟨.number (-x),
      by simp [applyUnary, hkind, numberOperand, Except.map], h⟩
  · next hkind =>
    exact ⟨.truth !v.isTruthy, by simp [applyUnary, hkind], h⟩
  · cases h

theorem numberOperands_sound (op : Token) {l r : Value}
    (hl : l.ty? = some .number) (hr : r.ty? = some .number) :
    ∃ p, numberOperands op l r = .ok p := by
  obtain ⟨x, rfl⟩ := Value.eq_number_of_ty? hl
  obtain ⟨y, rfl⟩ := Value.eq_number_of_ty? hr
  exact ⟨(x, y), rfl⟩

theorem arithmetic_sound {op : Token} {l r : Value} (f : Float → Float → Float)
    (hl : l.ty? = some .number) (hr : r.ty? = some .number) :
    ∃ v, arithmetic op l r f = .ok v ∧ v.ty? = some .number := by
  obtain ⟨p, hp⟩ := numberOperands_sound op hl hr
  unfold arithmetic
  rw [hp]
  exact ⟨_, rfl, rfl⟩

theorem comparison_sound {op : Token} {l r : Value} (f : Float → Float → Bool)
    (hl : l.ty? = some .number) (hr : r.ty? = some .number) :
    ∃ v, comparison op l r f = .ok v ∧ v.ty? = some .truth := by
  obtain ⟨p, hp⟩ := numberOperands_sound op hl hr
  unfold comparison
  rw [hp]
  exact ⟨_, rfl, rfl⟩

/-- An operator applied to values of types it is made for. -/
theorem applyBinary_sound {op : Token} {l r : Value} {tl tr t : Ty}
    (hl : l.ty? = some tl) (hr : r.ty? = some tr)
    (h : binaryTy? op.kind tl tr = some t) :
    ∃ v, applyBinary op l r = .ok v ∧ v.ty? = some t := by
  unfold applyBinary
  unfold binaryTy? at h
  split at h
  -- a plus, which joins texts unless both sides are numbers
  case h_1 hkind =>
    obtain ⟨x, rfl⟩ := Value.eq_number_of_ty? hl
    obtain ⟨y, rfl⟩ := Value.eq_number_of_ty? hr
    rw [hkind]
    exact ⟨.number (x + y), rfl, h⟩
  case h_2 hkind hne =>
    rw [hkind]
    simp only
    split
    · exact absurd (Option.some.inj hr).symm (hne (Option.some.inj hl).symm)
    · exact ⟨_, rfl, h⟩
  case h_3 hkind | h_4 hkind | h_5 hkind | h_6 hkind =>
    rw [hkind, ← h]
    exact arithmetic_sound _ hl hr
  case h_7 hkind | h_8 hkind | h_9 hkind | h_10 hkind =>
    rw [hkind, ← h]
    exact comparison_sound _ hl hr
  case h_11 hkind | h_12 hkind | h_13 hkind | h_14 hkind =>
    rw [hkind]
    exact ⟨_, rfl, h⟩
  case h_15 => cases h

end Run

-- ======================================================== ready states

/-- The state is as the discipline expects it at a place: the names of the
context mean variables of the declared types, and all variables hold
values of their types. -/
structure Ready (Γ : Context) (scope : Nat) (env : Environment) : Prop where
  typed : env.Typed
  grounded : env.Grounded
  live : scope < env.depth
  means : ∀ x type, Γ.lookup x = some type →
    (env.lookup scope x).map Binding.type = some type

namespace Ready

variable {Γ : Context} {scope : Nat} {env env' : Environment}

/-- A name of the context means a variable, and its value has its type. -/
theorem lookup (h : Ready Γ scope env) {x : String} {type : VarType}
    (hx : Γ.lookup x = some type) :
    ∃ b, env.lookup scope x = some b ∧ b.type = type
      ∧ b.value.ty? = some type.ty := by
  obtain ⟨b, hb, htype⟩ := Option.map_eq_some_iff.1 (h.means x type hx)
  refine ⟨b, hb, htype, ?_⟩
  rw [← htype]
  exact VarType.accepts_iff.1 (h.typed.lookup hb)

/-- Readiness only looks at the outline, but for the typing of values. -/
theorem congr (h : Ready Γ scope env) (htyped : env'.Typed)
    (houtline : env'.outline = env.outline) : Ready Γ scope env' where
  typed := htyped
  grounded := h.grounded.congr houtline
  live := by
    rw [depth_of_outline houtline]
    exact h.live
  means x type hx := by
    rw [lookup_type houtline]
    exact h.means x type hx

/-- Inside a new scope everything is as outside. -/
theorem push (h : Ready Γ scope env) : Ready Γ env.depth (env.push scope) where
  typed := (Change.push scope).typed h.typed
  grounded := h.grounded.push h.live
  live := env.depth_lt_push scope
  means x type hx := by
    rw [lookup_push h.grounded h.live]
    exact h.means x type hx

/-- Behind a declaration the name means what was declared. -/
theorem define (h : Ready Γ scope env) (x : String) {b : Binding}
    (hb : b.type.accepts b.value = true) :
    Ready ((x, b.type) :: Γ) scope (env.define scope x b) where
  typed := (Change.define scope x b hb).typed h.typed
  grounded := (Differs.define env scope x b).grounded h.grounded
  live := by
    rw [(Differs.define env scope x b).depth]
    exact h.live
  means y type hy := by
    rw [List.lookup_cons] at hy
    by_cases hyx : y = x
    · subst hyx
      rw [lookup_define_self h.live]
      simpa using hy
    · rw [lookup_define_of_ne hyx h.live]
      refine h.means y type ?_
      simpa [beq_eq_false_iff_ne.2 hyx] using hy

end Ready

-- ========================================================= expressions

namespace Run

/-- The computation comes to a value of the given type and leaves the
state as ready as it was. -/
def Yields (Γ : Context) (scope : Nat) (t : Ty) :
    EStateM.Result Error Environment Value → Prop
  | .ok v env => v.ty? = some t ∧ Ready Γ scope env
  | .error _ _ => False

variable {Γ : Context} {scope : Nat} {env : Environment} {t : Ty}

theorem Yields.exists {r : EStateM.Result Error Environment Value}
    (h : Yields Γ scope t r) :
    ∃ v env', r = .ok v env' ∧ v.ty? = some t ∧ Ready Γ scope env' := by
  cases r with
  | ok v env' => exact ⟨v, env', rfl, h⟩
  | error e env' => cases h

/-- A number of the context can be counted up and down. -/
theorem count_sound {name : Token} {type : VarType} (henv : Ready Γ scope env)
    (hx : Γ.lookup name.lexeme = some type) (htype : type.ty = .number)
    (delta : Float) :
    Yields Γ scope .number (count scope name delta env) := by
  obtain ⟨b, hb, hbt, hbv⟩ := henv.lookup hx
  rw [htype] at hbv
  obtain ⟨n, hn⟩ := Value.eq_number_of_ty? hbv
  have htyped := (count_change henv.typed scope name delta).typed henv.typed
  have houtline := count_keepsOutline scope name delta env
  rcases count_cases scope name delta env with
    ⟨hnone, -⟩ | ⟨b', hb', hnot, -⟩ | ⟨b', y, env', -, -, -, h⟩
  · rw [hb] at hnone
    cases hnone
  · obtain rfl := Option.some.inj (hb.symm.trans hb')
    rw [hn] at hnot
    cases hnot
  · rw [h] at htyped houtline ⊢
    exact ⟨rfl, henv.congr htyped houtline⟩

end Run

namespace Expr

variable {Γ : Context} {scope : Nat} {env : Environment} {t : Ty}

/-- A typed expression comes to a value of its type. -/
theorem eval_sound (e : Expr) (henv : Ready Γ scope env)
    (h : e.ty? Γ = some t) :
    Yields Γ scope t (e.eval scope env) := by
  induction e generalizing env t with
  | literal v => exact ⟨h, henv⟩
  | var name =>
      obtain ⟨type, hx, rfl⟩ := Option.map_eq_some_iff.1 h
      obtain ⟨b, hb, -, hv⟩ := henv.lookup hx
      rw [eval_var, hb]
      exact ⟨hv, henv⟩
  | grouping e ih => exact ih henv h
  | unary op e ih =>
      obtain ⟨t₁, he, hop⟩ := Option.bind_eq_some_iff.1 h
      obtain ⟨v, env₁, hv, hvt, henv₁⟩ := (ih henv he).exists
      obtain ⟨v', happly, hv't⟩ := applyUnary_sound hvt hop
      rw [eval, bind_of_ok hv, happly]
      exact ⟨hv't, henv₁⟩
  | binary left op right ihleft ihright =>
      obtain ⟨tl, hl, h⟩ := Option.bind_eq_some_iff.1 h
      obtain ⟨tr, hr, hop⟩ := Option.bind_eq_some_iff.1 h
      obtain ⟨l, env₁, hlv, hlt, henv₁⟩ := (ihleft henv hl).exists
      obtain ⟨r, env₂, hrv, hrt, henv₂⟩ := (ihright henv₁ hr).exists
      obtain ⟨v, happly, hvt⟩ := applyBinary_sound hlt hrt hop
      rw [eval, bind_of_ok hlv, bind_of_ok hrv, happly]
      exact ⟨hvt, henv₂⟩
  | logical left op right ihleft ihright =>
      obtain ⟨tl, hl, h⟩ := Option.bind_eq_some_iff.1 h
      obtain ⟨tr, hr, hop⟩ := Option.bind_eq_some_iff.1 h
      obtain ⟨l, env₁, hlv, hlt, henv₁⟩ := (ihleft henv hl).exists
      unfold logicalTy? at hop
      split at hop
      · next hsides =>
        obtain rfl := Option.some.inj hop
        rw [eval, bind_of_ok hlv]
        split
        · exact ⟨hlt, henv₁⟩
        · rw [hsides.2]
          exact ihright henv₁ hr
      · cases hop
  | assign name value ih =>
      obtain ⟨type, hx, h⟩ := Option.bind_eq_some_iff.1 h
      split at h
      · next hvalue =>
        obtain rfl := Option.some.inj h
        obtain ⟨v, env₁, hv, hvt, henv₁⟩ := (ih henv hvalue).exists
        obtain ⟨b, hb, hbt, -⟩ := henv₁.lookup hx
        have htyped :=
          ((assign name value).path scope henv.typed).typed henv.typed
        have houtline := (assign name value).eval_keepsOutline scope env
        rcases eval_assign_cases name hv with
          ⟨hnone, -⟩ | ⟨b', hb', hnot, -⟩ | ⟨b', env₂, -, -, -, heval⟩
        · rw [hb] at hnone
          cases hnone
        · obtain rfl := Option.some.inj (hb.symm.trans hb')
          rw [hbt, VarType.accepts_iff.2 hvt] at hnot
          cases hnot
        · rw [heval] at htyped houtline ⊢
          exact ⟨hvt, henv.congr htyped houtline⟩
      · cases h
  | increment name =>
      obtain ⟨type, hx, h⟩ := Option.bind_eq_some_iff.1 h
      split at h
      · next htype =>
        obtain rfl := Option.some.inj h
        exact count_sound henv hx htype 1.0
      · cases h
  | decrement name =>
      obtain ⟨type, hx, h⟩ := Option.bind_eq_some_iff.1 h
      split at h
      · next htype =>
        obtain rfl := Option.some.inj h
        exact count_sound henv hx htype (-1.0)
      · cases h

end Expr

-- ======================================================== declarations

namespace Run

variable {Γ Γ' : Context} {scope : Nat} {env : Environment}

/-- A first value that is typed as declared is worked out, and fits. -/
theorem initial_sound {d : Declaration} (henv : Ready Γ scope env)
    (h : ∀ e, d.init = some e → e.ty? Γ = some d.type.ty) :
    ∃ v env', initial scope d env = .ok v env' ∧ d.type.accepts v = true
      ∧ Ready Γ scope env' := by
  cases hinit : d.init with
  | none =>
      refine ⟨d.type.zero, env, ?_, d.type.accepts_zero, henv⟩
      unfold initial
      rw [hinit]
      rfl
  | some e =>
      obtain ⟨v, env', hv, hvt, henv'⟩ :=
        (e.eval_sound henv (h e hinit)).exists
      have haccepts := VarType.accepts_iff.2 hvt
      refine ⟨v, env', ?_, haccepts, henv'⟩
      unfold initial
      rw [hinit]
      refine (bind_of_ok hv).trans ?_
      rw [if_pos haccepts]
      rfl

theorem declare_sound {d : Declaration} (henv : Ready Γ scope env)
    (h : d.check Γ = some Γ') :
    ∃ env', declare scope d env = .ok () env' ∧ Ready Γ' scope env' := by
  obtain ⟨hinit, rfl⟩ := Declaration.check_eq_some h
  obtain ⟨v, env', hv, haccepts, henv'⟩ := initial_sound henv hinit
  exact ⟨_, bind_of_ok hv,
    henv'.define (b := ⟨v, d.type⟩) d.name.lexeme haccepts⟩

theorem declareEach_sound {ds : List Declaration} (henv : Ready Γ scope env)
    (h : Declaration.checkAll Γ ds = some Γ') :
    ∃ env', declareEach scope ds env = .ok () env' ∧ Ready Γ' scope env' := by
  induction ds generalizing Γ env with
  | nil =>
      obtain rfl := Option.some.inj h
      exact ⟨env, rfl, henv⟩
  | cons d ds ih =>
      obtain ⟨Γ₁, hd, h⟩ := Option.bind_eq_some_iff.1 h
      obtain ⟨env₁, hrun, henv₁⟩ := declare_sound henv hd
      obtain ⟨env₂, hrest, henv₂⟩ := ih henv₁ h
      refine ⟨env₂, ?_, henv₂⟩
      rw [declareEach, bind_of_ok hrun]
      exact hrest

-- ================================================== runs on a console

/-- The program is not to blame for the fault: the input was not what was
asked for, or the console failed. -/
def Error.Harmless (e : Error) : Prop :=
  e.fault.code = .input ∨ ∃ reason, e.fault = .console reason

theorem Error.Harmless.diagnostic_code {e : Error} (h : e.Harmless) :
    (e.diagnostic.code = .input
        ∨ e.diagnostic.code = .runtime ∧ ∃ reason, e.fault = .console reason)
      ∧ e.diagnostic.code ≠ .typing ∧ e.diagnostic.code ≠ .reference
      ∧ ∀ op, e.fault ≠ .unknownOperator op := by
  have hcode : e.diagnostic.code = e.fault.code := rfl
  rw [hcode]
  rcases h with h | ⟨reason, h⟩
  · refine ⟨.inl h, by rw [h]; decide, by rw [h]; decide, fun op hop => ?_⟩
    rw [hop] at h
    cases h
  · have hruntime : e.fault.code = .runtime := by rw [h]; rfl
    refine ⟨.inr ⟨hruntime, reason, h⟩, by rw [hruntime]; decide,
      by rw [hruntime]; decide, fun op hop => ?_⟩
    rw [h] at hop
    cases hop

/-- The run left a state that is ready for the context, or stopped for a
harmless fault or for want of turns. -/
def Sound (Γ : Context) (scope : Nat) : Result → Prop
  | (env, .done) => Ready Γ scope env
  | (_, .failed e) => e.Harmless
  | (_, .outOfTurns) => True

variable {σ : Type} {w : σ}

theorem ofStep_sound {α : Type} {step : Step α} {a : α} {env' : Environment}
    (h : step env = .ok a env') (henv' : Ready Γ scope env') :
    Sound Γ scope (Result.ofStep step env) := by
  unfold Result.ofStep
  rw [h]
  exact henv'

theorem andThen_sound {Γ'' : Context} {first : StateM σ Result}
    {second : Environment → StateM σ Result}
    (hfirst : Sound Γ' scope (first w).1)
    (hsecond : ∀ env' w',
      Ready Γ' scope env' → Sound Γ'' scope (second env' w').1) :
    Sound Γ'' scope (andThen first second w).1 := by
  rw [andThen_apply]
  rcases hrun : first w with ⟨⟨env', ending⟩, w'⟩
  rw [hrun] at hfirst
  cases ending with
  | done => exact hsecond env' w' hfirst
  | failed e => exact hfirst
  | outOfTurns => exact hfirst

/-- A run that starts with a typed expression is as sound as what comes
behind it. -/
theorem afterStep_sound {e : Expr} (henv : Ready Γ scope env)
    (h : (e.ty? Γ).isSome = true) {run : Value → Environment → StateM σ Result}
    (hrun : ∀ v env', Ready Γ scope env' → Sound Γ' scope (run v env' w).1) :
    Sound Γ' scope (afterStep (e.eval scope) run env w).1 := by
  obtain ⟨t, ht⟩ := Option.isSome_iff_exists.1 h
  obtain ⟨v, env', hv, -, henv'⟩ := (e.eval_sound henv ht).exists
  rw [afterStep_of_ok hv]
  exact hrun v env' henv'

theorem inputOne_sound (con : Console (StateM σ)) {name : Token}
    (henv : Ready Γ scope env) (h : (Γ.lookup name.lexeme).isSome = true) :
    Sound Γ scope (inputOne con scope name env w).1 := by
  obtain ⟨type, hx⟩ := Option.isSome_iff_exists.1 h
  obtain ⟨b, hb, -, -⟩ := henv.lookup hx
  have htyped := (inputOne_change con scope name env w).typed henv.typed
  have houtline := inputOne_outline con scope name env w
  rcases inputOne_cases con scope name env w with
    ⟨failure, w', -, h⟩ | ⟨w', -, h⟩ | ⟨line, w', -, h⟩
  · rw [h]
    exact .inr ⟨failure.reason, rfl⟩
  · rw [h]
    exact .inl rfl
  · rw [h] at htyped houtline ⊢
    rw [ofStep_env] at htyped houtline
    unfold Result.ofStep
    rcases storeLine_cases scope name line env with
      ⟨hnone, -⟩ | ⟨b', e, -, he, hline⟩ | ⟨b', v, env', -, -, -, hline⟩
    · rw [hb] at hnone
      cases hnone
    · rw [hline]
      exact .inl (ofInput_code he)
    · rw [hline] at htyped houtline ⊢
      exact henv.congr htyped houtline

theorem inputEach_sound (con : Console (StateM σ)) {names : List Token}
    (henv : Ready Γ scope env)
    (h : ∀ name ∈ names, (Γ.lookup name.lexeme).isSome = true) :
    Sound Γ scope (inputEach con scope names env w).1 := by
  induction names generalizing env w with
  | nil => exact henv
  | cons name names ih =>
      refine andThen_sound (inputOne_sound con henv (h name (by simp)))
        fun env' w' henv' => ?_
      exact ih henv' fun n hn => h n (List.mem_cons_of_mem name hn)

/-- Behind a scope of its own the context is the one before it. -/
theorem inScope_sound {run : Nat → Environment → StateM σ Result}
    (henv : Ready Γ scope env)
    (hrun : Sound Γ' env.depth (run env.depth (env.push scope) w).1)
    (houtline : (inScope scope env run w).1.1.outline = env.outline) :
    Sound Γ scope (inScope scope env run w).1 := by
  have hres : (inScope scope env run w).1
      = ((run env.depth (env.push scope) w).1.1.pop env.depth,
          (run env.depth (env.push scope) w).1.2) := rfl
  rw [hres] at houtline ⊢
  rcases hr : (run env.depth (env.push scope) w).1 with ⟨env', ending⟩
  rw [hr] at hrun houtline
  cases ending with
  | done => exact henv.congr ((Change.pop env.depth).typed hrun.typed) houtline
  | failed e => exact hrun
  | outOfTurns => trivial

theorem turns_sound {condition : Expr} {body : Environment → StateM σ Result}
    (hcondition : (condition.ty? Γ).isSome = true)
    (hbody : ∀ env w, Ready Γ scope env → Sound Γ scope (body env w).1)
    (n : Nat) (henv : Ready Γ scope env) :
    Sound Γ scope (turns (condition.eval scope) body n env w).1 := by
  induction n generalizing env w with
  | zero => trivial
  | succ n ih =>
      rw [turns_succ]
      refine afterStep_sound henv hcondition fun v env' henv' => ?_
      by_cases hv : v.isTruthy
      · simp only [hv, if_true]
        exact andThen_sound (hbody env' w henv') fun env'' w' henv'' =>
          ih henv''
      · simp only [hv]
        exact henv'

end Run

-- ========================================================== statements

namespace Stmt

variable {σ : Type} (con : Console (StateM σ)) (limit : Nat)

mutual

/-- Running a checked statement is sound. -/
theorem exec_sound (s : Stmt) {Γ Γ' : Context} {scope : Nat}
    {env : Environment} (w : σ) (henv : Ready Γ scope env)
    (h : s.check Γ = some Γ') :
    Sound Γ' scope (s.exec con limit scope env w).1 := by
  match s with
  | .expression e =>
      obtain ⟨hty, ⟨⟩⟩ := Option.ite_none_right_eq_some.1 h
      obtain ⟨t, ht⟩ := Option.isSome_iff_exists.1 hty
      obtain ⟨v, env', hv, -, henv'⟩ := (e.eval_sound henv ht).exists
      exact ofStep_sound hv henv'
  | .print keyword e =>
      obtain ⟨hty, ⟨⟩⟩ := Option.ite_none_right_eq_some.1 h
      rw [exec_print]
      refine afterStep_sound henv hty fun v env' henv' => ?_
      simp only [bind, StateT.bind]
      rcases con.writeLine v.display w with ⟨answer, w'⟩
      cases answer with
      | error failure => exact .inr ⟨failure.reason, rfl⟩
      | ok u => exact henv'
  | .declare d =>
      obtain ⟨env', hrun, henv'⟩ := declare_sound henv h
      exact ofStep_sound hrun henv'
  | .declareAll ds =>
      obtain ⟨env', hrun, henv'⟩ := declareEach_sound henv h
      exact ofStep_sound hrun henv'
  | .input names =>
      obtain ⟨hnames, ⟨⟩⟩ := Option.ite_none_right_eq_some.1 h
      exact inputEach_sound con henv (List.all_eq_true.1 hnames)
  | .block body =>
      obtain ⟨hbody, ⟨⟩⟩ := Option.ite_none_right_eq_some.1 h
      obtain ⟨Γ₁, hΓ₁⟩ := Option.isSome_iff_exists.1 hbody
      exact inScope_sound henv (execAll_sound body w henv.push hΓ₁)
        ((block body).exec_outline con limit scope env w henv.live |>.same rfl)
  | .ifThen condition body =>
      obtain ⟨⟨hcondition, hbody⟩, ⟨⟩⟩ := Option.ite_none_right_eq_some.1 h
      rw [exec_ifThen]
      refine afterStep_sound henv hcondition fun v env' henv' => ?_
      by_cases hv : v.isTruthy
      · simp only [hv, if_true]
        exact body_sound body w henv' hbody
      · simp only [hv]
        exact henv'
  | .ifElse condition body other =>
      obtain ⟨⟨hcondition, hbody, hother⟩, ⟨⟩⟩ :=
        Option.ite_none_right_eq_some.1 h
      rw [exec_ifElse]
      refine afterStep_sound henv hcondition fun v env' henv' => ?_
      by_cases hv : v.isTruthy
      · simp only [hv, if_true]
        exact body_sound body w henv' hbody
      · simp only [hv]
        exact body_sound other w henv' hother
  | .loop condition body =>
      obtain ⟨⟨hcondition, hbody⟩, ⟨⟩⟩ := Option.ite_none_right_eq_some.1 h
      exact turns_sound hcondition
        (fun env w henv => body_sound body w henv hbody) limit henv
  | .program body => exact execAll_sound body w henv h

/-- Running the checked body of a branch or loop is sound, and declares
nothing outside. -/
theorem body_sound (s : Stmt) {Γ : Context} {scope : Nat} {env : Environment}
    (w : σ) (henv : Ready Γ scope env) (h : (s.check Γ).isSome = true) :
    Sound Γ scope (ownScope s.isBlock scope env (s.exec con limit) w).1 := by
  obtain ⟨Γ', hΓ'⟩ := Option.isSome_iff_exists.1 h
  cases hblock : s.isBlock with
  | true =>
      have hsame : Γ' = Γ := by
        cases s with
        | block body =>
            exact (Option.some.inj
              (Option.ite_none_right_eq_some.1 hΓ').2).symm
        | _ => cases hblock
      rw [hsame] at hΓ'
      exact exec_sound s w henv hΓ'
  | false =>
      have houtline := s.ownScope_body con limit scope env w henv.live
      rw [hblock] at houtline
      exact inScope_sound henv (exec_sound s w henv.push hΓ') houtline

/-- Running checked statements in order is sound. -/
theorem execAll_sound (ss : List Stmt) {Γ Γ' : Context} {scope : Nat}
    {env : Environment} (w : σ) (henv : Ready Γ scope env)
    (h : checkAll Γ ss = some Γ') :
    Sound Γ' scope (execAll con limit ss scope env w).1 := by
  match ss with
  | [] =>
      obtain rfl := Option.some.inj h
      exact henv
  | s :: ss =>
      obtain ⟨Γ₁, hs, h⟩ := Option.bind_eq_some_iff.1 h
      exact andThen_sound (exec_sound s w henv hs) fun env' w' henv' =>
        execAll_sound ss w' henv' h

end

end Stmt

-- ============================================================ sessions

namespace Run

variable {σ : Type} (con : Console (StateM σ)) (limit : Nat)

/-- A session leaves a state that is ready for a program which brings its
own declarations. -/
theorem session_ready (calls : List Stmt) {env : Environment} (w : σ)
    (henv : Ready [] Environment.global env) :
    Ready [] Environment.global (session con limit calls env w).1 := by
  induction calls generalizing env w with
  | nil => exact henv
  | cons s calls ih =>
      have hdiffers :=
        (s.exec_outline con limit Environment.global env w henv.live).differs
      refine ih _ ⟨?_, hdiffers.grounded henv.grounded, ?_,
        fun x type hx => ?_⟩
      · exact (s.path con limit Environment.global env w henv.typed).typed
          henv.typed
      · exact hdiffers.depth ▸ henv.live
      · cases hx

/-- Without variables the state is ready for such a program, too. -/
theorem empty_ready : Ready [] Environment.global Environment.empty where
  typed := empty_typed
  grounded := empty_grounded
  live := Nat.zero_lt_one
  means x type hx := by cases hx

end Run

namespace Stmt

variable {σ : Type} (con : Console (StateM σ)) (limit : Nat)

/-- A program that keeps to the discipline and comes to its end is done,
or has stopped because of its input or its console. It is interpreted
after any other programs, of which nothing is assumed. -/
theorem interpret_checked {earlier : List Stmt} {p : Stmt} {w w' : σ}
    {env : Environment} (hp : p.Checked)
    (hsession : session con limit earlier Environment.empty w = (env, w'))
    (hend : Ended (p.interpret con limit env w')) :
    (p.interpret con limit env w').1.2 = .done
      ∨ ∃ e, (p.interpret con limit env w').1.2 = .failed e
        ∧ (e.diagnostic.code = .input
          ∨ e.diagnostic.code = .runtime ∧ ∃ reason, e.fault = .console reason)
        ∧ e.diagnostic.code ≠ .typing ∧ e.diagnostic.code ≠ .reference
        ∧ ∀ op, e.fault ≠ .unknownOperator op := by
  obtain ⟨Γ, hΓ⟩ := Option.isSome_iff_exists.1 hp
  have hready : Ready [] Environment.global env := by
    have h := session_ready con limit earlier w empty_ready
    rw [hsession] at h
    exact h
  have hsound := p.exec_sound con limit w' hready hΓ
  change Sound Γ Environment.global (p.interpret con limit env w').1 at hsound
  generalize p.interpret con limit env w' = r at hend hsound ⊢
  obtain ⟨⟨env', ending⟩, w''⟩ := r
  cases ending with
  | done => exact .inl rfl
  | failed e => exact .inr ⟨e, rfl, Error.Harmless.diagnostic_code hsound⟩
  | outOfTurns => exact absurd rfl hend

/-- Reads letters and prints them with a mark, up to a `q`. -/
def letters : Stmt :=
  let word kind lexeme : Token := ⟨kind, lexeme, none, ⟨1, 0⟩⟩
  let more := word .identifier "more"
  let letter := word .identifier "letter"
  .program
    [ .declareAll
        [⟨more, some (.literal (.truth true)), .tinuod⟩,
          ⟨letter, none, .letra⟩],
      .loop (.var more) (.block
        [ .input [letter],
          .print (word .ipakita "IPAKITA")
            (.binary (.var letter) (word .ampersand "&")
              (.literal (.text "!"))),
          .ifThen (.binary (.var letter) (word .equalEqual "==")
            (.literal (.char 'q')))
          (.expression (.assign more (.literal (.truth false)))) ]) ]

/-- The loop of `letters` runs out of input in its second turn; before it,
a program was interpreted that faults. -/
theorem interpret_checked_letters :
    let ghost : Stmt :=
      .expression (.var ⟨.identifier, "letter", none, ⟨1, 0⟩⟩)
    let start : Scripted := { queue := ["x"] }
    let r := letters.interpret Scripted.console 3 Environment.empty start
    letters.Checked
      ∧ session Scripted.console 3 [ghost] Environment.empty start
        = (Environment.empty, start)
      ∧ Ended r
      ∧ (r.1.2 = .done
        ∨ ∃ e, r.1.2 = .failed e
          ∧ (e.diagnostic.code = .input
            ∨ e.diagnostic.code = .runtime ∧ ∃ reason, e.fault
            = .console reason)
          ∧ e.diagnostic.code ≠ .typing ∧ e.diagnostic.code ≠ .reference
          ∧ ∀ op, e.fault ≠ .unknownOperator op) := by
  intro ghost start r
  have hchecked : letters.Checked := by decide
  have hsession : session Scripted.console 3 [ghost] Environment.empty start
      = (Environment.empty, start) := rfl
  have hend : Ended r := by
    unfold Ended
    decide
  exact ⟨hchecked, hsession, hend,
    interpret_checked Scripted.console 3 hchecked hsession hend⟩

end Stmt

end BisayaPlus
