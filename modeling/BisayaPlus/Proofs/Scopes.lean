/-
What a run keeps of the scopes.

The outline of an environment is all there is to it but the values: for
each scope its parent, and its names with their declared types. What a
name means is decided by the outline up to its value (`lookup_type`), so
that two environments of one outline are alike for whoever only asks for
types.

Expressions keep the outline. A statement keeps it too, unless it is a
declaration or a program that holds one, and these change no more than
the names and types of the scope they run in (`Stmt.exec_outline`). In
particular a scope that was opened is gone afterwards, and what was
declared in it with it.
-/
import BisayaPlus.Proofs.Steps
import BisayaPlus.Run.Stable

namespace BisayaPlus

open Run

-- ============================================================ outlines

/-- A scope without its values. -/
structure Outline where
  parent : Option Nat
  types : String → Option VarType

/-- A scope without its values. -/
def Scope.outline (s : Scope) : Outline where
  parent := s.parent
  types x := (s.find? x).map Binding.type

theorem Scope.outline_update (s : Scope) (x : String) (v : Value) :
    (s.update x v).outline = s.outline := by
  unfold outline
  congr 1
  funext y
  rw [find?_update]
  cases s.find? y with
  | none => rfl
  | some b =>
      show some (if y = x then { b with value := v } else b).type = some b.type
      split <;> rfl

theorem Scope.outline_insert (s : Scope) (x : String) (b : Binding) :
    (s.insert x b).outline
      = { s.outline with
          types := fun y =>
            if y = x then some b.type else s.outline.types y } := by
  unfold outline
  congr 1
  funext y
  rw [find?_insert]
  split <;> rfl

namespace Environment

variable {env env' env'' : Environment} {scope i : Nat} {x y : String}
  {b : Binding}

/-- An environment without its values. -/
def outline (env : Environment) : List Outline := env.scopes.map Scope.outline

theorem length_outline (env : Environment) : env.outline.length = env.depth :=
  List.length_map ..

/-- Environments with one outline have the same depth. -/
theorem depth_of_outline (h : env'.outline = env.outline) :
    env'.depth = env.depth := by
  rw [← length_outline, ← length_outline, h]

/-- An assignment changes no outline. -/
theorem outline_assign? {v : Value} (h : env.assign? scope x v = some env') :
    env'.outline = env.outline := by
  unfold assign? at h
  obtain ⟨owner, -, rfl⟩ := Option.map_eq_some_iff.1 h
  unfold outline
  refine List.ext_getElem? fun i => ?_
  rw [List.getElem?_map, List.getElem?_map, List.getElem?_modify]
  cases env.scopes[i]? with
  | none => rfl
  | some s =>
      by_cases hi : owner = i
      · simp [hi, Scope.outline_update]
      · simp [hi]

theorem outline_define (env : Environment) (scope : Nat) (x : String)
    (b : Binding) :
    (env.define scope x b).outline = env.outline.modify scope fun o =>
      { o with
        types := fun y => if y = x then some b.type else o.types y } := by
  unfold outline define
  refine List.ext_getElem? fun i => ?_
  rw [List.getElem?_map, List.getElem?_modify, List.getElem?_modify,
    List.getElem?_map]
  cases env.scopes[i]? with
  | none => rfl
  | some s =>
      by_cases hi : scope = i
      · simp [hi, Scope.outline_insert]
      · simp [hi]

theorem outline_push (env : Environment) (parent : Nat) :
    (env.push parent).outline
      = env.outline ++ [⟨some parent, fun _ => none⟩] := by
  unfold outline push
  rw [List.map_append]
  rfl

theorem outline_pop (h : scope ≠ global) :
    (env.pop scope).outline = env.outline.take scope := by
  unfold pop
  rw [if_neg h]
  exact List.map_take

-- ================================================ look-up by outline

/-- The walk to the meaning of a name is decided by the outline. -/
theorem resolveWithin_congr (h : env'.outline = env.outline) (x : String)
    (steps scope : Nat) :
    env'.resolveWithin x steps scope = env.resolveWithin x steps scope := by
  induction steps generalizing scope with
  | zero => rfl
  | succ steps ih =>
      have hat : (env'.scopes[scope]?).map Scope.outline
          = (env.scopes[scope]?).map Scope.outline := by
        have := congrArg (·[scope]?) h
        simpa [outline] using this
      unfold resolveWithin
      cases hs : env.scopes[scope]? with
      | none =>
          rw [hs] at hat
          rw [Option.map_eq_none_iff.1 hat]
      | some s =>
          rw [hs] at hat
          obtain ⟨s', hs', heq⟩ := Option.map_eq_some_iff.1 hat
          have hparent : s'.parent = s.parent := congrArg Outline.parent heq
          have htype : (s'.find? x).map Binding.type
              = (s.find? x).map Binding.type :=
            congrFun (congrArg Outline.types heq) x
          rw [hs']
          simp only [hparent]
          cases hx : s.find? x with
          | none =>
              rw [hx] at htype
              rw [Option.map_eq_none_iff.1 htype]
              cases s.parent with
              | none => rfl
              | some parent => exact ih parent
          | some b =>
              rw [hx] at htype
              obtain ⟨b', hb', -⟩ := Option.map_eq_some_iff.1 htype
              rw [hb']

theorem bindingAt_type (env : Environment) (i : Nat) (x : String) :
    (env.bindingAt i x).map Binding.type
      = (env.outline[i]?).bind (·.types x) := by
  unfold bindingAt outline
  rw [List.getElem?_map]
  cases env.scopes[i]? <;> rfl

/-- The type of what a name means is decided by the outline. -/
theorem lookup_type (h : env'.outline = env.outline) (scope : Nat)
    (x : String) :
    (env'.lookup scope x).map Binding.type
      = (env.lookup scope x).map Binding.type := by
  have hresolve : env'.resolve scope x = env.resolve scope x := by
    unfold resolve
    rw [depth_of_outline h]
    exact resolveWithin_congr h x env.depth scope
  unfold lookup
  rw [hresolve]
  cases env.resolve scope x with
  | none => rfl
  | some owner =>
      show (env'.bindingAt owner x).map Binding.type
        = (env.bindingAt owner x).map Binding.type
      rw [bindingAt_type, bindingAt_type, h]

-- =========================================== look-up and the operations

/-- The parent of every scope was made before it, so that every walk comes
to its end. -/
def Grounded (env : Environment) : Prop :=
  ∀ i (o : Outline) parent, env.outline[i]? = some o → o.parent = some parent →
    parent < i

/-- The global scope has no parent. -/
theorem empty_grounded : empty.Grounded := by
  intro i o parent ho hparent
  cases i with
  | zero =>
      obtain rfl := Option.some.inj ho
      cases hparent
  | succ i => cases ho

/-- Whether parents come first is told by the outline. -/
theorem Grounded.congr (h : env.Grounded) (heq : env'.outline = env.outline) :
    env'.Grounded := by
  unfold Grounded
  rw [heq]
  exact h

/-- A scope below an older one has its parent before it. -/
theorem Grounded.push (h : env.Grounded) (hscope : scope < env.depth) :
    (env.push scope).Grounded := by
  intro i o parent ho hparent
  rw [outline_push] at ho
  rcases Nat.lt_or_ge i env.outline.length with hi | hi
  · rw [List.getElem?_append_left hi] at ho
    exact h i o parent ho hparent
  · rw [List.getElem?_append_right hi] at ho
    obtain ⟨hlt, hget⟩ := List.getElem?_eq_some_iff.1 ho
    obtain hi' : i - env.outline.length = 0 := by simpa using hlt
    simp only [hi', List.getElem_cons_zero] at hget
    subst hget
    obtain rfl := Option.some.inj hparent
    rw [length_outline] at hi
    omega

/-- A walk does not come to scopes that are made later. -/
theorem resolveWithin_push (h : env.Grounded) (parent : Nat) (x : String)
    (steps : Nat) (hi : i < env.depth) :
    (env.push parent).resolveWithin x steps i
      = env.resolveWithin x steps i := by
  induction steps generalizing i with
  | zero => rfl
  | succ steps ih =>
      unfold resolveWithin
      have hat : (env.push parent).scopes[i]? = env.scopes[i]? :=
        List.getElem?_append_left hi
      rw [hat]
      cases hs : env.scopes[i]? with
      | none => rfl
      | some s =>
          simp only
          cases s.find? x with
          | some b => rfl
          | none =>
              cases hparent : s.parent with
              | none => rfl
              | some p =>
                  have hp : p < i :=
                    h i s.outline p (by simp [outline, hs]) hparent
                  exact ih (by omega)

/-- In a new scope a name means what it means in the parent. -/
theorem lookup_push (h : env.Grounded) (hscope : scope < env.depth)
    (x : String) :
    (env.push scope).lookup env.depth x = env.lookup scope x := by
  have hnew : (env.push scope).scopes[env.depth]? = some ⟨[], some scope⟩ := by
    unfold depth Environment.push
    exact List.getElem?_concat_length
  have hresolve : (env.push scope).resolve env.depth x
      = env.resolve scope x := by
    unfold resolve
    rw [depth_push, resolveWithin, hnew]
    exact resolveWithin_push h scope x env.depth hscope
  unfold lookup
  rw [hresolve]
  simp only [bindingAt_push]

/-- A name that was just declared means what it was declared as. -/
theorem lookup_define_self (hscope : scope < env.depth) :
    (env.define scope x b).lookup scope x = some b := by
  have hdepth : (env.define scope x b).depth = env.depth :=
    List.length_modify ..
  have hat : (env.define scope x b).bindingAt scope x = some b := by
    rw [bindingAt_define hscope, if_pos ⟨rfl, rfl⟩]
  refine lookup_eq_some_iff.2 ⟨scope, ?_, hat⟩
  obtain ⟨s, hs, hfind⟩ := Option.bind_eq_some_iff.1 hat
  obtain ⟨steps, hsteps⟩ : ∃ steps, env.depth = steps + 1 :=
    ⟨env.depth - 1, by omega⟩
  unfold resolve
  rw [hdepth, hsteps, resolveWithin, hs]
  simp only [hfind]

/-- A declaration is not met on the way to another name. -/
theorem resolveWithin_define (hxy : y ≠ x) (steps : Nat) :
    (env.define scope x b).resolveWithin y steps i
      = env.resolveWithin y steps i := by
  induction steps generalizing i with
  | zero => rfl
  | succ steps ih =>
      unfold resolveWithin
      have hat : (env.define scope x b).scopes[i]?
          = (env.scopes[i]?).map fun s => if scope = i then s.insert x b
            else s := by
        unfold Environment.define
        rw [List.getElem?_modify]
        cases env.scopes[i]? with
        | none => rfl
        | some s => by_cases hi : scope = i <;> simp [hi]
      rw [hat]
      cases env.scopes[i]? with
      | none => rfl
      | some s =>
          have hfind : (if scope = i then s.insert x b else s).find? y
              = s.find? y := by
            split
            · rw [Scope.find?_insert, if_neg hxy]
            · rfl
          have hparent : (if scope = i then s.insert x b else s).parent
              = s.parent := by
            split <;> rfl
          simp only [Option.map_some, hfind, hparent]
          cases s.find? y with
          | some c => rfl
          | none =>
              cases s.parent with
              | none => rfl
              | some p => exact ih

/-- A declaration does not change what other names mean. -/
theorem lookup_define_of_ne (hxy : y ≠ x) (hscope : scope < env.depth)
    (i : Nat) :
    (env.define scope x b).lookup i y = env.lookup i y := by
  have hdepth : (env.define scope x b).depth = env.depth :=
    List.length_modify ..
  unfold lookup resolve
  rw [hdepth, resolveWithin_define hxy]
  cases env.resolveWithin y env.depth i with
  | none => rfl
  | some owner =>
      show (env.define scope x b).bindingAt owner y = env.bindingAt owner y
      rw [bindingAt_define hscope, if_neg fun h => hxy h.2]

-- ============================================ change of one scope only

/-- The outline is the same but for the names and types of one scope. -/
def Differs (scope : Nat) (env env' : Environment) : Prop :=
  ∃ types, env'.outline = env.outline.modify scope fun o =>
    { o with types := types }

/-- The same outline differs nowhere. -/
theorem Differs.of_eq (h : env'.outline = env.outline) :
    Differs scope env env' := by
  cases ho : env.outline[scope]? with
  | none =>
      refine ⟨fun _ => none, ?_⟩
      rw [List.modify_eq_self (List.getElem?_eq_none_iff.1 ho), h]
  | some o =>
      refine ⟨o.types, h.trans (List.ext_getElem? fun i => ?_)⟩
      rw [List.getElem?_modify]
      by_cases hi : scope = i
      · subst hi
        rw [ho]
        simp
      · simp [hi]

theorem Differs.refl (scope : Nat) (env : Environment) :
    Differs scope env env := .of_eq rfl

/-- Two changes in one scope are a change in it. -/
theorem Differs.trans (h : Differs scope env env')
    (h' : Differs scope env' env'') :
    Differs scope env env'' := by
  obtain ⟨types, h⟩ := h
  obtain ⟨types', h'⟩ := h'
  refine ⟨types', ?_⟩
  rw [h', h, List.modify_modify_eq]
  rfl

/-- A declaration changes the types of one scope. -/
theorem Differs.define (env : Environment) (scope : Nat) (x : String)
    (b : Binding) :
    Differs scope env (env.define scope x b) := by
  cases ho : env.outline[scope]? with
  | none =>
      have hle := List.getElem?_eq_none_iff.1 ho
      rw [length_outline] at hle
      rw [define_of_le hle]
      exact .refl scope env
  | some o =>
      refine ⟨fun y => if y = x then some b.type else o.types y, ?_⟩
      rw [outline_define]
      refine List.ext_getElem? fun i => ?_
      rw [List.getElem?_modify, List.getElem?_modify]
      by_cases hi : scope = i
      · subst hi
        rw [ho]
        rfl
      · simp [hi]

/-- The number of scopes stays the same. -/
theorem Differs.depth (h : Differs scope env env') :
    env'.depth = env.depth := by
  obtain ⟨types, h⟩ := h
  rw [← length_outline, h, List.length_modify, length_outline]

/-- Parents still come first. -/
theorem Differs.grounded (h : Differs scope env env') (henv : env.Grounded) :
    env'.Grounded := by
  obtain ⟨types, h⟩ := h
  intro i o parent ho hparent
  rw [h, List.getElem?_modify] at ho
  obtain ⟨o', ho', rfl⟩ := Option.map_eq_some_iff.1 ho
  refine henv i o' parent ho' ?_
  split at hparent
  · exact hparent
  · exact hparent

/-- Whatever was done in a scope of its own, dropping the scope gives the
outline back. -/
theorem Differs.pop_push {parent : Nat} (hdepth : 0 < env.depth)
    (h : Differs env.depth (env.push parent) env') :
    (env'.pop env.depth).outline = env.outline := by
  obtain ⟨types, h⟩ := h
  rw [outline_pop (Nat.ne_of_gt hdepth), h, outline_push, ← length_outline]
  rw [List.take_modify, List.take_left, List.modify_eq_self (Nat.le_refl _)]

end Environment

open Environment

-- ========================================================= expressions

namespace Run

variable {α β : Type}

/-- A computation that may give variables values but keeps their scopes,
names and types. -/
def KeepsOutline (step : Step α) : Prop :=
  ∀ env, (stateAfter (step env)).outline = env.outline

theorem KeepsOutline.pure (a : α) : KeepsOutline (Pure.pure a : Step α) :=
  fun _ => rfl

theorem KeepsOutline.settle (r : Except Error α) :
    KeepsOutline (Run.settle r) := by
  intro env
  cases r <;> rfl

/-- One computation behind the other keeps the outline if both do. -/
theorem KeepsOutline.bind {step : Step α} {f : α → Step β}
    (h : KeepsOutline step) (hf : ∀ a, KeepsOutline (f a)) :
    KeepsOutline (step >>= f) := by
  intro env
  have henv := h env
  cases hstep : step env with
  | error e env' =>
      rw [bind_of_error hstep]
      rw [hstep] at henv
      exact henv
  | ok a env' =>
      rw [bind_of_ok hstep]
      rw [hstep] at henv
      exact (hf a env').trans henv

/-- Counting assigns or faults. -/
theorem count_keepsOutline (scope : Nat) (name : Token) (delta : Float) :
    KeepsOutline (count scope name delta) := by
  intro env
  rcases count_cases scope name delta env with
    ⟨-, h⟩ | ⟨b, -, -, h⟩ | ⟨b, x, env', -, -, hassign, h⟩
  · rw [h]
    rfl
  · rw [h]
    rfl
  · rw [h]
    exact outline_assign? hassign

/-- So does taking a line for a variable. -/
theorem storeLine_keepsOutline (scope : Nat) (name : Token) (line : String) :
    KeepsOutline (storeLine scope name line) := by
  intro env
  rcases storeLine_cases scope name line env with
    ⟨-, h⟩ | ⟨b, e, -, -, h⟩ | ⟨b, v, env', -, -, hassign, h⟩
  · rw [h]
    rfl
  · rw [h]
    rfl
  · rw [h]
    exact outline_assign? hassign

end Run

/-- Expressions declare nothing. -/
theorem Expr.eval_keepsOutline (e : Expr) (scope : Nat) :
    KeepsOutline (e.eval scope) := by
  induction e with
  | literal v => exact .pure v
  | var name =>
      intro env
      rw [eval_var]
      cases env.lookup scope name.lexeme <;> rfl
  | grouping e ih => exact ih
  | unary op e ih => exact .bind ih fun v => .settle _
  | binary left op right ihleft ihright =>
      exact .bind ihleft fun l => .bind ihright fun r => .settle _
  | logical left op right ihleft ihright =>
      refine .bind ihleft fun l => ?_
      split
      · exact .pure l
      · exact ihright
  | assign name value ih =>
      intro env
      have henv := ih env
      cases hv : value.eval scope env with
      | error e env' =>
          rw [eval_assign_of_error hv]
          rw [hv] at henv
          exact henv
      | ok v env' =>
          rw [hv] at henv
          rcases eval_assign_cases name hv with
            ⟨-, h⟩ | ⟨b, -, -, h⟩ | ⟨b, env'', -, -, hassign, h⟩
          · rw [h]
            exact henv
          · rw [h]
            exact henv
          · rw [h]
            exact (outline_assign? hassign).trans henv
  | increment name => exact count_keepsOutline scope name 1.0
  | decrement name => exact count_keepsOutline scope name (-1.0)

-- ========================================================== statements

namespace Stmt

mutual

/-- The statement declares something in the scope it runs in. -/
def declares : Stmt → Bool
  | declare _ => true
  | declareAll _ => true
  | program body => declaresAny body
  | _ => false

/-- One of the statements declares something in the scope they run in. -/
def declaresAny : List Stmt → Bool
  | [] => false
  | s :: ss => s.declares || declaresAny ss

end

end Stmt

namespace Run

variable {σ : Type} {scope : Nat} {env env' : Environment} {w : σ}

/-- What a run keeps of the outline: all of it, or if it declares all but
the names and types of its own scope. -/
structure Kept (declares : Bool) (scope : Nat) (env env' : Environment) :
    Prop where
  differs : Differs scope env env'
  same : declares = false → env'.outline = env.outline

/-- What keeps the outline keeps all that is asked. -/
theorem Kept.of_eq {declares : Bool} (h : env'.outline = env.outline) :
    Kept declares scope env env' := ⟨.of_eq h, fun _ => h⟩

/-- What declares may change the types of its scope. -/
theorem Kept.of_differs (h : Differs scope env env') :
    Kept true scope env env' :=
  ⟨h, fun h => by cases h⟩

/-- A declaration changes its scope only. -/
theorem declare_differs (scope : Nat) (d : Declaration) (env : Environment) :
    Differs scope env (stateAfter (declare scope d env)) := by
  have hinit : (stateAfter (initial scope d env)).outline = env.outline := by
    rcases initial_cases scope d env with ⟨-, h⟩ | ⟨e, err, env₁, -, hv, h⟩
      | ⟨e, v, env₁, -, hv, -, h⟩ | ⟨e, v, env₁, -, hv, -, h⟩
    · rw [h]
      rfl
    all_goals
      have he := e.eval_keepsOutline scope env
      rw [hv] at he
      rw [h]
      exact he
  rcases declare_cases scope d env with ⟨e, env₁, h₁, h⟩ | ⟨v, env₁, h₁, h⟩
  · rw [h₁] at hinit
    rw [h]
    exact .of_eq hinit
  · rw [h₁] at hinit
    rw [h]
    exact (Differs.of_eq hinit).trans (.define env₁ scope _ _)

/-- So do several. -/
theorem declareEach_differs (scope : Nat) (ds : List Declaration)
    (env : Environment) :
    Differs scope env (stateAfter (declareEach scope ds env)) := by
  induction ds generalizing env with
  | nil => exact .refl scope env
  | cons d ds ih =>
      have hd := declare_differs scope d env
      unfold declareEach
      cases h : declare scope d env with
      | error e env₁ =>
          rw [bind_of_error h]
          rw [h] at hd
          exact hd
      | ok u env₁ =>
          rw [bind_of_ok h]
          rw [h] at hd
          exact hd.trans (ih env₁)

/-- Reading a line declares nothing. -/
theorem inputOne_outline (con : Console (StateM σ)) (scope : Nat)
    (name : Token) (env : Environment) (w : σ) :
    (inputOne con scope name env w).1.1.outline = env.outline := by
  rcases inputOne_cases con scope name env w with
    ⟨failure, w', -, h⟩ | ⟨w', -, h⟩ | ⟨line, w', -, h⟩
  · rw [h]
  · rw [h]
  · rw [h, ofStep_env]
    exact storeLine_keepsOutline scope name line env

/-- If two runs in a row both keep the outline, so do they together. -/
theorem andThen_outline {first : StateM σ Result}
    {second : Environment → StateM σ Result}
    (hfirst : (first w).1.1.outline = env.outline)
    (hsecond : ∀ env' w', env'.outline = env.outline →
      (second env' w').1.1.outline = env.outline) :
    (andThen first second w).1.1.outline = env.outline := by
  rw [andThen_apply]
  rcases hrun : first w with ⟨⟨env', ending⟩, w'⟩
  rw [hrun] at hfirst
  cases ending with
  | done => exact hsecond env' w' hfirst
  | failed e => exact hfirst
  | outOfTurns => exact hfirst

/-- Nor does reading several. -/
theorem inputEach_outline (con : Console (StateM σ)) (scope : Nat)
    (names : List Token) (env : Environment) (w : σ) :
    (inputEach con scope names env w).1.1.outline = env.outline := by
  induction names generalizing env w with
  | nil => rfl
  | cons name names ih =>
      exact andThen_outline (inputOne_outline con scope name env w)
        fun env' w' henv' => (ih env' w').trans henv'

/-- A scope that was opened is dropped with all that was declared in it. -/
theorem inScope_outline {run : Nat → Environment → StateM σ Result}
    (hscope : scope < env.depth)
    (hrun : ∀ inner env w,
      inner < env.depth → Differs inner env (run inner env w).1.1) :
    (inScope scope env run w).1.1.outline = env.outline := by
  have hinner := hrun env.depth (env.push scope) w (env.depth_lt_push scope)
  exact hinner.pop_push (by omega)

/-- A body in a scope of its own leaves no trace in the outline; a block
must see to that itself. -/
theorem ownScope_outline {run : Nat → Environment → StateM σ Result}
    {isBlock : Bool} (hscope : scope < env.depth)
    (hrun : ∀ inner env w,
      inner < env.depth → Differs inner env (run inner env w).1.1)
    (hblock : isBlock = true → (run scope env w).1.1.outline = env.outline) :
    (ownScope isBlock scope env run w).1.1.outline = env.outline := by
  cases isBlock with
  | true => exact hblock rfl
  | false => exact inScope_outline hscope hrun

/-- A run behind a computation starts from the same outline. -/
theorem afterStep_outline {α : Type} {step : Step α}
    {run : α → Environment → StateM σ Result} (hstep : KeepsOutline step)
    (hrun : ∀ a env',
      env'.outline = env.outline → (run a env' w).1.1.outline = env.outline) :
    (afterStep step run env w).1.1.outline = env.outline := by
  have henv := hstep env
  cases h : step env with
  | error e env' =>
      rw [afterStep_of_error h]
      rw [h] at henv
      exact henv
  | ok a env' =>
      rw [afterStep_of_ok h]
      rw [h] at henv
      exact hrun a env' henv

/-- Each turn starts from the outline that the first one started from. -/
theorem turns_outline {condition : Step Value}
    {body : Environment → StateM σ Result}
    (hcondition : KeepsOutline condition)
    (hbody : ∀ env' w,
      env'.outline = env.outline → (body env' w).1.1.outline = env.outline)
    (n : Nat) (h : env'.outline = env.outline) :
    (turns condition body n env' w).1.1.outline = env.outline := by
  induction n generalizing env' w with
  | zero => exact h
  | succ n ih =>
      rw [turns_succ, ← h]
      refine afterStep_outline hcondition fun v env₁ henv₁ => ?_
      by_cases hv : v.isTruthy
      · simp only [hv, if_true]
        rw [h] at henv₁ ⊢
        exact andThen_outline (hbody env₁ w henv₁)
          fun env₂ w₂ henv₂ => ih henv₂
      · simp only [hv]
        exact henv₁

end Run

namespace Stmt

variable {σ : Type} (con : Console (StateM σ)) (limit : Nat)

/-- A block declares nothing outside. -/
theorem declares_of_isBlock {s : Stmt} (h : s.isBlock = true) :
    s.declares = false := by
  cases s with
  | block body => rfl
  | _ => cases h

mutual

/-- What running a statement keeps of the scopes. -/
theorem exec_outline (s : Stmt) (scope : Nat) (env : Environment) (w : σ)
    (hscope : scope < env.depth) :
    Kept s.declares scope env (s.exec con limit scope env w).1.1 := by
  match s with
  | .expression e =>
      refine .of_eq ?_
      show (Result.ofStep (e.eval scope) env).1.outline = env.outline
      rw [ofStep_env]
      exact e.eval_keepsOutline scope env
  | .print keyword e =>
      rw [exec_print]
      refine .of_eq (afterStep_outline (e.eval_keepsOutline scope)
        fun v env' henv' => ?_)
      simp only [bind, StateT.bind]
      rcases con.writeLine v.display w with ⟨answer, w'⟩
      cases answer with
      | error failure => exact henv'
      | ok u => exact henv'
  | .declare d =>
      refine .of_differs ?_
      show Differs scope env (Result.ofStep (Run.declare scope d) env).1
      rw [ofStep_env]
      exact declare_differs scope d env
  | .declareAll ds =>
      refine .of_differs ?_
      show Differs scope env (Result.ofStep (declareEach scope ds) env).1
      rw [ofStep_env]
      exact declareEach_differs scope ds env
  | .input names => exact .of_eq (inputEach_outline con scope names env w)
  | .block body =>
      exact .of_eq (inScope_outline hscope fun inner env w hinner =>
        (execAll_outline body inner env w hinner).differs)
  | .ifThen condition body =>
      rw [exec_ifThen]
      refine .of_eq (afterStep_outline (condition.eval_keepsOutline scope)
        fun v env' henv' => ?_)
      by_cases hv : v.isTruthy
      · simp only [hv, if_true]
        exact (ownScope_body body scope env' w
          (by rwa [depth_of_outline henv'])).trans henv'
      · simp only [hv]
        exact henv'
  | .ifElse condition body other =>
      rw [exec_ifElse]
      refine .of_eq (afterStep_outline (condition.eval_keepsOutline scope)
        fun v env' henv' => ?_)
      by_cases hv : v.isTruthy
      · simp only [hv, if_true]
        exact (ownScope_body body scope env' w
          (by rwa [depth_of_outline henv'])).trans henv'
      · simp only [hv]
        exact (ownScope_body other scope env' w
          (by rwa [depth_of_outline henv'])).trans henv'
  | .loop condition body =>
      refine .of_eq (turns_outline (condition.eval_keepsOutline scope)
        (fun env' w henv' => ?_) limit rfl)
      exact (ownScope_body body scope env' w
        (by rwa [depth_of_outline henv'])).trans henv'
  | .program body => exact execAll_outline body scope env w hscope

/-- The body of a branch or loop keeps the outline whatever it is. -/
theorem ownScope_body (s : Stmt) (scope : Nat) (env : Environment) (w : σ)
    (hscope : scope < env.depth) :
    (ownScope s.isBlock scope env (s.exec con limit) w).1.1.outline
      = env.outline :=
  ownScope_outline hscope
    (fun inner env w hinner => (exec_outline s inner env w hinner).differs)
    fun hblock => (exec_outline s scope env w hscope).same
      (declares_of_isBlock hblock)

/-- What running statements in order keeps of the scopes. -/
theorem execAll_outline (ss : List Stmt) (scope : Nat) (env : Environment)
    (w : σ) (hscope : scope < env.depth) :
    Kept (declaresAny ss) scope env
      (execAll con limit ss scope env w).1.1 := by
  match ss with
  | [] => exact .of_eq rfl
  | s :: ss =>
      have hs := exec_outline s scope env w hscope
      rw [execAll, andThen_apply]
      rcases hrun : s.exec con limit scope env w with ⟨⟨env', ending⟩, w'⟩
      rw [hrun] at hs
      have hstop : Kept (declaresAny (s :: ss)) scope env env' := by
        refine ⟨hs.differs, fun h => hs.same ?_⟩
        exact (Bool.or_eq_false_iff.1 h).1
      cases ending with
      | done =>
          have hss :=
            execAll_outline ss scope env' w' (by rwa [hs.differs.depth])
          refine ⟨hs.differs.trans hss.differs, fun h => ?_⟩
          obtain ⟨h₁, h₂⟩ := Bool.or_eq_false_iff.1 h
          exact (hss.same h₂).trans (hs.same h₁)
      | failed e => exact hstop
      | outOfTurns => exact hstop

end

end Stmt

end BisayaPlus
