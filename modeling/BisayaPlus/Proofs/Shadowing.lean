/-
A variable that another one of its name hides is not touched.

Where a name means a variable of some scope, the variables of that name
in the scopes further out are hidden: nothing that runs there, or in a
scope opened from there, can change them. `Hides j x scope` says that
`x` means in `scope` a variable of the scope `j` or of a later one, so
that those before `j` are hidden, and `Stmt.execAll_hidden` that a run in
`scope` then leaves the bindings of `x` before `j` as they are, with their
values.
-/
import BisayaPlus.Proofs.Closure
import BisayaPlus.Proofs.Padding

namespace BisayaPlus

open Run

namespace Environment

variable {env env' : Environment} {scope j : Nat} {x y : String}

/-- In `scope` the name means a variable of the scope `j` or of one made
after it. -/
structure Hides (j : Nat) (x : String) (scope : Nat) (env : Environment) :
    Prop where
  grounded : env.Grounded
  within : j ≤ scope
  owner : ∃ owner, env.resolve scope x = some owner ∧ j ≤ owner

/-- The bindings of a name in the scopes before `j` are the same. -/
def SameBefore (j : Nat) (x : String) (env env' : Environment) : Prop :=
  ∀ i, i < j → env'.bindingAt i x = env.bindingAt i x

/-- Two environments of one outline resolve every name alike. -/
theorem resolve_congr (h : env'.outline = env.outline) (scope : Nat)
    (x : String) :
    env'.resolve scope x = env.resolve scope x := by
  unfold resolve
  rw [depth_of_outline h]
  exact resolveWithin_congr h x env.depth scope

/-- A name that the scope itself binds is found there. -/
theorem resolve_of_bindingAt {b : Binding} (hscope : scope < env.depth)
    (hb : env.bindingAt scope x = some b) :
    env.resolve scope x = some scope := by
  obtain ⟨s, hs, hfind⟩ := Option.bind_eq_some_iff.1 hb
  obtain ⟨steps, hsteps⟩ : ∃ steps, env.depth = steps + 1 :=
    ⟨env.depth - 1, by omega⟩
  unfold resolve
  rw [hsteps, resolveWithin, hs]
  simp only [hfind]

/-- In a new scope a name is found where it is found in the parent. -/
theorem resolve_push (h : env.Grounded) (hscope : scope < env.depth)
    (x : String) :
    (env.push scope).resolve env.depth x = env.resolve scope x := by
  rw [push_eq_padded, resolve_padded_self h (Nat.le_refl _) hscope]
  cases howner : env.resolve scope x with
  | none => rfl
  | some owner =>
      have hle := h.resolve_le howner
      rw [Option.map_some, raised_of_lt (by omega)]

theorem bindingAt_pop {i : Nat} (hi : i < scope) (x : String) :
    (env.pop scope).bindingAt i x = env.bindingAt i x := by
  unfold pop bindingAt
  rw [if_neg (by unfold global; omega), List.getElem?_take_of_lt hi]

/-- What hides a name is told by the outline. -/
theorem Hides.congr (h : Hides j x scope env)
    (heq : env'.outline = env.outline) :
    Hides j x scope env' := by
  obtain ⟨owner, howner, hj⟩ := h.owner
  exact ⟨h.grounded.congr heq, h.within, owner,
    (resolve_congr heq scope x).trans howner, hj⟩

/-- A name that is hidden is hidden in the scopes below, too. -/
theorem Hides.push (h : Hides j x scope env) (hscope : scope < env.depth) :
    Hides j x env.depth (env.push scope) := by
  obtain ⟨owner, howner, hj⟩ := h.owner
  have hwithin := h.within
  exact ⟨h.grounded.push hscope, by omega, owner,
    (resolve_push h.grounded hscope x).trans howner, hj⟩

/-- A further declaration in the scope does not uncover what is hidden. -/
theorem Hides.define (h : Hides j x scope env) (hscope : scope < env.depth)
    (y : String) (b : Binding) : Hides j x scope (env.define scope y b) := by
  have hgrounded := (Differs.define env scope y b).grounded h.grounded
  have hdepth : (env.define scope y b).depth = env.depth :=
    List.length_modify ..
  by_cases hxy : x = y
  · subst hxy
    have hat : (env.define scope x b).bindingAt scope x = some b := by
      rw [bindingAt_define hscope, if_pos ⟨rfl, rfl⟩]
    exact ⟨hgrounded, h.within, scope,
      resolve_of_bindingAt (hdepth ▸ hscope) hat, h.within⟩
  · obtain ⟨owner, howner, hj⟩ := h.owner
    refine ⟨hgrounded, h.within, owner, ?_, hj⟩
    unfold resolve at howner ⊢
    rw [hdepth, resolveWithin_define hxy]
    exact howner

/-- An assignment does not reach a variable that is hidden. -/
theorem Hides.sameBefore_assign {v : Value} (h : Hides j x scope env)
    (hassign : env.assign? scope y v = some env') :
    SameBefore j x env env' := by
  obtain ⟨owner, howner, hat⟩ := bindingAt_assign? hassign
  intro i hi
  rw [hat]
  refine if_neg fun ⟨hio, hxy⟩ => ?_
  -- The variable that was assigned is the one that hides the others.
  obtain ⟨owner', howner', hj⟩ := h.owner
  rw [hxy, howner] at howner'
  obtain rfl := Option.some.inj howner'
  omega

/-- Nor does a declaration. -/
theorem Hides.sameBefore_define (h : Hides j x scope env)
    (hscope : scope < env.depth) (y : String) (b : Binding) :
    SameBefore j x env (env.define scope y b) := by
  intro i hi
  have hwithin := h.within
  rw [bindingAt_define hscope]
  exact if_neg fun ⟨hij, _⟩ => by omega

-- ==================================================== a closed relation

/-- What a run leaves of hidden variables, and of the scopes. -/
def Spares (j : Nat) (x : String) (scope : Nat) (env env' : Environment) :
    Prop :=
  scope < env.depth →
    Differs scope env env'
      ∧ (Hides j x scope env → SameBefore j x env env' ∧ Hides j x scope env')

/-- Sparing a hidden variable goes on along every run. -/
theorem spares_closed (j : Nat) (x : String) : Closed (Spares j x) where
  refl scope env _ := ⟨.refl scope env, fun h => ⟨fun _ _ => rfl, h⟩⟩
  trans h₁ h₂ hscope := by
    obtain ⟨hd₁, hs₁⟩ := h₁ hscope
    obtain ⟨hd₂, hs₂⟩ := h₂ (hd₁.depth ▸ hscope)
    refine ⟨hd₁.trans hd₂, fun h => ?_⟩
    obtain ⟨hsame₁, hhides₁⟩ := hs₁ h
    obtain ⟨hsame₂, hhides₂⟩ := hs₂ hhides₁
    exact ⟨fun i hi => (hsame₂ i hi).trans (hsame₁ i hi), hhides₂⟩
  assign hassign _ := by
    have houtline := outline_assign? hassign
    exact ⟨.of_eq houtline,
      fun h => ⟨h.sameBefore_assign hassign, h.congr houtline⟩⟩
  define scope env y b hscope :=
    ⟨.define env scope y b,
      fun h => ⟨h.sameBefore_define hscope y b, h.define hscope y b⟩⟩
  nest {scope env env'} hinner hscope := by
    obtain ⟨hd, hs⟩ := hinner (env.depth_lt_push scope)
    have houtline := hd.pop_push (Nat.zero_lt_of_lt hscope)
    refine ⟨.of_eq houtline, fun h => ⟨fun i hi => ?_, h.congr houtline⟩⟩
    obtain ⟨hsame, -⟩ := hs (h.push hscope)
    have hwithin := h.within
    rw [bindingAt_pop (by omega), hsame i hi, bindingAt_push]

end Environment

open Environment

namespace Stmt

variable {σ : Type} (con : Console (StateM σ)) (limit : Nat)

/-- Statements that run in a scope which binds `x` leave all variables of
that name in the scopes before it as they are. -/
theorem execAll_hidden (ss : List Stmt) {scope : Nat} {env : Environment}
    {x : String} {b : Binding} (w : σ) (henv : env.Grounded)
    (hscope : scope < env.depth) (hb : env.bindingAt scope x = some b) :
    SameBefore scope x env (execAll con limit ss scope env w).1.1 := by
  have hhides : Hides scope x scope env :=
    ⟨henv, Nat.le_refl _, scope, resolve_of_bindingAt hscope hb, Nat.le_refl _⟩
  exact ((execAll_closed con limit (spares_closed scope x) ss scope env w
    hscope).2 hhides).1

end Stmt

end BisayaPlus
