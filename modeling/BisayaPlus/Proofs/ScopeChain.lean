/-
Look-up is a search along a chain of maps.

Seen from one of its scopes an environment is a chain: the scope, its
parent, the parent's parent and so on, each with a map from names to
bindings (`bindingAt`). `Chain env i is` says that the chain from the
place `i` has its maps at the places `is`. The relation is inductive, so
that a chain comes to an end; where scopes were parents of each other
there would be no chain at all.

The operations may be used in any order and with any places, also with
places that are out of range or have been taken by another scope since.
Only a new scope needs a parent that is there. Its place is then behind
that of its parent, and dropping scopes takes the last places away, so
that the parent of every scope stands before it (`Reached.grounded`). That
is all that is needed for chains to exist (`Grounded.exists_chain`) and for
the walk of `resolve` to be a search along them (`Grounded.resolve_chain`).

What the operations do to look-up is then a matter of lists. Assigning
and declaring keep all chains and change one map; opening and dropping
scopes keep the maps and the chains of the scopes that stay.
-/
import BisayaPlus.Proofs.ScopeStack
import BisayaPlus.Proofs.Shadowing

namespace BisayaPlus.Environment

open Run

variable {env env' : Environment} {scope parent owner i j : Nat}
  {is js : List Nat} {x y : String}
  {b : Binding} {v : Value}

-- ============================================================== chains

/-- The places of the scopes from `i` on upward, `i` first. Where there is
no scope there is nothing to pass. -/
inductive Chain (env : Environment) : Nat → List Nat → Prop where
  | outside {i : Nat} : env.depth ≤ i → Chain env i []
  | root {i : Nat} : i < env.depth → env.parentAt i = none → Chain env i [i]
  | up {i parent : Nat} {is : List Nat} :
      env.parentAt i = some parent → Chain env parent is →
      Chain env i (i :: is)

theorem lt_of_parentAt (h : env.parentAt i = some parent) : i < env.depth := by
  obtain ⟨s, hs, -⟩ := Option.bind_eq_some_iff.1 h
  exact (List.getElem?_eq_some_iff.1 hs).1

namespace Chain

theorem unique (h : env.Chain i is) (h' : env.Chain i js) : js = is := by
  induction h generalizing js with
  | outside hi =>
      cases h' with
      | outside => rfl
      | root hi' => omega
      | up hparent =>
          have := lt_of_parentAt hparent
          omega
  | root hi hroot =>
      cases h' with
      | outside hi' => omega
      | root => rfl
      | up hparent =>
          rw [hroot] at hparent
          cases hparent
  | up hparent _ ih =>
      cases h' with
      | outside hi' =>
          have := lt_of_parentAt hparent
          omega
      | root _ hroot =>
          rw [hparent] at hroot
          cases hroot
      | up hparent' h' =>
          obtain rfl := Option.some.inj (hparent.symm.trans hparent')
          rw [ih h']

/-- All scopes of a chain are there. -/
theorem live (h : env.Chain i is) : ∀ j ∈ is, j < env.depth := by
  induction h with
  | outside => exact List.forall_mem_nil _
  | root hi => exact List.forall_mem_singleton.2 hi
  | up hparent _ ih =>
      exact List.forall_mem_cons.2 ⟨lt_of_parentAt hparent, ih⟩

/-- A chain only depends on the parents of its scopes. -/
theorem congr (h : env.Chain i is) (hdepth : env'.depth = env.depth)
    (hparent : ∀ j, env'.parentAt j = env.parentAt j) : env'.Chain i is := by
  induction h with
  | outside hi => exact .outside (hdepth ▸ hi)
  | root hi hroot => exact .root (hdepth ▸ hi) ((hparent _).trans hroot)
  | up hup _ ih => exact .up ((hparent _).trans hup) ih

theorem differs (h : env.Chain i is) (hd : Differs scope env env') :
    env'.Chain i is :=
  h.congr hd.depth hd.parentAt

end Chain

theorem grounded_iff :
    env.Grounded ↔ ∀ i parent, env.parentAt i = some parent → parent < i := by
  constructor
  · intro h i parent hparent
    rw [parentAt_outline] at hparent
    obtain ⟨o, ho, hparent⟩ := Option.bind_eq_some_iff.1 hparent
    exact h i o parent ho hparent
  · intro h i o parent ho hparent
    apply h
    rw [parentAt_outline, ho]
    exact hparent

/-- Where every parent stands before its child, every walk upward ends. -/
theorem Grounded.exists_chain (h : env.Grounded) (i : Nat) :
    ∃ is, env.Chain i is := by
  induction i using Nat.strongRecOn with
  | ind i ih =>
      rcases Nat.lt_or_ge i env.depth with hi | hi
      · cases hparent : env.parentAt i with
        | none => exact ⟨[i], .root hi hparent⟩
        | some parent =>
            obtain ⟨is, his⟩ := ih parent (grounded_iff.1 h i parent hparent)
            exact ⟨i :: is, .up hparent his⟩
      · exact ⟨[], .outside hi⟩

-- ============================================================= look-up

/-- One step of the walk: a scope that binds the name is its end, and from
any other one it goes on to the parent. -/
theorem resolveWithin_succ (env : Environment) (x : String) (steps i : Nat) :
    env.resolveWithin x (steps + 1) i = if (env.bindingAt i x).isSome
      then some i
      else (env.parentAt i).bind (env.resolveWithin x steps) := by
  rw [resolveWithin]
  unfold bindingAt parentAt
  cases env.scopes[i]? with
  | none => rfl
  | some s =>
      simp only [Option.bind_some]
      cases s.find? x with
      | some b => rfl
      | none => cases s.parent <;> rfl

/-- The walk finds the first scope of the chain that binds the name, and
takes no more steps than the chain has scopes. -/
theorem Chain.resolveWithin (his : env.Chain i is) (x : String) {steps : Nat}
    (hsteps : is.length ≤ steps) :
    env.resolveWithin x steps i = is.find? fun j =>
      (env.bindingAt j x).isSome := by
  induction his generalizing steps with
  | @outside i hi =>
      have hs : env.scopes[i]? = none := List.getElem?_eq_none hi
      cases steps with
      | zero => rfl
      | succ steps => simp [resolveWithin_succ, bindingAt, parentAt, hs]
  | @root i hi hroot =>
      cases steps with
      | zero => exact absurd hsteps (Nat.not_succ_le_zero _)
      | succ steps =>
          rw [resolveWithin_succ, hroot, List.find?_cons]
          cases (env.bindingAt i x).isSome <;> rfl
  | @up i parent is hparent _ ih =>
      cases steps with
      | zero => exact absurd hsteps (Nat.not_succ_le_zero _)
      | succ steps =>
          rw [resolveWithin_succ, hparent, List.find?_cons,
            ← ih (Nat.le_of_succ_le_succ hsteps)]
          cases (env.bindingAt i x).isSome <;> rfl

/-- A chain has no more scopes than there are places up to its first one. -/
theorem Chain.length_le (h : env.Grounded) (his : env.Chain i is) :
    is.length ≤ i + 1 := by
  induction his with
  | outside => exact Nat.zero_le _
  | root => exact Nat.le_add_left 1 _
  | up hparent _ ih =>
      have hlt := grounded_iff.1 h _ _ hparent
      rw [List.length_cons]
      omega

theorem Grounded.resolve_chain (h : env.Grounded) (his : env.Chain i is)
    (x : String) :
    env.resolve i x = is.find? fun j => (env.bindingAt j x).isSome := by
  refine his.resolveWithin x ?_
  rcases Nat.lt_or_ge i env.depth with hi | hi
  · exact Nat.le_trans (his.length_le h) hi
  · rw [(Chain.outside hi).unique his]
    exact Nat.zero_le _

/-- A name means what the first map of the chain says that knows it. -/
theorem Grounded.lookup_chain (h : env.Grounded) (his : env.Chain i is)
    (x : String) :
    env.lookup i x = is.findSome? (env.bindingAt · x) := by
  unfold lookup
  rw [h.resolve_chain his]
  clear his
  induction is with
  | nil => rfl
  | cons j is ih =>
      rw [List.find?_cons, List.findSome?_cons]
      cases hj : env.bindingAt j x with
      | none => simpa using ih
      | some b => simp [hj]

-- ========================================================== assignment

/-- Assignment changes look-ups that come to the variable assigned to, and
of what they find only the value. -/
theorem lookup_assign? (h : env.assign? scope x v = some env') :
    ∃ owner, env.resolve scope x = some owner ∧ ∀ i y, env'.lookup i y
      = if y = x ∧ env.resolve i y = some owner
        then (env.lookup i y).map fun b =>
          { b with value := v } else env.lookup i y := by
  obtain ⟨owner, howner, hat⟩ := bindingAt_assign? h
  refine ⟨owner, howner, fun i y => ?_⟩
  unfold lookup
  rw [resolve_congr (outline_assign? h)]
  cases hj : env.resolve i y with
  | none => simp
  | some j =>
      simp only [Option.bind_some, hat, Option.some.injEq]
      by_cases hyx : y = x <;> by_cases hjo : j = owner <;> simp [hyx, hjo]

-- ========================================================= declaration

/-- Along the chain a look-up of the name comes to the scope, and to no
other one before it that binds the name. -/
def Meets (env : Environment) (x : String) (scope : Nat)
    (is : List Nat) : Prop :=
  ∃ before behind, is = before ++ scope :: behind ∧ ∀ j ∈ before,
    env.bindingAt j x = none

theorem meets_cons : env.Meets x scope (i :: is)
    ↔ i = scope ∨ (env.bindingAt i x = none ∧ env.Meets x scope is) := by
  constructor
  · rintro ⟨before, behind, heq, hnone⟩
    cases before with
    | nil => exact .inl (List.cons.inj heq).1
    | cons j before =>
        obtain ⟨rfl, rfl⟩ := List.cons.inj heq
        obtain ⟨hj, hbefore⟩ := List.forall_mem_cons.1 hnone
        exact .inr ⟨hj, before, behind, rfl, hbefore⟩
  · rintro (rfl | ⟨hi, before, behind, rfl, hbefore⟩)
    · exact ⟨[], is, rfl, List.forall_mem_nil _⟩
    · exact ⟨i :: before, behind, rfl, List.forall_mem_cons.2 ⟨hi, hbefore⟩⟩

theorem not_meets_nil : ¬ env.Meets x scope [] := by
  rintro ⟨before, behind, heq, -⟩
  cases before <;> cases heq

/-- A search along maps of which one was given a binding for the name. -/
theorem findSome?_define (hscope : scope < env.depth) (is : List Nat) :
    (env.Meets x scope is →
      is.findSome? ((env.define scope x b).bindingAt · x) = some b)
      ∧ (¬ env.Meets x scope is →
        is.findSome? ((env.define scope x b).bindingAt · x)
        = is.findSome? (env.bindingAt · x)) := by
  induction is with
  | nil => exact ⟨fun h => absurd h not_meets_nil, fun _ => rfl⟩
  | cons i is ih =>
      rw [meets_cons, List.findSome?_cons, List.findSome?_cons,
        bindingAt_define hscope]
      by_cases hi : i = scope
      · simp [hi]
      · cases hb : env.bindingAt i x with
        | none => simpa [hi] using ih
        | some c => simp [hi]

/-- A declaration changes look-ups of its name that come to its scope
before they come to another binding of the name. -/
theorem Grounded.lookup_define (h : env.Grounded) (his : env.Chain i is)
    (scope : Nat) (x : String) (b : Binding) :
    (env.Meets x scope is → (env.define scope x b).lookup i x = some b)
      ∧ ∀ y, (y = x → ¬ env.Meets x scope is) →
        (env.define scope x b).lookup i y = env.lookup i y := by
  have hdiffers := Differs.define env scope x b
  have hlookup := (hdiffers.grounded h).lookup_chain (his.differs hdiffers)
  rcases Nat.lt_or_ge scope env.depth with hscope | hscope
  · obtain ⟨hmeets, hnot⟩ := findSome?_define (x := x) (b := b) hscope is
    refine ⟨fun hm => (hlookup x).trans (hmeets hm), fun y hy => ?_⟩
    by_cases hyx : y = x
    · subst hyx
      rw [hlookup, h.lookup_chain his]
      exact hnot (hy rfl)
    · exact lookup_define_of_ne hyx hscope i
  · -- A scope that is not there is on no chain.
    rw [define_of_le hscope]
    refine ⟨fun ⟨before, behind, heq, _⟩ => ?_, fun _ _ => rfl⟩
    have hlive := his.live scope (by simp [heq])
    omega

-- ==================================================== opening, dropping

/-- The scopes that stay keep their chains. -/
theorem Chain.pop (h : env.Grounded) (his : env.Chain i is)
    (hi : i < (env.pop scope).depth) :
    (env.pop scope).Chain i is := by
  by_cases hscope : scope = global
  · subst hscope
    exact his
  have hparent : ∀ j,
      j < scope → (env.pop scope).parentAt j = env.parentAt j := by
    intro j hj
    unfold parentAt Environment.pop
    rw [if_neg hscope, List.getElem?_take_of_lt hj]
  rw [depth_pop hscope] at hi
  induction his with
  | outside hi' => omega
  | root hi' hroot =>
      refine .root ?_ ((hparent _ (by omega)).trans hroot)
      rw [depth_pop hscope]
      omega
  | up hup _ ih =>
      have hlt := grounded_iff.1 h _ _ hup
      exact .up ((hparent _ (by omega)).trans hup) (ih (by omega))

/-- Dropping scopes does not change what names mean in those that stay. -/
theorem Grounded.lookup_pop (h : env.Grounded) (hi : i < (env.pop scope).depth)
    (x : String) :
    (env.pop scope).lookup i x = env.lookup i x := by
  obtain ⟨is, his⟩ := h.exists_chain i
  have hpop := his.pop h hi
  rw [h.lookup_chain his, (h.pop scope).lookup_chain hpop]
  have hbinding : ∀ j ∈ is, (env.pop scope).bindingAt j x
      = env.bindingAt j x := by
    intro j hj
    by_cases hscope : scope = global
    · rw [hscope]
      rfl
    · have hlive := hpop.live j hj
      rw [depth_pop hscope] at hlive
      exact bindingAt_pop (by omega) x
  clear his hpop
  induction is with
  | nil => rfl
  | cons j is ih =>
      obtain ⟨hj, his⟩ := List.forall_mem_cons.1 hbinding
      rw [List.findSome?_cons, List.findSome?_cons, hj, ih his]

/-- Opening a scope does not change what names mean in the others. -/
theorem Grounded.lookup_push_of_lt (h : env.Grounded) (hi : i < env.depth)
    (parent : Nat) (x : String) :
    (env.push parent).lookup i x = env.lookup i x := by
  have hresolve : (env.push parent).resolve i x = env.resolve i x := by
    unfold resolve
    rw [resolveWithin_push h parent x _ hi]
    refine h.resolveWithin_stable x ?_ hi
    rw [depth_push]
    exact Nat.lt_succ_of_lt hi
  unfold lookup
  rw [hresolve]
  simp only [bindingAt_push]

-- ================================================ reached environments

/-- The environments that the operations build, in any order and with any
places. A new scope needs a parent that is there; an assignment that
fails leaves the environment it was tried on. -/
inductive Reached : Environment → Prop where
  | empty : Reached empty
  | push {env : Environment} {parent : Nat} :
      Reached env → parent < env.depth → Reached (env.push parent)
  | pop {env : Environment} (scope : Nat) : Reached env → Reached
      (env.pop scope)
  | define {env : Environment} (scope : Nat) (x : String) (b : Binding) :
      Reached env → Reached (env.define scope x b)
  | assign {env env' : Environment} {scope : Nat} {x : String} {v : Value} :
      Reached env → env.assign? scope x v = some env' → Reached env'

namespace Reached

theorem grounded (h : env.Reached) : env.Grounded := by
  induction h with
  | empty => exact empty_grounded
  | push _ hparent ih => exact ih.push hparent
  | pop scope _ ih => exact ih.pop scope
  | define scope x b _ ih => exact (Differs.define _ scope x b).grounded ih
  | assign _ hassign ih => exact ih.congr (outline_assign? hassign)

/-- The first scope is never dropped. -/
theorem depth_pos (h : env.Reached) : global < env.depth := by
  induction h with
  | empty => exact Nat.zero_lt_one
  | push _ hparent _ =>
      rw [depth_push]
      exact Nat.succ_pos _
  | pop scope _ ih =>
      by_cases hscope : scope = global
      · subst hscope
        exact ih
      · rw [depth_pop hscope]
        exact Nat.lt_min.2 ⟨Nat.pos_of_ne_zero hscope, ih⟩
  | define scope x b _ ih => rwa [(Differs.define _ scope x b).depth]
  | assign _ hassign ih => rwa [depth_of_outline (outline_assign? hassign)]

end Reached

/-- Reading a name, its binding and its type along a chain. -/
theorem Grounded.read_chain (h : env.Grounded) (his : env.Chain i is)
    (name : Token) :
    match is.findSome? (env.bindingAt · name.lexeme) with
    | some b => env.binding i name = .ok b ∧ env.typeOf i name = .ok b.type
        ∧ (Expr.var name).eval i env = .ok b.value env
    | none => env.binding i name = .error ⟨.undefined name.lexeme, name.span⟩
        ∧ env.typeOf i name = .error ⟨.undefinedType name.lexeme, name.span⟩
        ∧ (Expr.var name).eval i env = .error ⟨.undefined name.lexeme,
          name.span⟩ env := by
  rw [← h.lookup_chain his, Expr.eval_var]
  unfold binding typeOf
  cases env.lookup i name.lexeme <;> exact ⟨rfl, rfl, rfl⟩

/-- What an assignment does to look-up, and that one which fails does
nothing. -/
theorem assign_lookup (env : Environment) (scope : Nat) (name : Token)
    (v : Value) :
    match env.assign scope name v with
    | .ok env' => store scope name v env = .ok () env'
        ∧ ∃ owner, env.resolve scope name.lexeme = some owner ∧ ∀ i y,
          env'.lookup i y
          = if y = name.lexeme ∧ env.resolve i y = some owner
            then (env.lookup i y).map fun b =>
              { b with value := v } else env.lookup i y
    | .error e => store scope name v env = .error e env
        ∧ e = ⟨.undefined name.lexeme, name.span⟩
          ∧ env.resolve scope name.lexeme = none := by
  rw [store_apply]
  unfold assign
  cases hassign : env.assign? scope name.lexeme v with
  | some env' => exact ⟨rfl, lookup_assign? hassign⟩
  | none =>
      unfold assign? at hassign
      exact ⟨rfl, rfl, Option.map_eq_none_iff.1 hassign⟩

-- ========================================================= the theorem

/-- An environment that the operations build is a chain of maps, seen from
any of its scopes. The first scope is there, and every parent stands
before its children, so that from every place there is exactly one chain,
and it ends. Looking a name up is a search along the chain, which takes no
more steps than the chain is long: the binding, the type and the value are
those of the first map that knows the name, and there is a fault exactly
if none does.

An assignment changes what is found by those look-ups that come to the
same variable, and there only the value; one that fails changes nothing.
A declaration changes what is found by those look-ups of its name that
come to its scope before another binding of the name. Scopes that are
opened or dropped change no look-up from the others, and in a new scope
names mean what they mean in its parent. -/
theorem reached_chain {env : Environment} (h : env.Reached) :
    global < env.depth
      ∧ (∀ i parent, env.parentAt i = some parent → parent < i)
      ∧ (∀ i, ∃ is, env.Chain i is ∧ (∀ js, env.Chain i js → js = is)
          ∧ ∀ name : Token,
              env.resolve i name.lexeme
                  = is.find? (fun j => (env.bindingAt j name.lexeme).isSome)
                ∧ (∀ steps, is.length ≤ steps →
                  env.resolveWithin name.lexeme steps i
                  = env.resolve i name.lexeme)
                ∧ match is.findSome? (env.bindingAt · name.lexeme) with
                  | some b =>
                      env.binding i name = .ok b
                        ∧ env.typeOf i name = .ok b.type
                      ∧ (Expr.var name).eval i env = .ok b.value env
                  | none =>
                      env.binding i name
                        = .error ⟨.undefined name.lexeme, name.span⟩
                      ∧ env.typeOf i name = .error ⟨.undefinedType name.lexeme,
                        name.span⟩
                      ∧ (Expr.var name).eval i env
                        = .error ⟨.undefined name.lexeme, name.span⟩ env)
      ∧ (∀ scope (name : Token) v, match env.assign scope name v with
          | .ok env' => store scope name v env = .ok () env'
              ∧ ∃ owner, env.resolve scope name.lexeme = some owner ∧ ∀ i y,
              env'.lookup i y
                = if y = name.lexeme ∧ env.resolve i y = some owner
                  then (env.lookup i y).map fun b =>
                  { b with value := v } else env.lookup i y
          | .error e => store scope name v env = .error e env
              ∧ e = ⟨.undefined name.lexeme, name.span⟩
              ∧ env.resolve scope name.lexeme = none)
      ∧ (∀ scope x b i is, env.Chain i is →
          (env.Meets x scope is → (env.define scope x b).lookup i x = some b)
            ∧ ∀ y, (y = x → ¬ env.Meets x scope is) →
              (env.define scope x b).lookup i y = env.lookup i y)
      ∧ (∀ scope i x, i < (env.pop scope).depth →
          (env.pop scope).lookup i x = env.lookup i x)
      ∧ ∀ parent x, parent < env.depth →
          (env.push parent).lookup env.depth x = env.lookup parent x
            ∧ ∀ i, i < env.depth →
              (env.push parent).lookup i x = env.lookup i x := by
  have henv := h.grounded
  refine ⟨h.depth_pos, grounded_iff.1 henv, fun i => ?_, env.assign_lookup,
    ?_, ?_, ?_⟩
  · obtain ⟨is, his⟩ := henv.exists_chain i
    refine ⟨is, his, fun js => his.unique, fun name => ?_⟩
    have hresolve := henv.resolve_chain his name.lexeme
    exact ⟨hresolve,
      fun steps hsteps => (his.resolveWithin name.lexeme hsteps).trans
      hresolve.symm, henv.read_chain his name⟩
  · intro scope x b i is his
    exact henv.lookup_define his scope x b
  · intro scope i x hi
    exact henv.lookup_pop hi x
  · intro parent x hparent
    exact ⟨lookup_push henv hparent x,
      fun i hi => henv.lookup_push_of_lt hi parent x⟩

/-- Two scopes below the first one. The first one and the older of the two
bind `x`. -/
def siblings : Environment :=
  (((empty.define global "x" ⟨.truth false, .tinuod⟩).push global).define 1 "x"
    ⟨.char 'a', .letra⟩).push global

/-- An assignment in the younger of the two scopes is seen in the first
one and not in the older; dropping the older scope drops the younger one
with it, and the first one stays as it is. -/
theorem reached_chain_siblings :
    let x : Token := ⟨.identifier, "x", none, ⟨1, 0⟩⟩
    siblings.Reached ∧ siblings.Chain 2 [2, 0]
      ∧ (∃ env', siblings.assign 2 x (.truth true) = .ok env'
        ∧ env'.lookup 0 "x" = some ⟨.truth true, .tinuod⟩
        ∧ env'.lookup 1 "x" = some ⟨.char 'a', .letra⟩)
      ∧ (siblings.pop 1).depth = 1 ∧ (siblings.pop 1).lookup 0 "x"
        = siblings.lookup 0 "x" := by
  intro x
  have hreached : siblings.Reached :=
    ((Reached.empty.define global "x" _).push Nat.zero_lt_one |>.define 1 "x"
      _).push (by decide)
  obtain ⟨-, -, -, hassign, -, hpop, -⟩ := reached_chain hreached
  refine ⟨hreached, .up rfl (.root (by decide) rfl), ?_, rfl,
    hpop 1 0 "x" (by decide)⟩
  have hstep := hassign 2 x (.truth true)
  have hfound : siblings.resolve 2 "x" = some 0 := by decide
  cases hresult : siblings.assign 2 x (.truth true) with
  | error e =>
      rw [hresult] at hstep
      exact absurd (hfound.symm.trans hstep.2.2) (by simp)
  | ok env' =>
      rw [hresult] at hstep
      obtain ⟨-, owner, howner, hlookup⟩ := hstep
      obtain rfl := Option.some.inj (hfound.symm.trans howner)
      refine ⟨env', rfl, ?_, ?_⟩
      · rw [hlookup]
        rfl
      · rw [hlookup]
        rfl

end BisayaPlus.Environment
