/-
What the operations on an environment do to the bindings of its scopes.

A binding is reached by the place of its scope and its name
(`Environment.bindingAt`), and look-up is a walk to such a place
(`Environment.resolve`). The lemmas here say, for each of the four
operations that change an environment, which bindings it changes; the
proofs about running programs use them and never open a list of scopes.
-/
import BisayaPlus.Environment

namespace BisayaPlus.Environment

variable {env env' : Environment} {scope owner i : Nat} {x y : String}
  {b : Binding} {v : Value}

-- ========================================== how many scopes there are

theorem depth_push (env : Environment) (parent : Nat) :
    (env.push parent).depth = env.depth + 1 :=
  List.length_append

/-- The place of a new scope is one that is there. -/
theorem depth_lt_push (env : Environment) (parent : Nat) :
    env.depth < (env.push parent).depth := by
  rw [depth_push]
  exact Nat.lt_succ_self _

theorem depth_pop (h : scope ≠ global) :
    (env.pop scope).depth = min scope env.depth := by
  unfold pop depth
  rw [if_neg h, List.length_take]

-- ============================================== the bindings of one scope

/-- A new scope has no variables, so opening one changes no binding. -/
@[simp] theorem bindingAt_push (env : Environment) (parent i : Nat)
    (x : String) :
    (env.push parent).bindingAt i x = env.bindingAt i x := by
  unfold bindingAt push
  rcases Nat.lt_trichotomy i env.scopes.length with hi | hi | hi
  · rw [List.getElem?_append_left hi]
  · subst hi
    rw [List.getElem?_concat_length, List.getElem?_eq_none (Nat.le_refl _)]
    rfl
  · rw [List.getElem?_eq_none (by simp; omega),
      List.getElem?_eq_none (by omega)]

/-- Dropping scopes only forgets bindings. -/
theorem bindingAt_of_pop (h : (env.pop scope).bindingAt i x = some b) :
    env.bindingAt i x = some b := by
  unfold pop at h
  split at h
  · exact h
  · unfold bindingAt at h ⊢
    rw [List.getElem?_take] at h
    split at h
    · exact h
    · cases h

/-- A declaration binds one name of one scope. -/
theorem bindingAt_define (h : scope < env.depth) :
    (env.define scope x b).bindingAt i y
      = if i = scope ∧ y = x then some b else env.bindingAt i y := by
  unfold bindingAt define
  rw [List.getElem?_modify]
  by_cases hi : scope = i
  · subst hi
    rw [List.getElem?_eq_getElem h]
    simp [Scope.find?_insert]
  · simp [hi, Ne.symm hi]

/-- In a scope that does not exist nothing is declared. -/
theorem define_of_le (h : env.depth ≤ scope) : env.define scope x b = env := by
  unfold define
  rw [List.modify_eq_self h]

-- =========================================================== look-up

/-- What a name means is the binding of the scope the walk comes to. -/
theorem lookup_eq_some_iff :
    env.lookup scope x = some b
      ↔ ∃ owner, env.resolve scope x = some owner ∧ env.bindingAt owner x
        = some b := by
  unfold lookup
  exact Option.bind_eq_some_iff

/-- The walk only stops at a scope that binds the name. -/
theorem bindingAt_of_resolveWithin {steps : Nat}
    (h : env.resolveWithin x steps scope = some owner) :
    ∃ b, env.bindingAt owner x = some b := by
  induction steps generalizing scope with
  | zero => cases h
  | succ steps ih =>
      unfold resolveWithin at h
      split at h
      · cases h
      · next s hs =>
        split at h
        · next b hb =>
          injection h with h
          subst h
          exact ⟨b, by unfold bindingAt; rw [hs]; exact hb⟩
        · split at h
          · cases h
          · exact ih h

/-- A name that the walk finds means a binding. -/
theorem lookup_of_resolve (h : env.resolve scope x = some owner) :
    ∃ b, env.bindingAt owner x = some b ∧ env.lookup scope x = some b := by
  obtain ⟨b, hb⟩ := bindingAt_of_resolveWithin h
  exact ⟨b, hb, lookup_eq_some_iff.2 ⟨owner, h, hb⟩⟩

-- ======================================================== assignment

/-- Assignment succeeds exactly for the names that mean something. -/
theorem assign?_isSome (v : Value) :
    (env.assign? scope x v).isSome = (env.lookup scope x).isSome := by
  unfold assign?
  cases h : env.resolve scope x with
  | none =>
      unfold lookup
      rw [h]
      rfl
  | some owner =>
      obtain ⟨b, -, hb⟩ := lookup_of_resolve h
      rw [hb]
      rfl

/-- Assignment changes one binding, and of that only the value. -/
theorem bindingAt_assign? (h : env.assign? scope x v = some env') :
    ∃ owner, env.resolve scope x = some owner ∧ ∀ i y, env'.bindingAt i y
      = if i = owner ∧ y = x then (env.bindingAt i y).map fun b =>
        { b with value := v }
        else env.bindingAt i y := by
  unfold assign? at h
  obtain ⟨owner, howner, rfl⟩ := Option.map_eq_some_iff.1 h
  refine ⟨owner, howner, fun i y => ?_⟩
  unfold bindingAt
  rw [List.getElem?_modify]
  by_cases hi : owner = i
  · subst hi
    cases env.scopes[owner]? with
    | none => simp
    | some s =>
        by_cases hy : y = x
        · simp [Scope.find?_update, hy]
        · simp [Scope.find?_update, hy]
  · simp [hi, Ne.symm hi]

end BisayaPlus.Environment
