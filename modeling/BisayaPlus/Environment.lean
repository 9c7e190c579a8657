/-
Variables and their scopes.

Scopes form a tree: each but the first has a parent, and a name means the
binding of the nearest scope, from the scope of use upward, that has one.
A scope is known by its place in the order of creation. Dropping a scope
drops every scope made after it, and frees their places; the first scope
is never dropped.
-/
import BisayaPlus.Value.VarType

namespace BisayaPlus

/-- A variable: what it holds and what it may hold. -/
structure Binding where
  value : Value
  type : VarType
deriving DecidableEq, Inhabited

/-- The variables of one scope. -/
structure Scope where
  vars : List (String × Binding)
  parent : Option Nat
deriving DecidableEq, Inhabited

namespace Scope

/-- The variable of a name in this scope alone. -/
def find? (s : Scope) (x : String) : Option Binding := s.vars.lookup x

/-- The scope with a variable added, or put in the place of one of that
name. -/
def insert (s : Scope) (x : String) (b : Binding) : Scope :=
  { s with vars := (x, b) :: s.vars.filter (·.1 ≠ x) }

/-- The scope with another value for the variables of a name. -/
def update (s : Scope) (x : String) (v : Value) : Scope :=
  { s with
    vars := s.vars.map fun (y, b) =>
      (y, if y = x then { b with value := v } else b) }

theorem find?_insert (s : Scope) (x y : String) (b : Binding) :
    (s.insert x b).find? y = if y = x then some b else s.find? y := by
  by_cases h : y = x
  · simp [find?, insert, h]
  · simp only [find?, insert, h, if_false, List.lookup_cons,
      beq_eq_false_iff_ne.mpr h]
    induction s.vars with
    | nil => rfl
    | cons var vars ih =>
        obtain ⟨z, c⟩ := var
        by_cases hz : z = x
        · subst hz
          simpa [List.lookup_cons, beq_eq_false_iff_ne.mpr h] using ih
        · simp only [List.filter_cons, ne_eq, hz, not_false_eq_true,
            decide_true, if_true, List.lookup_cons]
          rw [ih]

theorem find?_update (s : Scope) (x y : String) (v : Value) :
    (s.update x v).find? y =
      (s.find? y).map fun b => if y = x then { b with value := v } else b := by
  simp only [find?, update]
  induction s.vars with
  | nil => rfl
  | cons var vars ih =>
      obtain ⟨z, c⟩ := var
      by_cases hz : y = z
      · subst hz
        simp
      · simpa [List.lookup_cons, beq_eq_false_iff_ne.mpr hz] using ih

end Scope

/-- All live scopes, in the order of creation. -/
structure Environment where
  scopes : List Scope
deriving DecidableEq

namespace Environment

/-- The place of the first scope. -/
def global : Nat := 0

/-- Only the first scope, with no variables. -/
def empty : Environment := ⟨[⟨[], none⟩]⟩

instance : Inhabited Environment := ⟨empty⟩

/-- The number of live scopes. -/
def depth (env : Environment) : Nat := env.scopes.length

-- ============================================================= scopes

/-- Adds an empty scope below `parent`; its place is the old depth. -/
def push (env : Environment) (parent : Nat) : Environment :=
  ⟨env.scopes ++ [⟨[], some parent⟩]⟩

/-- Drops a scope and all that were made after it. The first scope stays. -/
def pop (env : Environment) (scope : Nat) : Environment :=
  if scope = global then env else ⟨env.scopes.take scope⟩

-- ============================================================ look-up

/-- Walks up from a scope to the nearest one that binds the name. A walk
that comes to an end meets no scope twice, so that it takes at most as
many steps as there are scopes. -/
def resolveWithin (env : Environment) (x : String) : Nat → Nat → Option Nat
  | 0, _ => none
  | steps + 1, scope =>
      match env.scopes[scope]? with
      | none => none
      | some s =>
          match s.find? x with
          | some _ => some scope
          | none =>
              match s.parent with
              | none => none
              | some parent => resolveWithin env x steps parent

/-- The scope whose binding a name means in `scope`. -/
def resolve (env : Environment) (scope : Nat) (x : String) : Option Nat :=
  env.resolveWithin x env.depth scope

/-- The binding of a name in one scope. -/
def bindingAt (env : Environment) (scope : Nat) (x : String) :
    Option Binding :=
  env.scopes[scope]?.bind (·.find? x)

/-- The binding that a name means in `scope`. -/
def lookup (env : Environment) (scope : Nat) (x : String) : Option Binding :=
  (env.resolve scope x).bind fun owner => env.bindingAt owner x

-- ============================================================= update

/-- Binds a name in a scope. In a scope that does not exist nothing is
bound. -/
def define (env : Environment) (scope : Nat) (x : String) (b : Binding) :
    Environment :=
  ⟨env.scopes.modify scope (·.insert x b)⟩

/-- Gives the variable that a name means in `scope` a new value; its type
stays. There is no answer if the name means nothing. -/
def assign? (env : Environment) (scope : Nat) (x : String) (v : Value) :
    Option Environment :=
  (env.resolve scope x).map fun owner =>
    ⟨env.scopes.modify owner (·.update x v)⟩

end Environment

end BisayaPlus
