/-
Evaluating expressions. Evaluation goes from left to right and changes
variables on the way; what was changed before a fault stays changed. A
name that means nothing is a fault at the name.
-/
import BisayaPlus.Environment
import BisayaPlus.Run.Operator
import BisayaPlus.Tree.Basic

namespace BisayaPlus

open Run

namespace Environment

/-- The binding that a name means in `scope`. -/
def binding (env : Environment) (scope : Nat) (name : Token) :
    Except Error Binding :=
  match env.lookup scope name.lexeme with
  | some b => .ok b
  | none => .error ⟨.undefined name.lexeme, name.span⟩

/-- The type of the variable that a name means in `scope`. -/
def typeOf (env : Environment) (scope : Nat) (name : Token) :
    Except Error VarType :=
  match env.lookup scope name.lexeme with
  | some b => .ok b.type
  | none => .error ⟨.undefinedType name.lexeme, name.span⟩

/-- The environment after the variable that a name means in `scope` was
given a value. -/
def assign (env : Environment) (scope : Nat) (name : Token) (v : Value) :
    Except Error Environment :=
  match env.assign? scope name.lexeme v with
  | some env => .ok env
  | none => .error ⟨.undefined name.lexeme, name.span⟩

end Environment

/-- A computation on the variables that may fault. -/
abbrev Run.Step := EStateM Error Environment

/-- A result that does not touch the variables. -/
def Run.settle {α : Type} : Except Error α → Step α
  | .ok a => pure a
  | .error e => throw e

/-- Gives the variable that a name means a value. -/
def Run.store (scope : Nat) (name : Token) (v : Value) : Step Unit := do
  set (← settle ((← get).assign scope name v))

/-- Adds to the number that a variable holds, and gives the sum. -/
def Run.count (scope : Nat) (name : Token) (delta : Float) : Step Value := do
  let b ← settle ((← get).binding scope name)
  match b.value with
  | .number x =>
      let sum := Value.number (x + delta)
      store scope name sum
      pure sum
  | _ => throw ⟨.notCountable, name.span⟩

/-- The value of an expression in a scope. -/
def Expr.eval (scope : Nat) : Expr → Step Value
  | literal v => pure v
  | grouping e => e.eval scope
  | var name => do
      let b ← settle ((← get).binding scope name)
      pure b.value
  | unary op e => do
      let v ← e.eval scope
      settle (applyUnary op v)
  | binary left op right => do
      let l ← left.eval scope
      let r ← right.eval scope
      settle (applyBinary op l r)
  | logical left op right => do
      let l ← left.eval scope
      if settles op l then pure l else right.eval scope
  | assign name value => do
      let v ← value.eval scope
      let b ← settle ((← get).binding scope name)
      if b.type.accepts v then
        store scope name v
        pure v
      else throw ⟨.assignment name.lexeme b.type v, name.span⟩
  | increment name => count scope name 1.0
  | decrement name => count scope name (-1.0)

end BisayaPlus
