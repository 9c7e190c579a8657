/-
A static discipline: what can be said of a program before it runs.

Expressions are given the type of the values they evaluate to, as far as
the types of their variables tell it (`Expr.ty?`), and statements are
checked in order against the declarations before them (`Stmt.check`). A
declaration is visible from where it stands to the end of its block, in
inner blocks too; a later one of the same name takes its place there.

The discipline is not part of the language: no run asks for it. That it
is enough to rule out faults of type and of reference is proved in
`Proofs/StaticSoundness.lean`.
-/
import BisayaPlus.Tree.Basic

namespace BisayaPlus

/-- The type of a value; the null value has none. -/
inductive Ty where
  | number
  | truth
  | char
  | text
deriving DecidableEq, Repr

/-- The type of a value. -/
def Value.ty? : Value → Option Ty
  | number _ => some .number
  | truth _ => some .truth
  | char _ => some .char
  | text _ => some .text
  | null => none

/-- The type of the values of a variable. -/
def VarType.ty : VarType → Ty
  | numero | tipik => .number
  | letra => .char
  | tinuod => .truth

/-- The declarations that are visible at some place, the last one first. -/
abbrev Context := List (String × VarType)

-- ========================================================= expressions

/-- The type of a unary operation. -/
def unaryTy? : Token.Kind → Ty → Option Ty
  | .minus, .number => some .number
  | .dili, _ => some .truth
  | _, _ => none

/-- The type of a binary operation. -/
def binaryTy? : Token.Kind → Ty → Ty → Option Ty
  | .plus, .number, .number => some .number
  | .plus, _, _ => some .text
  | .minus, .number, .number => some .number
  | .star, .number, .number => some .number
  | .slash, .number, .number => some .number
  | .percent, .number, .number => some .number
  | .greater, .number, .number => some .truth
  | .greaterEqual, .number, .number => some .truth
  | .less, .number, .number => some .truth
  | .lessEqual, .number, .number => some .truth
  | .equalEqual, _, _ => some .truth
  | .notEqual, _, _ => some .truth
  | .ampersand, _, _ => some .text
  | .dollar, _, _ => some .text
  | _, _, _ => none

/-- The type of a conjunction or disjunction: both sides must have it. -/
def logicalTy? (op : Token.Kind) (left right : Ty) : Option Ty :=
  if (op = .o ∨ op = .ug) ∧ left = right then some left else none

namespace Expr

/-- The type of an expression, if it has one. -/
def ty? (Γ : Context) : Expr → Option Ty
  | literal v => v.ty?
  | var name => (Γ.lookup name.lexeme).map VarType.ty
  | grouping e => e.ty? Γ
  | unary op e => (e.ty? Γ).bind (unaryTy? op.kind)
  | binary left op right =>
      (left.ty? Γ).bind fun l => (right.ty? Γ).bind fun r =>
        binaryTy? op.kind l r
  | logical left op right =>
      (left.ty? Γ).bind fun l => (right.ty? Γ).bind fun r =>
        logicalTy? op.kind l r
  | assign name value =>
      (Γ.lookup name.lexeme).bind fun type =>
        if value.ty? Γ = some type.ty then some type.ty else none
  | increment name =>
      (Γ.lookup name.lexeme).bind fun type =>
        if type.ty = .number then some .number else none
  | decrement name =>
      (Γ.lookup name.lexeme).bind fun type =>
        if type.ty = .number then some .number else none

end Expr

-- ========================================================== statements

namespace Declaration

/-- What is visible behind a declaration whose first value fits. -/
def check (Γ : Context) (d : Declaration) : Option Context :=
  match d.init with
  | none => some ((d.name.lexeme, d.type) :: Γ)
  | some e =>
      if e.ty? Γ = some d.type.ty then some ((d.name.lexeme, d.type) :: Γ)
        else none

theorem check_eq_some {Γ Γ' : Context} {d : Declaration}
    (h : d.check Γ = some Γ') :
    (∀ e, d.init = some e → e.ty? Γ = some d.type.ty)
      ∧ Γ' = (d.name.lexeme, d.type) :: Γ := by
  unfold check at h
  cases hinit : d.init with
  | none =>
      rw [hinit] at h
      refine ⟨fun e he => ?_, (Option.some.inj h).symm⟩
      cases he
  | some e =>
      rw [hinit] at h
      obtain ⟨hty, ⟨⟩⟩ := Option.ite_none_right_eq_some.1 h
      refine ⟨fun e' he' => ?_, rfl⟩
      obtain rfl := Option.some.inj he'
      exact hty

/-- What is visible behind declarations in a row. -/
def checkAll (Γ : Context) : List Declaration → Option Context
  | [] => some Γ
  | d :: ds => (d.check Γ).bind fun Γ => checkAll Γ ds

end Declaration

namespace Stmt

mutual

/-- What is visible behind a statement that keeps to the discipline. -/
def check (Γ : Context) : Stmt → Option Context
  | expression e => if (e.ty? Γ).isSome then some Γ else none
  | print _ e => if (e.ty? Γ).isSome then some Γ else none
  | declare d => d.check Γ
  | declareAll ds => Declaration.checkAll Γ ds
  | input names =>
      if names.all fun name => (Γ.lookup name.lexeme).isSome then some Γ
        else none
  | block body => if (checkAll Γ body).isSome then some Γ else none
  | ifThen condition body =>
      if (condition.ty? Γ).isSome ∧ (body.check Γ).isSome then some Γ else none
  | ifElse condition body other =>
      if (condition.ty? Γ).isSome ∧ (body.check Γ).isSome
        ∧ (other.check Γ).isSome
      then some Γ else none
  | loop condition body =>
      if (condition.ty? Γ).isSome ∧ (body.check Γ).isSome then some Γ else none
  | program body => checkAll Γ body

/-- What is visible behind statements in a row. -/
def checkAll (Γ : Context) : List Stmt → Option Context
  | [] => some Γ
  | s :: ss => (s.check Γ).bind fun Γ => checkAll Γ ss

end

/-- A program that keeps to the discipline by itself. -/
def Checked (s : Stmt) : Prop := (s.check []).isSome

instance (s : Stmt) : Decidable s.Checked :=
  inferInstanceAs (Decidable ((s.check []).isSome = true))

end Stmt

end BisayaPlus
