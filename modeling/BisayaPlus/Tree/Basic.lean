/-
Expressions and statements. A tree keeps the tokens it was read from
wherever a fault may have to point: at operators and at names. A counting
loop of the source has no form of its own: it is read as a block that
holds its first clause and a `loop` (`Parse/Statement.lean`).
-/
import BisayaPlus.Token.Basic
import BisayaPlus.Value.VarType

namespace BisayaPlus

/-- An expression. -/
inductive Expr where
  | literal (v : Value)
  | var (name : Token)
  /-- An expression in parentheses. -/
  | grouping (e : Expr)
  | unary (op : Token) (e : Expr)
  | binary (left : Expr) (op : Token) (right : Expr)
  /-- A conjunction or disjunction, whose right side may stay unevaluated. -/
  | logical (left : Expr) (op : Token) (right : Expr)
  | assign (name : Token) (value : Expr)
  | increment (name : Token)
  | decrement (name : Token)
deriving DecidableEq, Inhabited

/-- The declaration of one variable. -/
structure Declaration where
  name : Token
  init : Option Expr
  type : VarType
deriving DecidableEq, Inhabited

/-- A statement. -/
inductive Stmt where
  | expression (e : Expr)
  | print (keyword : Token) (value : Expr)
  /-- One variable, as the first clause of a loop declares it. -/
  | declare (d : Declaration)
  /-- The variables of one `MUGNA`. -/
  | declareAll (ds : List Declaration)
  /-- Reads one line for each name. -/
  | input (names : List Token)
  | block (body : List Stmt)
  | ifThen (condition : Expr) (body : Stmt)
  | ifElse (condition : Expr) (body other : Stmt)
  | loop (condition : Expr) (body : Stmt)
  | program (body : List Stmt)
deriving Inhabited

namespace Stmt

/-- The statement is a block. -/
def isBlock : Stmt → Bool
  | block _ => true
  | _ => false

end Stmt

end BisayaPlus
