/-
What the operators compute. An operator faults at its own token.
-/
import BisayaPlus.Number.Dyadic
import BisayaPlus.Run.Fault
import BisayaPlus.Token.Basic

namespace BisayaPlus.Run

-- ============================================================ operands

/-- The number an operator is applied to. -/
def numberOperand (op : Token) (v : Value) : Except Error Float :=
  match v with
  | .number x => .ok x
  | v => .error ⟨.operand v, op.span⟩

/-- The two numbers an operator is applied to. -/
def numberOperands (op : Token) (l r : Value) : Except Error (Float × Float) :=
  match l, r with
  | .number x, .number y => .ok (x, y)
  | l, r => .error ⟨.operands op.lexeme l r, op.span⟩

/-- Computes a number from two numbers. -/
def arithmetic (op : Token) (l r : Value) (f : Float → Float → Float) :
    Except Error Value :=
  (numberOperands op l r).map fun (x, y) => .number (f x y)

/-- Compares two numbers. -/
def comparison (op : Token) (l r : Value) (f : Float → Float → Bool) :
    Except Error Value :=
  (numberOperands op l r).map fun (x, y) => .truth (f x y)

-- =========================================================== operators

/-- Applies a unary operator: a minus negates a number, and every other
operator negates a truth value. -/
def applyUnary (op : Token) (v : Value) : Except Error Value :=
  match op.kind with
  | .minus => (numberOperand op v).map fun x => .number (-x)
  | _ => .ok (.truth !v.isTruthy)

/-- Applies a binary operator. A plus between other values than two
numbers joins their texts as `&` does; `$` puts a line break between
them. -/
def applyBinary (op : Token) (l r : Value) : Except Error Value :=
  match op.kind with
  | .plus =>
      match l, r with
      | .number x, .number y => .ok (.number (x + y))
      | l, r => .ok (.text (l.display ++ r.display))
  | .minus => arithmetic op l r (· - ·)
  | .star => arithmetic op l r (· * ·)
  | .slash => arithmetic op l r (· / ·)
  | .percent => arithmetic op l r Number.remainder
  | .greater => comparison op l r fun x y => x > y
  | .greaterEqual => comparison op l r fun x y => x ≥ y
  | .less => comparison op l r fun x y => x < y
  | .lessEqual => comparison op l r fun x y => x ≤ y
  | .equalEqual => .ok (.truth (l.equal r))
  | .notEqual => .ok (.truth !l.equal r)
  | .ampersand => .ok (.text (l.display ++ r.display))
  | .dollar => .ok (.text (l.display ++ "\n" ++ r.display))
  | _ => .error ⟨.unknownOperator op.lexeme, op.span⟩

/-- The left side of a conjunction or disjunction settles its value: a
true one that of a disjunction, a false one that of a conjunction. -/
def settles (op : Token) (left : Value) : Bool :=
  match op.kind with
  | .o => left.isTruthy
  | _ => !left.isTruthy

end BisayaPlus.Run
