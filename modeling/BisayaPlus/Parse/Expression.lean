/-
Reading expressions.

    expression = disjunction ["=" expression]
    tier       = tighter {operator tighter}
    unary      = ("-" | DILI before "(") unary | primary
    primary    = literal | "$" | "(" expression ")" | name ["+" "+"]

The six tiers of binary operators fold to the left; an assignment nests
to the right. The target of an assignment is judged after it was read: a
wrong one is an error, but reading goes on with its left side.
-/
import BisayaPlus.Parse.Reply
import BisayaPlus.Tree.Basic

namespace BisayaPlus.Parse

-- =============================================================== tiers

/-- The tiers of binary operators, from the loosest to the tightest. -/
inductive Tier where
  | disjunction
  | conjunction
  | equality
  | comparison
  | sum
  | product
deriving DecidableEq, Repr

namespace Tier

/-- The kinds of operator of a tier. -/
def operators : Tier → List Token.Kind
  | disjunction => [.o]
  | conjunction => [.ug]
  | equality => [.equalEqual, .notEqual]
  | comparison => [.greater, .greaterEqual, .less, .lessEqual]
  | sum => [.plus, .minus, .ampersand, .dollar]
  | product => [.star, .slash, .percent]

/-- The next tighter tier. -/
def tighter : Tier → Option Tier
  | disjunction => some conjunction
  | conjunction => some equality
  | equality => some comparison
  | comparison => some sum
  | sum => some product
  | product => none

/-- How loose a tier is; unary phrases come right below the tightest. -/
def looseness : Tier → Nat
  | disjunction => 7
  | conjunction => 6
  | equality => 5
  | comparison => 4
  | sum => 3
  | product => 2

theorem looseness_tighter {k j : Tier} (h : k.tighter = some j) :
    j.looseness < k.looseness := by
  cases k <;> simp_all [tighter, looseness] <;> subst h <;> simp

theorem looseness_le (k : Tier) : k.looseness ≤ 7 := by
  cases k <;> simp [looseness]

theorem one_lt_looseness (k : Tier) : 1 < k.looseness := by
  cases k <;> simp [looseness]

/-- The tree of two operands joined by an operator of the tier. -/
def join : Tier → Expr → Token → Expr → Expr
  | disjunction, l, op, r => .logical l op r
  | conjunction, l, op, r => .logical l op r
  | _, l, op, r => .binary l op r

end Tier

-- ============================================================ grammar

/-- The token opens a unary phrase: a minus, or `DILI` with a parenthesis
behind it. -/
def opensUnary (t : Token) (us : List Token) : Bool :=
  t.kind = .minus || (t.kind = .dili && startsWith .leftParen us)

/-- The value of a literal token; one without value counts as null. -/
def literalOf (t : Token) : Expr := .literal (t.literal.getD .null)

/-- A name, and whether two plus signs follow it. -/
def readName (t : Token) (us : List Token) : Reply Expr (t :: us) :=
  match us with
  | p :: q :: vs =>
      if p.kind = .plus ∧ q.kind = .plus then
        .parsed (.increment t) vs [] (Behind.cons t _).tail.tail
      else .parsed (.var t) (p :: q :: vs) [] (Behind.cons t _)
  | us => .parsed (.var t) us [] (Behind.cons t us)

mutual

/-- Reads an expression. -/
def expression (stop : Token) (ts : List Token) : Reply Expr ts :=
  (tier stop .disjunction ts).bind (List.suffix_refl ts) fun left us _ hu =>
    match us, hu with
    | t :: vs, hu =>
        if t.kind = .assign then
          (expression stop vs).bind hu.tail.suffix fun value ws _ hw =>
            match left with
            | .var name => .parsed (.assign name value) ws [] hw
            | left => .parsed left ws [⟨.assignmentTarget, t⟩] hw
        else .parsed left (t :: vs) [] hu
    | [], hu => .parsed left [] [] hu
termination_by 32 * ts.length + 16
decreasing_by
  · simp only [Tier.looseness]; omega
  · have := hu.tail.length_lt; omega

/-- Reads a chain of operands of a tier. -/
def tier (stop : Token) (k : Tier) (ts : List Token) : Reply Expr ts :=
  (operand stop k ts).bind (List.suffix_refl ts) fun left us _ hu =>
    chain stop k left us hu
termination_by 32 * ts.length + 2 * k.looseness + 1
decreasing_by
  · omega
  · have := hu.length_lt; omega

/-- Reads an operand of a tier. -/
def operand (stop : Token) (k : Tier) (ts : List Token) : Reply Expr ts :=
  match _h : k.tighter with
  | some j => tier stop j ts
  | none => unary stop ts
termination_by 32 * ts.length + 2 * k.looseness
decreasing_by
  · have := Tier.looseness_tighter _h; omega
  · have := k.one_lt_looseness; omega

/-- Goes on with a chain whose operands so far make up `left`. -/
def chain (stop : Token) (k : Tier) (left : Expr) {ts : List Token}
    (us : List Token) (hu : Behind us ts) : Reply Expr ts :=
  match us, hu with
  | t :: vs, hu =>
      if t.kind ∈ k.operators then
        (operand stop k vs).bind hu.tail.suffix fun right ws _hv hw =>
          chain stop k (k.join left t right) ws hw
      else .parsed left (t :: vs) [] hu
  | [], hu => .parsed left [] [] hu
termination_by 32 * us.length
decreasing_by
  · have := k.looseness_le; simp only [List.length_cons]; omega
  · have := _hv.length_lt; simp only [List.length_cons]; omega

/-- Reads a unary phrase. -/
def unary (stop : Token) (ts : List Token) : Reply Expr ts :=
  match ts with
  | t :: us =>
      if opensUnary t us then
        (unary stop us).bind (List.suffix_cons t us) fun e vs _ hv =>
          .parsed (.unary t e) vs [] hv
      else primary stop (t :: us)
  | [] => primary stop []
termination_by 32 * ts.length + 1

/-- Reads a primary phrase. -/
def primary (stop : Token) (ts : List Token) : Reply Expr ts :=
  match ts with
  | t :: us =>
      match t.kind with
      | .oo => .parsed (.literal (.truth true)) us [] (Behind.cons t us)
      | .dili => .parsed (.literal (.truth false)) us [] (Behind.cons t us)
      | .number | .string | .character | .escapeCode =>
          .parsed (literalOf t) us [] (Behind.cons t us)
      | .dollar => .parsed (.literal (.char '\n')) us [] (Behind.cons t us)
      | .leftParen =>
          (expression stop us).bind (List.suffix_cons t us) fun e vs _ hv =>
            (expect stop .rightParen .groupingEnd vs).bind hv.suffix
              fun _ ws _ hw =>
              .parsed (.grouping e) ws [] hw
      | .identifier => readName t us
      | _ => refuse stop .expression (t :: us)
  | [] => refuse stop .expression []
termination_by 32 * ts.length

end

end BisayaPlus.Parse
