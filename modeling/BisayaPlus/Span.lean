/-
Places in a source text. Every token carries the span at which it starts,
and every diagnostic the span of the token it complains about.
-/
namespace BisayaPlus

/-- A line, counted from one, and a column, counted from zero in
characters. Line zero is no line of any text. -/
structure Span where
  line : Nat
  column : Nat
deriving DecidableEq, Repr, Inhabited

namespace Span

/-- The place where a text starts. -/
def start : Span := ⟨1, 0⟩

/-- The place `n` characters further on the same line. -/
def right (p : Span) (n : Nat) : Span := { p with column := p.column + n }

/-- The place after one character: a line feed starts the next line. -/
def step (p : Span) (c : Char) : Span :=
  if c = '\n' then ⟨p.line + 1, 0⟩ else p.right 1

/-- The place after a text, line feeds counted. -/
def past (p : Span) (cs : List Char) : Span := cs.foldl step p

end Span

end BisayaPlus
