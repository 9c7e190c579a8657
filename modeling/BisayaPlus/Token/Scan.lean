/-
The tokens of a source text.

A text is cut into slices from left to right (`slices`), each placed at
the span where it starts. If no slice is malformed the tokens are those
of the token slices, in order, and an end token; otherwise the answer is
one error for each malformed slice, in order.
-/
import BisayaPlus.Token.Basic
import BisayaPlus.Token.Slice

namespace BisayaPlus.Token

/-- A slice with its characters and the place where it starts. -/
structure Placed where
  span : Span
  text : List Char
  piece : Piece
deriving DecidableEq

namespace Placed

/-- The place behind a slice. Line feeds start a new line, but one inside
quotes for a character does not: it counts as one column like any other
character. -/
def stop (p : Placed) : Span :=
  if p.text.head? = some '\'' then p.span.right p.text.length
    else p.span.past p.text

/-- The token of a token slice. -/
def token? (p : Placed) : Option Token :=
  match p.piece with
  | .token kind literal => some ⟨kind, String.ofList p.text, literal, p.span⟩
  | _ => none

/-- The error of a malformed slice. -/
def error? (p : Placed) : Option Error :=
  match p.piece with
  | .malformed fault => some ⟨fault, p.span⟩
  | _ => none

/-- The first slice of the text `c :: cs`, placed. -/
def first (span : Span) (c : Char) (cs : List Char) : Placed :=
  let s := Slice.next c cs
  ⟨span, c :: cs.take s.extra, s.piece⟩

end Placed

/-- The slices of a text that starts at `span`, and the place behind the
last one. -/
def slices (span : Span) : List Char → List Placed × Span
  | [] => ([], span)
  | c :: cs =>
      let p := Placed.first span c cs
      let (ps, stop) := slices p.stop (cs.drop (Slice.next c cs).extra)
      (p :: ps, stop)
termination_by cs => cs.length
decreasing_by simp only [List.length_drop, List.length_cons]; omega

/-- The tokens of a source text, or all its lexical errors. -/
def scan (source : String) : Except (List Error) (List Token) :=
  let (ps, stop) := slices Span.start source.toList
  let errors := ps.filterMap Placed.error?
  if errors.isEmpty then .ok (ps.filterMap Placed.token? ++ [endOfText stop])
  else .error errors

end BisayaPlus.Token
