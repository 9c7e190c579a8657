/-
Reading a program: `SUGOD`, declarations and statements, `KATAPUSAN`, and
nothing behind it.
-/
import BisayaPlus.Parse.Statement
import BisayaPlus.Token.Scan

namespace BisayaPlus.Parse

/-- The tokens of a list before its first end token. -/
def body (tokens : List Token) : List Token := tokens.takeWhile (·.kind ≠ .eof)

/-- The token at which a fault at the end is noticed: the first end token,
or one at the place of the last token if the list has none. -/
def stop (tokens : List Token) : Token :=
  (tokens.find? (·.kind = .eof)).getD
    (.endOfText ((tokens.getLast?.map Token.span).getD ⟨0, 0⟩))

/-- What is wrong behind the items of a program: `KATAPUSAN` must follow
and end the tokens. -/
def closing (stop : Token) : List Token → List Error
  | [] => [⟨.programEnd, stop⟩]
  | t :: us =>
      if t.kind = .katapusan then (us.head?.map fun u =>
        ⟨.afterProgram, u⟩).toList
      else [⟨.programEnd, t⟩]

/-- Reads a program off a list of tokens, up to its first end token. A
program without `SUGOD` is not read any further. -/
def program (tokens : List Token) : Except (List Error) Stmt :=
  let stop := stop tokens
  match body tokens with
  | t :: us =>
      if t.kind = .sugod then
        let r := items stop false us
        let errors := r.errors ++ closing stop r.rest
        if errors.isEmpty then .ok (.program r.body) else .error errors
      else .error [⟨.programStart, t⟩]
  | [] => .error [⟨.programStart, stop⟩]

end BisayaPlus.Parse

namespace BisayaPlus

/-- Why a source text is no program. -/
inductive SourceError where
  | lexical (errors : List Token.Error)
  | syntactic (errors : List Parse.Error)
deriving DecidableEq

/-- The errors as they are shown. -/
def SourceError.diagnostics : SourceError → List Diagnostic
  | lexical es => es.map Token.Error.diagnostic
  | syntactic es => es.map Parse.Error.diagnostic

/-- The program that a source text spells. -/
def Stmt.ofSource (source : String) : Except SourceError Stmt :=
  match Token.scan source with
  | .error es => .error (.lexical es)
  | .ok tokens =>
      match Parse.program tokens with
      | .error es => .error (.syntactic es)
      | .ok p => .ok p

end BisayaPlus
