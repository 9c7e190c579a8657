/-
Recovery: where reading goes on after a statement was given up, so that
the faults of several statements are found in one go.
-/
import BisayaPlus.Parse.Reply

namespace BisayaPlus.Parse

/-- The kinds of token before which reading goes on. -/
def isBoundary : Token.Kind → Bool
  | .mugna | .sugod | .katapusan | .ipakita | .dawat | .pundok
  | .kung | .kungDili | .kungWala | .alangSa => true
  | _ => false

/-- Skips to the first boundary behind the token `last`: the place right
behind a `$`, or right before a token that opens a statement. -/
def skipFrom (last : Token) : List Token → List Token
  | [] => []
  | t :: ts =>
      if last.kind = .dollar || isBoundary t.kind then t :: ts
        else skipFrom t ts

/-- Skips the token that did not fit, and what follows it up to the next
boundary. `KATAPUSAN` is not skipped: it closes the program. -/
def recover : List Token → List Token
  | [] => []
  | t :: ts => if t.kind = .katapusan then t :: ts else skipFrom t ts

theorem skipFrom_suffix (last : Token) (ts : List Token) :
    skipFrom last ts <:+ ts := by
  induction ts generalizing last with
  | nil => exact List.suffix_refl []
  | cons t ts ih =>
      rw [skipFrom]
      split
      · exact List.suffix_refl _
      · exact (ih t).trans (List.suffix_cons t ts)

theorem recover_suffix (ts : List Token) : recover ts <:+ ts := by
  cases ts with
  | nil => exact List.suffix_refl []
  | cons t ts =>
      rw [recover]
      split
      · exact List.suffix_refl _
      · exact (skipFrom_suffix t ts).trans (List.suffix_cons t ts)

/-- Recovery inside a statement leaves the statement's first token behind:
the statement does not start with `KATAPUSAN`. -/
theorem recover_behind {t : Token} {us rest : List Token}
    (ht : t.kind ≠ .katapusan) (h : rest <:+ t :: us) :
    Behind (recover rest) (t :: us) := by
  rcases List.suffix_cons_iff.1 h with rfl | h
  · rw [recover, if_neg ht]
    exact Behind.after (skipFrom_suffix t us) (Behind.cons t us)
  · exact Behind.after ((recover_suffix rest).trans h) (Behind.cons t us)

end BisayaPlus.Parse
