/-
How many errors a program has.

An error has its price in tokens, and no token pays twice (`Goal.Paid`).
A phrase that was read has taken more tokens than it has errors: a wrong
assignment target is paid for by the sign, and a block by its opening
brace, whose items pay for themselves. A phrase that was given up owes one
token more than it has taken at the most, and only if it has taken none;
recovery then skips the token that did not fit. A block that is not closed
makes every block around it fail at the same place, but each of them has a
brace to pay with. What is wrong behind the items is paid for by `SUGOD`.

An item that was given up has an error (`Walk.errors_ne_nil`), so a program
without errors has all its items. The machine of `Parse/Cursor.lean` keeps
the errors apart from its answer, and both say the same.
-/
import BisayaPlus.Proofs.CursorRuns

namespace BisayaPlus.Parse

variable {stop : Token} {tokens : List Token}

-- ============================================================== prices

/-- A walk to this goal that has taken so many tokens may have so many
errors. -/
def Goal.Paid : Goal → (taken errors : Nat) → Prop
  | parsed, taken, errors => errors < taken ∨ taken = 0 ∧ errors = 0
  | failed, taken, errors => errors ≤ taken ∨ taken = 0 ∧ errors = 1
  | item, taken, errors => errors ≤ taken
  | items _, taken, errors => errors ≤ taken

namespace Walk

variable {goal : Goal} {ts rest : List Token} {errors : List Error}

/-- What a walk leaves is the end of the tokens. -/
theorem suffix (h : Walk stop goal ts rest errors) : rest <:+ ts := by
  obtain ⟨used, hts, -⟩ := h.spares
  exact ⟨used, hts.symm⟩

/-- Every walk pays for its errors. -/
theorem paid (h : Walk stop goal ts rest errors) :
    ∃ taken, ts.length = taken + rest.length
      ∧ goal.Paid taken errors.length := by
  induction h with
  | here | ended => exact ⟨0, (Nat.zero_add _).symm, by simp [Goal.Paid]⟩
  | take => exact ⟨1, Nat.add_comm _ 1, .inl Nat.zero_lt_one⟩
  | refuse => exact ⟨0, (Nat.zero_add _).symm, .inr ⟨rfl, rfl⟩⟩
  | andThen _ _ ih ih' | giveUp _ _ ih ih' | more _ _ ih ih' =>
      obtain ⟨taken, hts, hpaid⟩ := ih
      obtain ⟨taken', hus, hpaid'⟩ := ih'
      refine ⟨taken + taken', by omega, ?_⟩
      simp only [Goal.Paid, List.length_append] at hpaid hpaid' ⊢
      omega
  | target _ _ hvs ih =>
      obtain ⟨taken, hus, hpaid⟩ := ih
      have hmoved := hvs.length_lt
      refine ⟨taken + 1, by rw [List.length_cons]; omega, ?_⟩
      simp only [Goal.Paid, List.length_append,
        List.length_singleton] at hpaid ⊢
      omega
  | opened _ _ ih =>
      obtain ⟨taken, hus, hpaid⟩ := ih
      exact ⟨taken + 1, by rw [List.length_cons]; omega,
        .inl (Nat.lt_succ_of_le hpaid)⟩
  | read _ hus ih =>
      obtain ⟨taken, hts, hpaid⟩ := ih
      have hmoved := hus.length_lt
      refine ⟨taken, hts, ?_⟩
      simp only [Goal.Paid] at hpaid ⊢
      omega
  | @recovered t us vs e ht h ih =>
      obtain ⟨taken, hts, hpaid⟩ := ih
      -- Recovery never goes back, and gets behind the item's first token.
      have hskipped := (recover_suffix vs).length_le
      have hmoved := (recover_behind ht h.suffix).length_lt
      refine ⟨(t :: us).length - (recover vs).length, by omega, ?_⟩
      simp only [Goal.Paid] at hpaid ⊢
      omega

/-- Nothing is given up without an error. -/
theorem errors_ne_nil (h : Walk stop .failed ts rest errors) :
    errors ≠ [] := by
  generalize hgoal : Goal.failed = goal at h
  induction h with
  | refuse => exact List.cons_ne_nil _ _
  | giveUp _ _ _ ih' => exact List.append_ne_nil_of_right_ne_nil _ (ih' hgoal)
  | _ => cases hgoal

end Walk

-- =============================================================== items

/-- Each error of a list of items is paid for with a token that was taken.
-/
theorem items_errors_length (stop : Token) (inBlock : Bool) (ts : List Token) :
    (items stop inBlock ts).errors.length + (items stop inBlock ts).rest.length
      ≤ ts.length := by
  obtain ⟨taken, hts, hpaid⟩ := (items_walks stop inBlock ts).paid
  rw [hts]
  exact Nat.add_le_add_right hpaid _

/-- An item that was given up has an error. -/
theorem Item.ofReply_errors_ne_nil {t : Token} {us : List Token}
    {ht : t.kind ≠ .katapusan} {r : Reply Stmt (t :: us)}
    (hr : r.Walks stop (t :: us))
    (h : (Item.ofReply ht r).value = none) :
    (Item.ofReply ht r).errors ≠ [] := by
  cases r with
  | parsed s rest errors behind => cases h
  | failed rest errors suffix => exact Walk.errors_ne_nil hr

/-- An item that leaves no tree has an error. -/
theorem item_errors_ne_nil {t : Token} {us : List Token}
    (ht : t.kind ≠ .katapusan) (h : (item stop t us ht).value = none) :
    (item stop t us ht).errors ≠ [] := by
  by_cases hmugna : t.kind = .mugna
  · rw [item, if_pos hmugna] at h ⊢
    exact Item.ofReply_errors_ne_nil
      (opened_walks ht (declarations_walks stop us)) h
  · rw [item, if_neg hmugna] at h ⊢
    exact Item.ofReply_errors_ne_nil (statement_walks stop (t :: us)) h

-- ============================================================ programs

/-- Behind the items there is one error at most. -/
theorem closing_length_le (stop : Token) (ts : List Token) :
    (closing stop ts).length ≤ 1 := by
  rw [closing.eq_def]
  split
  next => exact Nat.le_refl 1
  next t us =>
    split
    next => cases us <;> simp
    next => exact Nat.le_refl 1

section

variable {errors : List Error} (h : program tokens = .error errors)

include h

/-- A program that is refused has an error. -/
theorem program_errors_ne_nil : errors ≠ [] := by
  unfold program at h
  dsimp only at h
  split at h
  next =>
    split at h
    next =>
      split at h
      next => cases h
      next hne =>
        cases h
        exact fun hnil => hne (List.isEmpty_iff.2 hnil)
    next =>
      cases h
      exact List.cons_ne_nil _ _
  next =>
    cases h
    exact List.cons_ne_nil _ _

/-- There is a token of the program for each error, unless the program has
no tokens. -/
theorem program_errors_length_le :
    errors.length ≤ max 1 (body tokens).length := by
  unfold program at h
  dsimp only at h
  split at h
  next t us hbody =>
    split at h
    next =>
      split at h
      next => cases h
      next =>
        cases h
        have hitems := items_errors_length (Parse.stop tokens) false us
        have hclosing := closing_length_le (Parse.stop tokens)
          (items (Parse.stop tokens) false us).rest
        rw [hbody, List.length_append, List.length_cons]
        omega
    next =>
      cases h
      exact Nat.le_max_left _ _
  next =>
    cases h
    exact Nat.le_max_left _ _

end

-- ========================================================= the machine

namespace Cursor

/-- A program is accepted without errors only. -/
theorem verdict_eq_ok {answer : Except Unit Stmt} {errors : List Error}
    {p : Stmt} (h : verdict answer errors = .ok p) :
    answer = .ok p ∧ errors = [] := by
  unfold verdict at h
  split at h
  next => exact ⟨congrArg _ (Except.ok.inj h), rfl⟩
  next => cases h

/-- A refusal gives the errors that were found. -/
theorem verdict_eq_error {answer : Except Unit Stmt} {errors more : List Error}
    (h : verdict answer errors = .error more) : errors = more := by
  unfold verdict at h
  split at h
  next => cases h
  next => exact Except.error.inj h

/-- The machine ends for every list of tokens, and answers by the errors it
has noted. -/
theorem exists_program_run (tokens : List Token) (extra : Nat) :
    ∃ answer c, program (row tokens) (32 * tokens.length + extra) ⟨0, [], []⟩
      = some (answer, c) ∧
      verdict answer c.errors = Parse.program tokens := by
  obtain ⟨tape, hrow, hbody, hstop⟩ := exists_tape tokens
  have hdepth : 32 * tape.body.length ≤ 32 * tokens.length + extra := by
    rw [hbody, length_body]
    have hlength : tokens.findIdx (·.kind = .eof) ≤ tokens.length :=
      List.findIdx_le_length
    omega
  obtain ⟨answer, rest, errors, hdoes, hverdict⟩ :=
    program_does hdepth hbody hstop
  obtain ⟨c, hrun, -, herrors⟩ := hdoes ⟨0, [], []⟩
    ⟨List.suffix_refl _, Nat.zero_add _, List.forall_mem_nil _⟩
  rw [hrow] at hrun
  refine ⟨answer, c, hrun, ?_⟩
  rw [herrors]
  exact hverdict

end Cursor

/-- Failure is never silent and never explodes. The machine ends for every
list of tokens. A program is given back exactly if no error was noted, and
otherwise the errors noted are: at least one, each a syntax error, and no
more than the tokens before the first end token, of which a list without
any counts as one. No item is given up without an error. -/
theorem program_reports (tokens : List Token) :
    (∀ extra, ∃ answer c,
      Cursor.program (row tokens) (32 * tokens.length + extra) ⟨0, [], []⟩
      = some (answer, c) ∧ match program tokens with
      | .ok p => answer = .ok p ∧ c.errors = []
      | .error errors =>
          c.errors = errors ∧ errors ≠ [] ∧
          (∀ e ∈ errors, e.diagnostic.code.text = "E_SYNTAX") ∧
          errors.length ≤ max 1 (tokens.findIdx (·.kind = .eof))) ∧
    ∀ stop t us ht, (item stop t us ht).value = none →
      (item stop t us ht).errors ≠ [] := by
  refine ⟨fun extra => ?_, fun stop t us ht => item_errors_ne_nil ht⟩
  obtain ⟨answer, c, hrun, hverdict⟩ := Cursor.exists_program_run tokens extra
  refine ⟨answer, c, hrun, ?_⟩
  cases hprogram : program tokens with
  | ok p =>
      rw [hprogram] at hverdict
      exact Cursor.verdict_eq_ok hverdict
  | error errors =>
      rw [hprogram] at hverdict
      rw [← length_body]
      exact ⟨Cursor.verdict_eq_error hverdict, program_errors_ne_nil hprogram,
        fun e _ => rfl, program_errors_length_le hprogram⟩

/-- Two blocks that are not closed, and a program that is not: each of the
three tokens has its error. -/
example :
    let token (kind : Token.Kind) : Token := ⟨kind, "", none, Span.start⟩
    (reported (program [token .sugod, token .leftBrace, token .leftBrace])).map
      (·.fault) = [.blockEnd, .blockEnd, .programEnd] := by
  with_unfolding_all rfl

end BisayaPlus.Parse
