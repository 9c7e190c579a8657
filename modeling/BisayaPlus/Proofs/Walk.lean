/-
What reading does with the tokens.

Reading a phrase, a statement or a list of items is a walk along the
tokens: tokens are taken from the front one after another, and faults are
noticed on the way. `Walk` says what a walk is made of, whatever is read:

- a token other than `KATAPUSAN` is taken;
- a phrase is given up before the token that does not fit, with one error
  there;
- an assignment that was read is found to have no name on its left, with
  one error at its sign;
- an item that was given up is recovered from, and the next one is read.

The functions that read are opened once, to show that each of them walks
(`statement_walks`, `items_walks`); what holds of all of them is then shown
by induction on the walk.
-/
import BisayaPlus.Parse.Program
import BisayaPlus.Proofs.ParseSound

namespace BisayaPlus.Parse

variable {α β : Type} {us ts : List Token} {stop : Token}

-- =============================================================== walks

/-- The faults that are noticed outside the items of a program. -/
def outerFaults : List Fault := [.programStart, .programEnd, .afterProgram]

/-- What a walk has come to. -/
inductive Goal where
  /-- A phrase was read, or a part of one. -/
  | parsed
  /-- A phrase was given up. -/
  | failed
  /-- An item was read, or recovered from. -/
  | item
  /-- Items were read up to the end of the list. -/
  | items (inBlock : Bool)

/-- A walk along the tokens `ts` up to `rest`, with the errors noticed on
the way. -/
inductive Walk (stop : Token) :
    Goal → List Token → List Token → List Error → Prop
  | here {ts : List Token} : Walk stop .parsed ts ts []
  | take {t : Token} {us : List Token} (ht : t.kind ≠ .katapusan) :
      Walk stop .parsed (t :: us) us []
  | andThen {ts us vs : List Token} {e f : List Error}
      (h : Walk stop .parsed ts us e)
      (h' : Walk stop .parsed us vs f) : Walk stop .parsed ts vs (e ++ f)
  /-- The sign of an assignment and its value, where a name is missing. -/
  | target {t : Token} {us vs : List Token} {e : List Error}
      (ht : t.kind = .assign)
      (h : Walk stop .parsed us vs e) (hvs : Behind vs us) :
      Walk stop .parsed (t :: us) vs (e ++ [⟨.assignmentTarget, t⟩])
  /-- An opening brace and the items behind it. -/
  | opened {t : Token} {us vs : List Token} {e : List Error}
      (ht : t.kind = .leftBrace)
      (h : Walk stop (.items true) us vs e) : Walk stop .parsed (t :: us) vs e
  | refuse {ts : List Token} {fault : Fault} (hfault : fault ∉ outerFaults) :
      Walk stop .failed ts ts [⟨fault, ts.headD stop⟩]
  | giveUp {ts us vs : List Token} {e f : List Error}
      (h : Walk stop .parsed ts us e)
      (h' : Walk stop .failed us vs f) : Walk stop .failed ts vs (e ++ f)
  | read {ts us : List Token} {e : List Error} (h : Walk stop .parsed ts us e)
      (hus : Behind us ts) : Walk stop .item ts us e
  | recovered {t : Token} {us vs : List Token} {e : List Error}
      (ht : t.kind ≠ .katapusan)
      (h : Walk stop .failed (t :: us) vs e) :
      Walk stop .item (t :: us) (recover vs) e
  | ended {inBlock : Bool} {ts : List Token}
      (hend : ∀ t, ts.head? = some t → closesItems inBlock t = true) :
      Walk stop (.items inBlock) ts ts []
  | more {inBlock : Bool} {ts us vs : List Token} {e f : List Error}
      (h : Walk stop .item ts us e)
      (h' : Walk stop (.items inBlock) us vs f) :
      Walk stop (.items inBlock) ts vs (e ++ f)

-- ============================================================= replies

/-- The reply is what a walk from `us` has come to. -/
def Reply.Walks (stop : Token) (us : List Token) : Reply α ts → Prop
  | .parsed _ rest errors _ => Walk stop .parsed us rest errors
  | .failed rest errors _ => Walk stop .failed us rest errors

namespace Reply.Walks

/-- A walk that goes before brings its errors first. -/
theorem after {errors : List Error} {r : Reply α ts} {vs : List Token}
    (h : Walk stop .parsed us vs errors) (hr : r.Walks stop vs) :
    (r.after errors).Walks stop us := by
  cases r with
  | parsed a rest more behind => exact .andThen h hr
  | failed rest more suffix => exact .giveUp h hr

/-- What a reply goes on with walks on from there. -/
theorem bind {r : Reply α us} {hu : us <:+ ts}
    {f : α → (vs : List Token) → Behind vs us → Behind vs ts → Reply β ts}
    (hr : r.Walks stop us) (hf : ∀ a vs hv hw, (f a vs hv hw).Walks stop vs) :
    (r.bind hu f).Walks stop us := by
  cases r with
  | parsed a vs errors hv => exact after hr (hf a vs hv (hv.within hu))
  | failed vs errors hv => exact hr

/-- A changed answer has walked the same way. -/
theorem map {r : Reply α ts} {f : α → β} (hr : r.Walks stop us) :
    (r.map f).Walks stop us := by
  cases r with
  | parsed a vs errors hv => exact hr
  | failed vs errors hv => exact hr

/-- A walk goes on behind the token that it starts with. -/
theorem cons {t : Token} {r : Reply α ts} (ht : t.kind ≠ .katapusan)
    (hr : r.Walks stop us) :
    r.Walks stop (t :: us) := by
  cases r with
  | parsed a vs errors hv => exact .andThen (.take ht) hr
  | failed vs errors hv => exact .giveUp (.take ht) hr

/-- Nothing is walked for an answer at once. -/
theorem here {a : α} {h : Behind us ts} :
    (Reply.parsed a us [] h).Walks stop us :=
  Walk.here

/-- One token that is no `KATAPUSAN` is taken. -/
theorem take {t : Token} {a : α} {h : Behind us ts}
    (ht : t.kind ≠ .katapusan) :
    (Reply.parsed a us [] h).Walks stop (t :: us) :=
  Walk.take ht

end Reply.Walks

/-- A refusal stays where it is, with an error that is not about the
brackets. -/
theorem refuse_walks {fault : Fault} (hfault : fault ∉ outerFaults)
    (ts : List Token) :
    (refuse stop fault ts : Reply α ts).Walks stop ts :=
  .refuse hfault

/-- An expected token is taken, any other is refused. -/
theorem expect_walks {kind : Token.Kind} {fault : Fault}
    (hkind : kind ≠ .katapusan) (hfault : fault ∉ outerFaults)
    (ts : List Token) :
    (expect stop kind fault ts).Walks stop ts := by
  cases ts with
  | nil => exact refuse_walks hfault []
  | cons t us =>
      rw [expect]
      split
      next ht => exact .take (ht ▸ hkind)
      next => exact refuse_walks hfault (t :: us)

-- ========================================================= expressions

/-- No operator is `KATAPUSAN`. -/
theorem ne_katapusan_of_mem_operators {kind : Token.Kind} {k : Tier}
    (h : kind ∈ k.operators) :
    kind ≠ .katapusan := by
  rintro rfl
  revert h
  cases k <;> decide

/-- Nor is an operator with one operand. -/
theorem ne_katapusan_of_opensUnary {t : Token} (h : opensUnary t us = true) :
    t.kind ≠ .katapusan := by
  intro ht
  simp [opensUnary, ht] at h

/-- A name is one token, or three with two plus signs. -/
theorem readName_walks {t : Token} (ht : t.kind = .identifier)
    (us : List Token) :
    (readName t us).Walks stop (t :: us) := by
  have hname : t.kind ≠ .katapusan := ht ▸ by decide
  rw [readName.eq_def]
  split
  next p q vs =>
    split
    next h =>
      have hp : p.kind ≠ .katapusan := h.1 ▸ by decide
      have hq : q.kind ≠ .katapusan := h.2 ▸ by decide
      exact .andThen (.take hname) (.andThen (.take hp) (.take hq))
    next => exact .take hname
  next => exact .take hname

mutual

/-- Each reader of a phrase walks along the tokens it takes. -/
theorem expression_walks (stop : Token) (ts : List Token) :
    (expression stop ts).Walks stop ts := by
  rw [expression]
  refine (tier_walks stop .disjunction ts).bind fun left us _ hu => ?_
  match us, hu with
  | [], _ => exact .here
  | t :: vs, hu =>
      dsimp only
      split
      next ht =>
        have hassign : t.kind ≠ .katapusan := ht ▸ by decide
        have hvalue := expression_walks stop vs
        -- a missing name is noticed when the value has been read
        cases hreply : expression stop vs with
        | failed ws errors suffix =>
            rw [hreply] at hvalue
            exact hvalue.cons hassign
        | parsed value ws errors hw =>
            rw [hreply] at hvalue
            rw [Reply.bind]
            split
            next => exact (Reply.Walks.after hvalue .here).cons hassign
            next => exact .target ht hvalue hw
      next => exact .here
termination_by 32 * ts.length + 16
decreasing_by
  · simp only [Tier.looseness]; omega
  · have := hu.tail.length_lt; omega

/-- An operand and its chain are walked along in order. -/
theorem tier_walks (stop : Token) (k : Tier) (ts : List Token) :
    (tier stop k ts).Walks stop ts := by
  rw [tier]
  exact (operand_walks stop k ts).bind fun left us _ hu =>
    chain_walks stop k left us hu
termination_by 32 * ts.length + 2 * k.looseness + 1
decreasing_by
  · omega
  · have := hu.length_lt; omega

theorem operand_walks (stop : Token) (k : Tier) (ts : List Token) :
    (operand stop k ts).Walks stop ts := by
  match hk : k.tighter with
  | some j =>
      rw [operand_of_some hk]
      exact tier_walks stop j ts
  | none =>
      rw [operand_of_none hk]
      exact unary_walks stop ts
termination_by 32 * ts.length + 2 * k.looseness
decreasing_by
  · have := Tier.looseness_tighter hk; omega
  · have := k.one_lt_looseness; omega

/-- A chain takes an operator and an operand in each turn. -/
theorem chain_walks (stop : Token) (k : Tier) (left : Expr) {ts : List Token}
    (us : List Token) (hu : Behind us ts) :
    (chain stop k left us hu).Walks stop us := by
  match us, hu with
  | [], _ =>
      rw [chain]
      exact .here
  | t :: vs, hu =>
      rw [chain]
      split
      next ht =>
        refine .cons (ne_katapusan_of_mem_operators ht) ?_
        exact (operand_walks stop k vs).bind fun right ws hv hw =>
          chain_walks stop k (k.join left t right) ws hw
      next => exact .here
termination_by 32 * us.length
decreasing_by
  · have := k.looseness_le; simp only [List.length_cons]; omega
  · have := hv.length_lt; simp only [List.length_cons]; omega

theorem unary_walks (stop : Token) (ts : List Token) :
    (unary stop ts).Walks stop ts := by
  match ts with
  | [] =>
      rw [unary, primary]
      exact refuse_walks (by decide) []
  | t :: us =>
      rw [unary]
      split
      next ht =>
        refine .cons (ne_katapusan_of_opensUnary ht) ?_
        exact (unary_walks stop us).bind fun e vs _ hv => .here
      next => exact primary_walks stop t us
termination_by 32 * ts.length + 1

/-- A primary phrase is one token, or a phrase in parentheses. -/
theorem primary_walks (stop t : Token) (us : List Token) :
    (primary stop (t :: us)).Walks stop (t :: us) := by
  rw [primary]
  split
  next ht => exact .take (ht ▸ by decide)
  next ht => exact .take (ht ▸ by decide)
  next ht => exact .take (ht ▸ by decide)
  next ht => exact .take (ht ▸ by decide)
  next ht => exact .take (ht ▸ by decide)
  next ht => exact .take (ht ▸ by decide)
  next ht => exact .take (ht ▸ by decide)
  next ht =>
    refine .cons (ht ▸ by decide) ?_
    refine (expression_walks stop us).bind fun e vs _ hv => ?_
    exact (expect_walks (by decide) (by decide) vs).bind fun _ ws _ hw => .here
  next ht => exact readName_walks ht us
  next => exact refuse_walks (by decide) (t :: us)
termination_by 32 * (us.length + 1)

end

-- ================================================ parts of statements

theorem typeName_walks (stop : Token) (ts : List Token) :
    (typeName stop ts).Walks stop ts := by
  cases ts with
  | nil => exact refuse_walks (by decide) []
  | cons t us =>
      rw [typeName]
      split
      next type htype =>
        refine .take fun ht => ?_
        rw [ht] at htype
        cases htype
      next => exact refuse_walks (by decide) (t :: us)

/-- A variable is walked along with its first value. -/
theorem declared_walks (stop : Token) (type : VarType) (ts : List Token) :
    (declared stop type ts).Walks stop ts := by
  rw [declared]
  refine (expect_walks (by decide) (by decide) ts).bind fun name us _ hu => ?_
  match us, hu with
  | [], _ => exact .here
  | t :: vs, hu =>
      dsimp only
      split
      next ht =>
        refine .cons (ht ▸ by decide) ?_
        exact (expression_walks stop vs).bind fun e ws _ hw => .here
      next => exact .here

/-- Each further variable stands behind a comma. -/
theorem declaredRest_walks (stop : Token) (type : VarType)
    (before : List Declaration) {ts : List Token} (us : List Token)
    (hu : Behind us ts) :
    (declaredRest stop type before us hu).Walks stop us := by
  match us, hu with
  | [], _ =>
      rw [declaredRest]
      exact .here
  | t :: vs, hu =>
      rw [declaredRest]
      split
      next ht =>
        refine .cons (ht ▸ by decide) ?_
        exact (declared_walks stop type vs).bind fun d ws hv hw =>
          declaredRest_walks stop type (d :: before) ws hw
      next => exact .here
termination_by us.length
decreasing_by exact Nat.lt_succ_of_lt hv.length_lt

/-- A declaration is walked along variable by variable. -/
theorem declarations_walks (stop : Token) (ts : List Token) :
    (declarations stop ts).Walks stop ts := by
  rw [declarations]
  refine (typeName_walks stop ts).bind fun type us _ hu => ?_
  exact (declared_walks stop type us).bind fun d vs _ hv =>
    declaredRest_walks stop type [d] vs hv

theorem printed_walks (stop keyword : Token) (ts : List Token) :
    (printed stop keyword ts).Walks stop ts := by
  rw [printed]
  refine (expect_walks (by decide) (by decide) ts).bind fun _ us _ hu => ?_
  exact (expression_walks stop us).bind fun e vs _ hv => .here

/-- Each further name stands behind a comma. -/
theorem namesRest_walks (stop : Token) (before : List Token) {ts : List Token}
    (us : List Token) (hu : Behind us ts) :
    (namesRest stop before us hu).Walks stop us := by
  match us, hu with
  | [], _ =>
      rw [namesRest]
      exact .here
  | t :: vs, hu =>
      rw [namesRest]
      split
      next ht =>
        refine .cons (ht ▸ by decide) ?_
        exact (expect_walks (by decide) (by decide) vs).bind
          fun name ws hv hw =>
          namesRest_walks stop (name :: before) ws hw
      next => exact .here
termination_by us.length
decreasing_by exact Nat.lt_succ_of_lt hv.length_lt

theorem names_walks (stop : Token) (ts : List Token) :
    (names stop ts).Walks stop ts := by
  rw [names]
  refine (expect_walks (by decide) (by decide) ts).bind fun _ us _ hu => ?_
  exact (expect_walks (by decide) (by decide) us).bind fun name vs _ hv =>
    namesRest_walks stop [name] vs hv

section

variable {kind : Token.Kind} {fault : Fault} (hkind : kind ≠ .katapusan)
  (hfault : fault ∉ outerFaults)

include hkind hfault

/-- A phrase is walked along with the token that ends it. -/
theorem delimited_walks (ts : List Token) :
    (delimited stop kind fault ts).Walks stop ts := by
  rw [delimited]
  refine (expression_walks stop ts).bind fun e us _ hu => ?_
  exact (expect_walks hkind hfault us).bind fun _ vs _ hv => .here

/-- A clause that is left out is the token that ends it. -/
theorem clause_walks (ts : List Token) :
    (clause stop kind fault ts).Walks stop ts := by
  cases ts with
  | nil => exact (delimited_walks hkind hfault []).map
  | cons t us =>
      rw [clause]
      split
      next ht => exact .take (ht ▸ hkind)
      next => exact (delimited_walks hkind hfault (t :: us)).map

end

/-- A first clause may be a declaration. -/
theorem firstClause_walks (stop : Token) (ts : List Token) :
    (firstClause stop ts).Walks stop ts := by
  cases ts with
  | nil => exact (clause_walks (by decide) (by decide) []).map
  | cons t us =>
      rw [firstClause]
      split
      next ht =>
        refine .cons (ht ▸ by decide) ?_
        refine (typeName_walks stop us).bind fun type vs _ hv => ?_
        refine (declared_walks stop type vs).bind fun d ws _ hw => ?_
        exact (expect_walks (by decide) (by decide) ws).bind
          fun _ xs _ hx => .here
      next => exact (clause_walks (by decide) (by decide) (t :: us)).map

-- ========================================================== statements

/-- A statement that its first token opens. -/
theorem opened_walks {t : Token} {r : Reply Stmt us} (ht : t.kind ≠ .katapusan)
    (h : r.Walks stop us) :
    (r.bind (List.suffix_cons t us) fun s vs _ hv => .parsed s vs [] hv).Walks
      stop (t :: us) :=
  .cons ht (h.bind fun _ _ _ _ => .here)

/-- A statement that was given up is recovered from. -/
theorem Item.ofReply_walks {t : Token} (ht : t.kind ≠ .katapusan)
    {r : Reply Stmt (t :: us)} (h : r.Walks stop (t :: us)) :
    Walk stop .item (t :: us) (Item.ofReply ht r).rest
      (Item.ofReply ht r).errors := by
  cases r with
  | parsed s rest errors behind => exact .read h behind
  | failed rest errors suffix => exact .recovered ht h

mutual

/-- Each reader of a statement walks along the tokens it takes; a block in
it is a list of items. -/
theorem statement_walks (stop : Token) (ts : List Token) :
    (statement stop ts).Walks stop ts := by
  match ts with
  | [] =>
      rw [statement]
      exact (expression_walks stop []).map
  | t :: us =>
      rw [statement]
      split
      next ht =>
        exact opened_walks (ht ▸ by decide) (conditional_walks stop us)
      next ht => exact opened_walks (ht ▸ by decide) (counting_walks stop us)
      next ht => exact opened_walks (ht ▸ by decide) (printed_walks stop t us)
      next ht => exact opened_walks (ht ▸ by decide) (names_walks stop us)
      next ht =>
        refine .after (.opened ht (items_walks stop true us)) ?_
        exact (expect_walks (by decide) (by decide) _).bind
          fun _ vs _ hv => .here
      next => exact (expression_walks stop (t :: us)).map
termination_by 4 * ts.length

theorem conditional_walks (stop : Token) (ts : List Token) :
    (conditional stop ts).Walks stop ts := by
  rw [conditional]
  refine (expect_walks (by decide) (by decide) ts).bind fun _ us _ hu => ?_
  refine (expression_walks stop us).bind fun condition vs _ hv => ?_
  refine (expect_walks (by decide) (by decide) vs).bind fun _ ws _ hw => ?_
  refine (expect_walks (by decide) (by decide) ws).bind fun _ xs _ hx => ?_
  refine (statement_walks stop xs).bind fun body ys _ hy => ?_
  match ys, hy with
  | [], _ => exact .here
  | t :: zs, hy =>
      dsimp only
      split
      next ht =>
        refine .cons (ht ▸ by decide) ?_
        exact (conditional_walks stop zs).bind fun other rest _ h => .here
      next =>
        split
        next ht =>
          refine .cons (ht ▸ by decide) ?_
          refine (expect_walks (by decide) (by decide) zs).bind
            fun _ zs' _ hz => ?_
          exact (statement_walks stop zs').bind fun other rest _ h => .here
        next => exact .here
termination_by 4 * ts.length
decreasing_by
  · have := hx.length_lt; omega
  · have := hz.length_lt; omega
  · have := hy.tail.length_lt; omega

theorem counting_walks (stop : Token) (ts : List Token) :
    (counting stop ts).Walks stop ts := by
  rw [counting]
  refine (expect_walks (by decide) (by decide) ts).bind fun _ us _ hu => ?_
  refine (firstClause_walks stop us).bind fun first vs _ hv => ?_
  refine (clause_walks (by decide) (by decide) vs).bind
    fun condition ws _ hw => ?_
  refine (clause_walks (by decide) (by decide) ws).bind fun last xs _ hx => ?_
  refine (expect_walks (by decide) (by decide) xs).bind fun _ ys _ hy => ?_
  exact (statement_walks stop ys).bind fun body zs _ hz => .here
termination_by 4 * ts.length
decreasing_by have := hy.length_lt; omega

/-- An item is walked along as a whole, with what its recovery skips. -/
theorem item_walks (stop t : Token) (us : List Token)
    (ht : t.kind ≠ .katapusan) :
    Walk stop .item (t :: us) (item stop t us ht).rest
      (item stop t us ht).errors := by
  rw [item]
  refine Item.ofReply_walks ht ?_
  split
  next => exact opened_walks ht (declarations_walks stop us)
  next => exact statement_walks stop (t :: us)
termination_by 4 * us.length + 5

/-- A list of items is walked along item by item. -/
theorem items_walks (stop : Token) (inBlock : Bool) (ts : List Token) :
    Walk stop (.items inBlock) ts (items stop inBlock ts).rest
      (items stop inBlock ts).errors := by
  match ts with
  | [] =>
      rw [items]
      exact .ended nofun
  | t :: us =>
      by_cases hend : closesItems inBlock t = true
      · rw [items_of_closes hend]
        refine .ended fun u hu => ?_
        cases hu
        exact hend
      · have ht : t.kind ≠ .katapusan := ne_katapusan_of_not_closes hend
        rw [items_of_not_closes hend]
        exact .more (item_walks stop t us ht)
          (items_walks stop inBlock (item stop t us ht).rest)
termination_by 4 * ts.length + 2
decreasing_by
  · simp only [List.length_cons]; omega
  · have := (item stop t us ht).behind.length_lt; omega

end

end BisayaPlus.Parse
