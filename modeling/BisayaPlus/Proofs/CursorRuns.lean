/-
Every run with a cursor ends.

Each function of the machine is compared with the reader of `Parse/` for
the same phrase: from a cursor that stands before `ts` it has an answer,
the one of the reader of `ts`, and leaves the cursor before what the reader
leaves. The depth that this takes is 32 for each token that is left and,
before one token, one for each level of the grammar; it is the measure by
which the readers end. An item that was asked for leaves fewer tokens, also
when it was given up and recovered from, so the cursor has moved on
(`items_does`).
-/
import BisayaPlus.Proofs.Brackets
import BisayaPlus.Proofs.CursorSteps

namespace BisayaPlus.Parse

-- ============================================================= replies

namespace Reply

variable {α β γ : Type} {us ts : List Token}

theorem map_map {r : Reply α ts} {f : α → β} {g : β → γ} :
    (r.map f).map g = r.map fun a => g (f a) := by
  cases r <;> rfl

theorem after_after {r : Reply α ts} {errors more : List Error} :
    (r.after more).after errors = r.after (errors ++ more) := by
  cases r <;> simp [after]

/-- Goes on to the token that ends a phrase. -/
def ended (stop : Token) (delimiter : Token.Kind) (fault : Fault)
    (r : Reply α ts) : Reply α ts :=
  r.bind (List.suffix_refl ts) fun a us _ hu =>
    (expect stop delimiter fault us).bind hu.suffix fun _ vs _ hv =>
      .parsed a vs [] hv

variable {stop : Token} {delimiter : Token.Kind} {fault : Fault}

theorem parsed_ended {a : α} {h : Behind us ts} :
    (Reply.parsed a us [] h).ended stop delimiter fault =
      (expect stop delimiter fault us).bind h.suffix fun _ vs _ hv =>
        .parsed a vs [] hv :=
  after_nil _

/-- The token that ends a phrase is looked for before the answer is changed
or behind that, to the same effect. -/
theorem map_ended {r : Reply α ts} {f : α → β} :
    (r.map f).ended stop delimiter fault
      = (r.ended stop delimiter fault).map f := by
  cases r with
  | failed us errors suffix => rfl
  | parsed a us errors hu =>
      rw [map, ended, ended, bind, bind]
      cases expect stop delimiter fault us <;> rfl

/-- The token that ends a phrase is looked for behind its last part. -/
theorem bind_ended {r : Reply α us} {hu : us <:+ ts}
    {f : α → (vs : List Token) → Behind vs us → Behind vs ts → Reply β ts} :
    (r.bind hu f).ended stop delimiter fault =
      r.bind hu fun a vs hv hw =>
        (f a vs hv hw).ended stop delimiter fault := by
  cases r with
  | failed vs errors suffix => rfl
  | parsed a vs errors hv =>
      rw [bind, bind]
      cases f a vs hv (hv.within hu) with
      | failed ws more suffix => rfl
      | parsed b ws more hw => exact after_after.symm

end Reply

theorem delimited_eq_ended {stop : Token} {delimiter : Token.Kind}
    {fault : Fault} {ts : List Token} :
    delimited stop delimiter fault ts
      = (expression stop ts).ended stop delimiter fault :=
  rfl

namespace Cursor

variable {α β : Type} {tape : Tape} {tokens ts us vs : List Token} {t : Token}
  {kind : Token.Kind}

-- ========================================================= expressions

/-- Two tokens tell whether an operator with one operand stands here. -/
theorem opensUnary_does :
    Does tape (opensUnary tape.tokens) (t :: us) (t :: us)
      (.ok (Parse.opensUnary t us)) [] := by
  by_cases hdili : t.kind = .dili
  · refine (check_yes (startsWith_of_eq hdili)).bind
      ((checkNext_does (by decide)).bind ?_)
    cases hparen : startsWith .leftParen us with
    | true =>
        rw [Parse.opensUnary, hdili, hparen]
        exact .ret
    | false =>
        rw [Parse.opensUnary, hdili, hparen]
        exact check_no (startsWith_of_ne (hdili ▸ by decide))
  · refine (check_no (startsWith_of_ne hdili)).bind ?_
    have hopens : Parse.opensUnary t us = startsWith .minus (t :: us) := by
      simp [Parse.opensUnary, startsWith, hdili]
    rw [hopens]
    exact check_does

/-- Of two plus signs, one is missing. -/
theorem twoPlus_no
    (hus : startsWith .plus us = false ∨ startsWith .plus us.tail = false) :
    Does tape (twoPlus tape.tokens) us us (.ok false) [] := by
  cases hplus : startsWith .plus us with
  | false => exact (check_no hplus).bind .ret
  | true =>
      cases us with
      | nil => cases hplus
      | cons p vs =>
          have hnext : startsWith .plus vs = false :=
            hus.resolve_left (by simp [hplus])
          exact (check_yes hplus).bind (checkNext_of (by decide) hnext)

/-- A name that was passed is read alone, or with the two plus signs behind
it. -/
theorem readName_follows (hts : t :: us <:+ tape.body) :
    Follows tape (readName tape.tokens) us (Parse.readName t us) := by
  refine .of_ok (previous_does hts) ?_
  match us with
  | [] => exact .no (twoPlus_no (.inl rfl)) .ret
  | [p] => exact .no (twoPlus_no (.inr rfl)) .ret
  | p :: q :: vs =>
      rw [Parse.readName]
      split
      next h =>
        have hplus : startsWith .plus (p :: q :: vs) = true :=
          startsWith_of_eq h.1
        have hnext : startsWith .plus (q :: vs) = true := startsWith_of_eq h.2
        have htwo : Does tape (twoPlus tape.tokens) (p :: q :: vs)
            (p :: q :: vs) (.ok true) [] :=
          (check_yes hplus).bind (checkNext_of (by decide) hnext)
        exact .yes htwo (.of_ok advance_does (.of_ok advance_does .ret))
      next h =>
        refine .no (twoPlus_no ?_) .ret
        exact (not_and_or.1 h).imp startsWith_of_ne startsWith_of_ne

/-- There is no primary phrase at the end. -/
theorem primary_nil_follows (n : Nat) :
    Follows tape (primary tape.tokens (n + 1)) []
      (Parse.primary tape.stop []) := by
  rw [primary, Parse.primary]
  refine .no (pass_no rfl)
    (.no (pass_no rfl) (.no (passAny_no fun _ _ => rfl) ?_))
  refine .no (pass_no rfl) (.no (pass_no rfl) (.no (pass_no rfl) ?_))
  exact refuse_follows .expression []

/-- A literal is a primary phrase of one token. -/
theorem literal_follows
    (ht : t.kind ∈ [.number, .string, .character, .escapeCode])
    (h : Behind us ts) (n : Nat) :
    Follows tape (primary tape.tokens (n + 1)) (t :: us)
      (.parsed (literalOf t) us [] h) := by
  have hoo : t.kind ≠ .oo := by
    intro hoo
    simp [hoo] at ht
  have hdili : t.kind ≠ .dili := by
    intro hdili
    simp [hdili] at ht
  rw [primary]
  refine .no (pass_no (startsWith_of_ne hoo))
    (.no (pass_no (startsWith_of_ne hdili)) ?_)
  exact .of_suffix fun hts =>
    .yes (passAny_yes ht) (.of_ok (previous_does hts) .ret)

-- Six tiers with two levels each lie between an expression and a primary
-- phrase, and 32 leaves room for statements and items above them.

mutual

/-- An expression is a disjunction, or an assignment to one that is a name.
-/
theorem expression_follows (ts : List Token) : ∀ n, 32 * ts.length + 16 < n →
    Follows tape (expression tape.tokens n) ts (Parse.expression tape.stop ts)
  | n + 1, hn => by
      have hleft : 32 * ts.length + 2 * Tier.disjunction.looseness + 1
          < n := by
        simp only [Tier.looseness]
        omega
      rw [expression, Parse.expression]
      refine (tier_follows .disjunction ts n hleft).bind fun left us _ hu => ?_
      match us, hu with
      | [], _ => exact .no (pass_no rfl) .ret
      | t :: vs, hu =>
          by_cases ht : t.kind = .assign
          · have hvs := hu.tail.length_lt
            dsimp only
            rw [if_pos ht]
            refine .of_suffix fun hsuffix =>
              .yes (pass_yes ht) (.of_ok (previous_does hsuffix) ?_)
            refine (expression_follows vs n (by omega)).bind
              fun value ws _ hw => ?_
            cases left with
            | var name => exact .ret
            | _ => exact Does.bind report_does .ret
          · dsimp only
            rw [if_neg ht]
            exact .no (pass_no (startsWith_of_ne ht)) .ret

/-- A phrase of a tier is an operand and a chain. -/
theorem tier_follows (k : Tier) (ts : List Token) :
    ∀ n, 32 * ts.length + 2 * k.looseness + 1 < n →
      Follows tape (tier tape.tokens k n) ts (Parse.tier tape.stop k ts)
  | n + 1, hn => by
      rw [tier, Parse.tier]
      refine (operand_follows k ts n (by omega)).bind fun left us _ hu => ?_
      have hus := hu.length_lt
      exact chain_follows k left us hu n (by omega)

/-- An operand of a tier is a phrase of the next tighter one; those of the
tightest have no operator between operands. -/
theorem operand_follows (k : Tier) (ts : List Token) :
    ∀ n, 32 * ts.length + 2 * k.looseness < n →
      Follows tape (operand tape.tokens k n) ts (Parse.operand tape.stop k ts)
  | n + 1, hn => by
      rw [operand]
      match hk : k.tighter with
      | some j =>
          have hj := Tier.looseness_tighter hk
          rw [operand_of_some hk]
          exact tier_follows j ts n (by omega)
      | none =>
          have hlow := k.one_lt_looseness
          rw [operand_of_none hk]
          exact unary_follows ts n (by omega)

/-- A chain takes an operator and an operand in each turn. -/
theorem chain_follows (k : Tier) (left : Expr) {ts : List Token}
    (us : List Token) (hu : Behind us ts) : ∀ n, 32 * us.length < n →
      Follows tape (chain tape.tokens k left n) us
        (Parse.chain tape.stop k left us hu)
  | n + 1, hn => by
      rw [chain]
      match us, hu with
      | [], _ =>
          rw [Parse.chain]
          exact .no (passAny_no fun _ _ => rfl) .ret
      | t :: vs, hu =>
          have hhigh := k.looseness_le
          rw [List.length_cons] at hn
          rw [Parse.chain]
          split
          next ht =>
            refine .of_suffix fun hvs =>
              .yes (passAny_yes ht) (.of_ok (previous_does hvs) ?_)
            refine (operand_follows k vs n (by omega)).bind
              fun right ws hv hw => ?_
            have hws := hv.length_lt
            exact chain_follows k (k.join left t right) ws hw n (by omega)
          next ht => exact .no (passAny_no (startsWith_of_notMem ht)) .ret

/-- Operators with one operand stand before a primary phrase. -/
theorem unary_follows (ts : List Token) : ∀ n, 32 * ts.length + 1 < n →
    Follows tape (unary tape.tokens n) ts (Parse.unary tape.stop ts)
  | n + 2, hn => by
      rw [unary]
      match ts with
      | [] =>
          rw [Parse.unary]
          exact .no ((check_no rfl).bind (check_no rfl))
            (primary_nil_follows n)
      | t :: us =>
          rw [List.length_cons] at hn
          rw [Parse.unary]
          split
          next ht =>
            refine .yes (ht ▸ opensUnary_does) (.of_ok advance_does ?_)
            exact (unary_follows us (n + 1) (by omega)).bind
              fun e vs _ hv => .ret
          next ht =>
            refine .no (Bool.eq_false_iff.2 ht ▸ opensUnary_does) ?_
            exact primary_follows t us (n + 1) (by omega)

/-- The first token of a primary phrase decides what it is. All tests
before the one that it passes fail. -/
theorem primary_follows (t : Token) (us : List Token) :
    ∀ n, 32 * (us.length + 1) < n →
    Follows tape (primary tape.tokens n) (t :: us)
      (Parse.primary tape.stop (t :: us))
  | n + 1, hn => by
      rw [Parse.primary]
      split
      next ht =>
        rw [primary]
        exact .yes (pass_yes ht) .ret
      next ht =>
        rw [primary]
        refine .other ht (by decide) ?_
        exact .yes (pass_yes ht) .ret
      next ht => exact literal_follows (by simp [ht]) _ n
      next ht => exact literal_follows (by simp [ht]) _ n
      next ht => exact literal_follows (by simp [ht]) _ n
      next ht => exact literal_follows (by simp [ht]) _ n
      next ht =>
        rw [primary]
        refine .other ht (by decide) (.other ht (by decide) ?_)
        refine .no (passAny_no (startsWith_of_notMem (ht ▸ by decide))) ?_
        exact .yes (pass_yes ht) .ret
      next ht =>
        rw [primary]
        refine .other ht (by decide) (.other ht (by decide) ?_)
        refine .no (passAny_no (startsWith_of_notMem (ht ▸ by decide))) ?_
        refine .other ht (by decide) ?_
        refine .yes (pass_yes ht) ?_
        refine (expression_follows us n (by omega)).bind fun e vs _ hv => ?_
        exact (expect_follows .rightParen .groupingEnd vs).bind
          fun _ ws _ hw => .ret
      next ht =>
        rw [primary]
        refine .other ht (by decide) (.other ht (by decide) ?_)
        refine .no (passAny_no (startsWith_of_notMem (ht ▸ by decide))) ?_
        refine .other ht (by decide) (.other ht (by decide) ?_)
        exact .of_suffix fun hts => .yes (pass_yes ht) (readName_follows hts)
      next hoo hdili hnumber hstring hcharacter hescape hdollar hparen hname =>
        have hliteral : t.kind
            ∉ [.number, .string, .character, .escapeCode] := by
          simpa using ⟨hnumber, hstring, hcharacter, hescape⟩
        rw [primary]
        refine .no (pass_no (startsWith_of_ne hoo)) ?_
        refine .no (pass_no (startsWith_of_ne hdili)) ?_
        refine .no (passAny_no (startsWith_of_notMem hliteral)) ?_
        refine .no (pass_no (startsWith_of_ne hdollar)) ?_
        refine .no (pass_no (startsWith_of_ne hparen)) ?_
        refine .no (pass_no (startsWith_of_ne hname)) ?_
        exact refuse_follows .expression (t :: us)

end

-- ================================================ parts of statements

/-- The name of a type is one token. -/
theorem typeName_follows (ts : List Token) :
    Follows tape (typeName tape.tokens) ts (Parse.typeName tape.stop ts) := by
  cases ts with
  | nil =>
      refine .of_ok peek_does ?_
      rw [List.headD_nil, tape.stop_eq]
      exact refuse_follows .typeName []
  | cons t us =>
      refine .of_ok peek_does ?_
      rw [List.headD_cons, Parse.typeName]
      cases VarType.ofKind? t.kind with
      | some type => exact .of_ok advance_does .ret
      | none => exact refuse_follows .typeName (t :: us)

/-- A variable has a name and may have a first value. -/
theorem declared_follows (type : VarType) (ts : List Token) {n : Nat}
    (hn : 32 * ts.length + 16 < n) :
    Follows tape (declared tape.tokens type n) ts
      (Parse.declared tape.stop type ts) := by
  rw [declared, Parse.declared]
  refine (expect_follows .identifier .variableName ts).bind
    fun name us _ hu => ?_
  match us, hu with
  | [], _ => exact .no (pass_no rfl) .ret
  | t :: vs, hu =>
      have hvs := hu.tail.length_lt
      dsimp only
      split
      next ht =>
        refine .yes (pass_yes ht) ?_
        exact (expression_follows vs n (by omega)).bind fun e ws _ hw => .ret
      next ht => exact .no (pass_no (startsWith_of_ne ht)) .ret

/-- A list of variables is read as its first one and the rest. -/
theorem declaredAll_follows (type : VarType) (before : List Declaration)
    {ts : List Token} (us : List Token) (hu : us <:+ ts) :
    ∀ n, 32 * us.length + 17 < n →
      Follows tape (declaredAll tape.tokens type before.reverse n) us
        ((Parse.declared tape.stop type us).bind hu fun d vs _ hv =>
          declaredRest tape.stop type (d :: before) vs hv)
  | n + 1, hn => by
      rw [declaredAll]
      refine (declared_follows type us (by omega)).bind fun d vs hv hw => ?_
      rw [← List.reverse_cons]
      cases vs with
      | nil =>
          rw [declaredRest]
          exact .no (pass_no rfl) .ret
      | cons t ws =>
          have hws := hv.tail.length_lt
          rw [declaredRest]
          split
          next ht =>
            refine .yes (pass_yes ht) ?_
            exact declaredAll_follows type (d :: before) ws hw.tail.suffix n
              (by omega)
          next ht => exact .no (pass_no (startsWith_of_ne ht)) .ret

/-- A declaration is a type and a list of variables. -/
theorem declarations_follows (ts : List Token) {n : Nat}
    (hn : 32 * ts.length + 17 < n) :
    Follows tape (declarations tape.tokens n) ts
      (Parse.declarations tape.stop ts) := by
  rw [declarations, Parse.declarations]
  refine (typeName_follows ts).bind fun type us _ hu => ?_
  have hus := hu.length_lt
  exact declaredAll_follows type [] us hu.suffix n (by omega)

/-- What is printed is an expression behind a colon. -/
theorem printed_follows {n : Nat} (hn : 32 * us.length + 16 < n)
    (hts : t :: us <:+ tape.body) :
    Follows tape (printed tape.tokens n) us
      (Parse.printed tape.stop t us) := by
  rw [printed, Parse.printed]
  refine .of_ok (previous_does hts) ?_
  refine (expect_follows .colon .printColon us).bind fun _ vs _ hv => ?_
  have hvs := hv.length_lt
  exact (expression_follows vs n (by omega)).bind fun e ws _ hw => .ret

/-- A list of names is read as its first one and the rest. -/
theorem namesAll_follows (before : List Token) {ts : List Token}
    (us : List Token) (hu : us <:+ ts) : ∀ n, us.length < n →
      Follows tape (namesAll tape.tokens before.reverse n) us
        ((Parse.expect tape.stop .identifier .variableName us).bind hu
          fun name vs _ hv =>
          namesRest tape.stop (name :: before) vs hv)
  | n + 1, hn => by
      rw [namesAll]
      refine (expect_follows .identifier .variableName us).bind
        fun name vs hv hw => ?_
      rw [← List.reverse_cons]
      cases vs with
      | nil =>
          rw [namesRest]
          exact .no (pass_no rfl) .ret
      | cons t ws =>
          have hws := hv.tail.length_lt
          rw [namesRest]
          split
          next ht =>
            refine .yes (pass_yes ht) ?_
            exact namesAll_follows (name :: before) ws hw.tail.suffix n
              (by omega)
          next ht => exact .no (pass_no (startsWith_of_ne ht)) .ret

/-- What is read is a list of names behind a colon. -/
theorem names_follows (ts : List Token) {n : Nat} (hn : ts.length < n) :
    Follows tape (names tape.tokens n) ts (Parse.names tape.stop ts) := by
  rw [names, Parse.names]
  refine (expect_follows .colon .inputColon ts).bind fun _ us _ hu => ?_
  have hus := hu.length_lt
  exact namesAll_follows [] us hu.suffix n (by omega)

section

variable (delimiter : Token.Kind) (fault : Fault)

/-- A phrase is followed by the token that ends it. -/
theorem delimited_follows {m : Step α} {r : Reply α us}
    (h : Follows tape m us r) :
    Follows tape (delimited tape.tokens m delimiter fault) us
      (r.ended tape.stop delimiter fault) :=
  h.bind fun _ vs _ _ =>
    (expect_follows delimiter fault vs).bind fun _ _ _ _ => .ret

/-- What is left out is ended at once. -/
theorem delimited_none {m : Step (Option β)} {h : Behind us ts}
    (ht : t.kind = delimiter)
    (hm : Does tape m (t :: us) (t :: us) (.ok none) []) :
    Follows tape (delimited tape.tokens m delimiter fault) (t :: us)
      (.parsed none us [] h) :=
  hm.bind ((expect_yes ht).bind .ret)

/-- A clause of a loop is an expression, or is left out. -/
theorem clause_follows (ts : List Token) {n : Nat}
    (hn : 32 * ts.length + 16 < n) :
    Follows tape (delimited tape.tokens (clause tape.tokens delimiter n)
      delimiter fault) ts
      (Parse.clause tape.stop delimiter fault ts) := by
  have hgiven (hts : startsWith delimiter ts = false) :
      Follows tape (delimited tape.tokens (clause tape.tokens delimiter n)
        delimiter fault) ts
        ((Parse.delimited tape.stop delimiter fault ts).map some) := by
    rw [Parse.delimited_eq_ended, ← Reply.map_ended]
    exact delimited_follows delimiter fault
      (.no (check_no hts) (expression_follows ts n hn).map)
  cases ts with
  | nil => exact hgiven rfl
  | cons t us =>
      rw [Parse.clause]
      split
      next ht =>
        exact delimited_none delimiter fault ht
          ((check_yes (startsWith_of_eq ht)).bind .ret)
      next ht => exact hgiven (startsWith_of_ne ht)

end

/-- The first clause of a loop may be a declaration, too. -/
theorem firstClause_follows (ts : List Token) {n : Nat}
    (hn : 32 * ts.length + 16 < n) :
    Follows tape (delimited tape.tokens (firstClause tape.tokens n) .comma
      .firstClauseEnd) ts
      (Parse.firstClause tape.stop ts) := by
  have hgiven (hcomma : startsWith .comma ts = false)
        (hmugna : startsWith .mugna ts = false) :
      Follows tape (delimited tape.tokens (firstClause tape.tokens n) .comma
        .firstClauseEnd) ts
        (((Parse.delimited tape.stop .comma .firstClauseEnd ts).map some).map
          (·.map Stmt.expression)) := by
    rw [Parse.delimited_eq_ended, ← Reply.map_ended, ← Reply.map_ended,
      Reply.map_map]
    refine delimited_follows .comma .firstClauseEnd ?_
    exact .no (check_no hcomma)
      (.no (pass_no hmugna) (expression_follows ts n hn).map)
  cases ts with
  | nil => exact hgiven rfl rfl
  | cons t us =>
      rw [Parse.firstClause]
      split
      next ht =>
        have hcomma : startsWith .comma (t :: us) = false :=
          startsWith_of_ne (ht ▸ by decide)
        have hfirst : Follows tape (firstClause tape.tokens n) (t :: us)
            ((Parse.typeName tape.stop us).bind (List.suffix_cons t us)
              fun type vs _ hv =>
              (Parse.declared tape.stop type vs).bind hv.suffix
              fun d ws _ hw =>
                .parsed (some (.declare d)) ws [] hw) := by
          refine .no (check_no hcomma) (.yes (pass_yes ht) ?_)
          refine (typeName_follows us).bind fun type vs _ hv => ?_
          have hvs := hv.length_lt
          exact (declared_follows type vs (by omega)).bind
            fun d ws _ hw => .ret
        have hended := delimited_follows .comma .firstClauseEnd hfirst
        simpa only [Reply.bind_ended, Reply.parsed_ended] using hended
      next ht =>
        rw [Parse.clause]
        split
        next hcomma =>
          refine delimited_none .comma .firstClauseEnd hcomma ?_
          exact (check_yes (startsWith_of_eq hcomma)).bind .ret
        next hcomma =>
          exact hgiven (startsWith_of_ne hcomma) (startsWith_of_ne ht)

-- ============================================================ recovery

/-- Skipping stops where `skipFrom` stops. -/
theorem skip_does (us : List Token) : ∀ {t : Token} {n : Nat}, us.length < n →
    t :: us <:+ tape.body →
    Does tape (skip tape.tokens n) us (skipFrom t us) (.ok ()) [] := by
  induction us with
  | nil =>
      rintro t (_ | n) hn -
      · cases hn
      · rw [skip, skipFrom]
        exact atEnd_does.bind .ret
  | cons u vs ih =>
      rintro t (_ | n) hn hts
      · cases hn
      · rw [skip, skipFrom]
        refine atEnd_does.bind ((previous_does hts).bind ?_)
        by_cases ht : t.kind = .dollar
        · rw [if_pos ht, if_pos (by simp [ht])]
          exact .ret
        · rw [if_neg ht]
          refine peek_does.bind ?_
          rw [List.headD_cons]
          by_cases hu : isBoundary u.kind = true
          · rw [if_pos hu, if_pos (by simp [hu])]
            exact .ret
          · rw [if_neg hu, if_neg (by simp [ht, hu])]
            refine advance_does.bind (ih (Nat.lt_of_succ_lt_succ hn) ?_)
            exact (List.suffix_cons t (u :: vs)).trans hts

/-- Nothing is skipped before a boundary. -/
theorem skip_boundary (ht : isBoundary t.kind = true) (n : Nat) :
    Does tape (skip tape.tokens (n + 1)) (t :: us) (t :: us) (.ok ()) [] := by
  refine .of_suffix fun hts => ?_
  obtain ⟨u, hu⟩ := exists_previous hts
  rw [skip]
  refine atEnd_does.bind (hu.bind ?_)
  by_cases hdollar : u.kind = .dollar
  · rw [if_pos hdollar]
    exact .ret
  · rw [if_neg hdollar]
    refine peek_does.bind ?_
    rw [List.headD_cons, if_pos ht]
    exact .ret

/-- Recovery leaves what `Parse.recover` leaves. -/
theorem recover_does (ts : List Token) : ∀ n, ts.length < n →
    Does tape (recover tape.tokens n) ts (Parse.recover ts) (.ok ()) []
  | n + 1, hn => by
      refine .of_suffix fun hts => ?_
      cases ts with
      | nil =>
          obtain ⟨u, hu⟩ := exists_previous hts
          have hskip : Does tape (skip tape.tokens (n + 1)) [] []
              (.ok ()) [] := by
            rw [skip]
            exact atEnd_does.bind .ret
          have hadvance : Does tape (advance tape.tokens) [] [] (.ok u) [] :=
            atEnd_does.bind hu
          exact (check_no rfl).bind (hadvance.bind hskip)
      | cons t us =>
          rw [Parse.recover]
          split
          next ht =>
            exact (check_yes (startsWith_of_eq ht)).bind
              (skip_boundary (ht ▸ rfl) n)
          next ht =>
            refine (check_no (startsWith_of_ne ht)).bind (advance_does.bind ?_)
            exact skip_does us (Nat.lt_of_succ_lt hn) hts

/-- What was given up is recovered from. -/
theorem attempt_does {r : Reply Stmt (t :: us)} {m : Step Stmt} {n : Nat}
    (ht : t.kind ≠ .katapusan) (hn : us.length + 1 < n)
    (h : Follows tape m (t :: us) r) :
    Does tape (attempt (recover tape.tokens n) m) (t :: us)
      (Item.ofReply ht r).rest
      (.ok (Item.ofReply ht r).value) (Item.ofReply ht r).errors := by
  intro c hc
  cases r with
  | parsed s rest errors behind =>
      obtain ⟨c', hrun, hc', he⟩ := h c hc
      refine ⟨c', ?_, hc', he⟩
      change (m c).bind _ = _
      rw [hrun]
      rfl
  | failed rest errors suffix =>
      obtain ⟨c₁, hrun, hc₁, he₁⟩ := h c hc
      obtain ⟨c₂, hskip, hc₂, he₂⟩ := recover_does rest n
        (Nat.lt_of_le_of_lt suffix.length_le hn) c₁ hc₁
      refine ⟨c₂, ?_, hc₂, ?_⟩
      · change (m c).bind _ = _
        rw [hrun]
        change (recover tape.tokens n c₁).bind _ = _
        rw [hskip]
        rfl
      · rw [he₂, he₁, List.append_nil]
        rfl

-- ========================================================== statements

/-- A list of items is over at its closing token or at the end. -/
theorem closes_does (inBlock : Bool) :
    Does tape (closes tape.tokens inBlock) ts ts
      (.ok (ts.head?.all (closesItems inBlock))) [] := by
  refine (checkAny_does (closers inBlock)).bind ?_
  cases ts with
  | nil =>
      have hany : (closers inBlock).any (startsWith · []) = false := by
        cases inBlock <;> rfl
      rw [hany]
      exact atEnd_does
  | cons t us =>
      have hany : (closers inBlock).any (startsWith · (t :: us))
          = closesItems inBlock t := by
        cases inBlock <;> simp [closers, startsWith, closesItems, Bool.or_comm]
      rw [hany, List.head?_cons, Option.all_some]
      cases closesItems inBlock t with
      | true => exact .ret
      | false => exact atEnd_does

/-- An answer that goes on as it is. -/
theorem Follows.whole {m : Step α} {r : Reply α us} {hu : us <:+ ts}
    (h : Follows tape m us r) :
    Follows tape m us (r.bind hu fun a vs _ hv => .parsed a vs [] hv) := by
  cases r with
  | parsed a rest errors behind =>
      change Does tape m us rest (.ok a) (errors ++ [])
      rwa [List.append_nil]
  | failed rest errors suffix => exact h

mutual

/-- The first token of a statement decides what it is. -/
theorem statement_follows (ts : List Token) : ∀ n, 32 * ts.length + 17 < n →
    Follows tape (statement tape.tokens n) ts (Parse.statement tape.stop ts)
  | n + 1, hn => by
      rw [statement]
      match ts with
      | [] =>
          rw [Parse.statement]
          refine .no (pass_no rfl) (.no (pass_no rfl) (.no (pass_no rfl) ?_))
          exact .no (pass_no rfl)
            (.no (pass_no rfl) (expression_follows [] n (by omega)).map)
      | t :: us =>
          rw [List.length_cons] at hn
          rw [Parse.statement]
          split
          next ht =>
            exact .yes (pass_yes ht)
              (conditional_follows us n (by omega)).whole
          next ht =>
            refine .other ht (by decide) ?_
            exact .yes (pass_yes ht) (counting_follows us n (by omega)).whole
          next ht =>
            refine .other ht (by decide) (.other ht (by decide) ?_)
            exact .of_suffix fun hts =>
              .yes (pass_yes ht) (printed_follows (by omega) hts).whole
          next ht =>
            refine .other ht (by decide)
              (.other ht (by decide) (.other ht (by decide) ?_))
            exact .yes (pass_yes ht) (names_follows us (by omega)).whole
          next ht =>
            refine .other ht (by decide) (.other ht (by decide) ?_)
            refine .other ht (by decide) (.other ht (by decide) ?_)
            refine .yes (pass_yes ht)
              (.after (items_does true [] us n (by omega)) ?_)
            exact (expect_follows .rightBrace .blockEnd _).bind
              fun _ vs _ hv => .ret
          next hkung halangSa hipakita hdawat hbrace =>
            refine .no (pass_no (startsWith_of_ne hkung)) ?_
            refine .no (pass_no (startsWith_of_ne halangSa)) ?_
            refine .no (pass_no (startsWith_of_ne hipakita)) ?_
            refine .no (pass_no (startsWith_of_ne hdawat)) ?_
            refine .no (pass_no (startsWith_of_ne hbrace)) ?_
            exact (expression_follows (t :: us) n
              (by rw [List.length_cons]; omega)).map

/-- A conditional is read from behind its `KUNG`, with all its branches. -/
theorem conditional_follows (ts : List Token) : ∀ n, 32 * ts.length + 17 < n →
    Follows tape (conditional tape.tokens n) ts
      (Parse.conditional tape.stop ts)
  | n + 1, hn => by
      rw [conditional, Parse.conditional]
      refine (expect_follows .leftParen .conditionStart ts).bind
        fun _ us _ hu => ?_
      have hus := hu.length_lt
      refine (expression_follows us n (by omega)).bind
        fun condition vs _ hv => ?_
      refine (expect_follows .rightParen .conditionEnd vs).bind
        fun _ ws _ hw => ?_
      refine (expect_follows .pundok .bodyMark ws).bind fun _ xs _ hx => ?_
      have hxs := hx.length_lt
      refine (statement_follows xs n (by omega)).bind fun body ys _ hy => ?_
      match ys, hy with
      | [], _ => exact .no (pass_no rfl) (.no (pass_no rfl) .ret)
      | t :: zs, hy =>
          have hzs := hy.tail.length_lt
          dsimp only
          split
          next ht =>
            refine .yes (pass_yes ht) ?_
            exact (conditional_follows zs n (by omega)).bind
              fun other rest _ h => .ret
          next hdili =>
            refine .no (pass_no (startsWith_of_ne hdili)) ?_
            split
            next ht =>
              refine .yes (pass_yes ht) ?_
              refine (expect_follows .pundok .otherBodyMark zs).bind
                fun _ zs' _ hz => ?_
              have hbody := hz.length_lt
              exact (statement_follows zs' n (by omega)).bind
                fun other rest _ h => .ret
            next ht => exact .no (pass_no (startsWith_of_ne ht)) .ret

/-- A counting loop is read from behind its `ALANG SA`. -/
theorem counting_follows (ts : List Token) : ∀ n, 32 * ts.length + 17 < n →
    Follows tape (counting tape.tokens n) ts (Parse.counting tape.stop ts)
  | n + 1, hn => by
      rw [counting, Parse.counting]
      refine (expect_follows .leftParen .clausesStart ts).bind
        fun _ us _ hu => ?_
      have hus := hu.length_lt
      refine (firstClause_follows us (by omega)).bind fun first vs _ hv => ?_
      have hvs := hv.length_lt
      refine (clause_follows .comma .conditionClauseEnd vs (by omega)).bind
        fun condition ws _ hw => ?_
      have hws := hw.length_lt
      refine (clause_follows .rightParen .clausesEnd ws (by omega)).bind
        fun last xs _ hx => ?_
      refine (expect_follows .pundok .bodyMark xs).bind fun _ ys _ hy => ?_
      have hys := hy.length_lt
      exact (statement_follows ys n (by omega)).bind fun body zs _ hz => .ret

/-- An item is a declaration or a statement. It has an answer also when it
was given up. -/
theorem item_does (t : Token) (us : List Token) (ht : t.kind ≠ .katapusan) :
    ∀ n, 32 * (us.length + 1) + 18 < n →
      Does tape (item tape.tokens n) (t :: us)
        (Parse.item tape.stop t us ht).rest
        (.ok (Parse.item tape.stop t us ht).value)
          (Parse.item tape.stop t us ht).errors
  | n + 1, hn => by
      rw [item, Parse.item]
      refine attempt_does ht (by omega) ?_
      split
      next hmugna =>
        exact .yes (pass_yes hmugna) (declarations_follows us (by omega)).whole
      next hmugna =>
        refine .no (pass_no (startsWith_of_ne hmugna)) ?_
        exact statement_follows (t :: us) n (by rw [List.length_cons]; omega)

/-- A list of items is read up to what closes it. Each item leaves fewer
tokens, and so the call that is noted for it is sound. -/
theorem items_does (inBlock : Bool) (before : List Stmt) (ts : List Token) :
    ∀ n, 32 * ts.length + 19 < n →
      Does tape (items tape.tokens inBlock before n) ts
        (Parse.items tape.stop inBlock ts).rest
        (.ok (before ++ (Parse.items tape.stop inBlock ts).body))
        (Parse.items tape.stop inBlock ts).errors
  | n + 1, hn => by
      rw [items]
      match ts with
      | [] =>
          rw [Parse.items, List.append_nil]
          exact (closes_does inBlock).bind .ret
      | t :: us =>
          by_cases hend : closesItems inBlock t = true
          · have hcloses : Does tape (closes tape.tokens inBlock) (t :: us)
                (t :: us) (.ok true) [] := hend ▸ closes_does inBlock
            rw [items_of_closes hend, List.append_nil]
            exact hcloses.bind .ret
          · have ht : t.kind ≠ .katapusan := ne_katapusan_of_not_closes hend
            have hcloses : Does tape (closes tape.tokens inBlock) (t :: us)
                (t :: us) (.ok false) [] :=
              Bool.eq_false_iff.2 hend ▸ closes_does inBlock
            have hrest := (Parse.item tape.stop t us ht).behind.length_lt
            rw [List.length_cons] at hn hrest
            rw [items_of_not_closes hend]
            refine .of_suffix fun hts => hcloses.bind (here_does.bind ?_)
            refine (item_does t us ht n (by omega)).bind (here_does.bind ?_)
            have hcalled : (Event.called (tape.body.length - (t :: us).length)
                (tape.body.length
                  - (Parse.item tape.stop t us ht).rest.length)).Sound
                  tape.body.length := by
              have hbody := hts.length_le
              rw [List.length_cons] at hbody ⊢
              change _ < _
              omega
            refine (note_does hcalled).bind ?_
            dsimp only
            rw [← List.append_assoc]
            exact items_does inBlock _ _ n (by omega)

end

-- ============================================================ programs

/-- Behind the items a program ends as it should, or is given up. -/
theorem closing_does (p : Stmt) (ts : List Token) :
    ∃ answer rest,
      Does tape (closing tape.tokens p) ts rest answer (Parse.closing
        tape.stop ts) ∧
      answer = if Parse.closing tape.stop ts = [] then .ok p
        else .error () := by
  cases ts with
  | nil =>
      exact ⟨_, _, Does.giveUp (expect_follows .katapusan .programEnd []), rfl⟩
  | cons t us =>
      by_cases ht : t.kind = .katapusan
      · rw [Parse.closing, if_pos ht]
        cases us with
        | nil =>
            exact ⟨.ok p, [], (expect_yes ht).bind (atEnd_does.bind .ret), rfl⟩
        | cons u vs =>
            refine ⟨.error (), u :: vs,
              (expect_yes ht).bind (atEnd_does.bind ?_), rfl⟩
            exact refuse_follows .afterProgram (u :: vs)
      · rw [Parse.closing, if_neg ht]
        have hexpect : Follows tape _ (t :: us) _ :=
          expect_follows .katapusan .programEnd (t :: us)
        rw [Parse.expect, if_neg ht] at hexpect
        exact ⟨_, _, Does.giveUp hexpect, rfl⟩

/-- The row of a list of tokens is split where its body ends. -/
theorem exists_tape (tokens : List Token) :
    ∃ tape : Tape, tape.tokens = row tokens ∧ tape.body = body tokens ∧
      tape.stop = Parse.stop tokens := by
  obtain ⟨hstop, hcases⟩ := stop_cases tokens
  have hrow : ∃ behind, row tokens = body tokens ++ Parse.stop tokens
      :: behind := by
    rw [row]
    obtain ⟨hbody, hmissing⟩ | ⟨behind, htokens⟩ := hcases
    · have hlast : ¬tokens.getLast?.any (·.kind = .eof) = true := by
        cases hlast : tokens.getLast? with
        | none => simp
        | some t =>
            have ht : t ∈ body tokens :=
              hbody.symm ▸ List.mem_of_getLast? hlast
            simpa using ne_eof_of_mem_body t ht
      exact ⟨[], by rw [if_neg hlast, hbody, hmissing]⟩
    · split
      next => exact ⟨behind, htokens⟩
      next =>
        refine ⟨behind
          ++ [.endOfText ((tokens.getLast?.map Token.span).getD ⟨0, 0⟩)], ?_⟩
        rw [← List.cons_append, ← List.append_assoc, ← htokens]
  obtain ⟨behind, hrow⟩ := hrow
  exact ⟨⟨body tokens, Parse.stop tokens, behind, ne_eof_of_mem_body, hstop⟩,
    hrow.symm, rfl, rfl⟩

/-- An error behind the items spoils a program as one inside them does. -/
theorem verdict_append (p : Stmt) (errors more : List Error) :
    verdict (if more = [] then .ok p else .error ()) (errors ++ more) =
      if (errors ++ more).isEmpty then .ok p else .error (errors ++ more) := by
  cases more with
  | nil =>
      rw [if_pos rfl, List.append_nil]
      cases errors <;> rfl
  | cons e more => cases errors <;> rfl

/-- A run over a row gives the program of the row. -/
theorem program_does {n : Nat} (hn : 32 * tape.body.length ≤ n)
    (htape : tape.body = body tokens) (hstop : tape.stop = Parse.stop tokens) :
    ∃ answer rest errors,
      Does tape (program tape.tokens n) tape.body rest answer errors ∧
      verdict answer errors = Parse.program tokens := by
  rw [htape] at hn ⊢
  rw [Parse.program, ← hstop]
  cases hus : body tokens with
  | nil =>
      exact ⟨_, _, _, Does.giveUp (expect_follows .sugod .programStart []),
        rfl⟩
  | cons t us =>
      rw [hus, List.length_cons] at hn
      by_cases ht : t.kind = .sugod
      · obtain ⟨answer, rest, hclosing, hanswer⟩ :=
          @closing_does tape (.program (Parse.items tape.stop false us).body)
            (Parse.items tape.stop false us).rest
        refine ⟨answer, rest, _,
          (expect_yes ht).bind
          ((items_does false [] us n (by omega)).bind hclosing), ?_⟩
        dsimp only
        rw [if_pos ht, hanswer]
        exact verdict_append _ _ _
      · have hexpect : Follows tape _ (t :: us) _ :=
          expect_follows .sugod .programStart (t :: us)
        rw [Parse.expect, if_neg ht] at hexpect
        dsimp only
        rw [if_neg ht]
        exact ⟨_, _, _, Does.giveUp hexpect, rfl⟩

/-- Reading with a cursor ends for every list of tokens, with the answer of
`Parse.program`: calls are nested no deeper than 32 times the number of
tokens. The row has an end token, and no token behind the first one is ever
looked at, nor does the cursor move there. Each item that a list of items
asks for leaves the cursor further on. -/
theorem parse_ends (tokens : List Token) :
    let last := (row tokens).findIdx (·.kind = .eof)
    last < (row tokens).length ∧
    ∀ extra, ∃ trace,
      parse (32 * tokens.length + extra) tokens
        = some (Parse.program tokens, trace) ∧
      (∀ i, .looked i ∈ trace → i ≤ last) ∧
      (∀ i, .moved i ∈ trace → i ≤ last) ∧
      ∀ i j, .called i j ∈ trace → i < j := by
  intro last
  obtain ⟨tape, hrow, hbody, hstop⟩ := exists_tape tokens
  have hlast : last = tape.body.length := by
    have hsplit := body_append_end tape.body_ne tape.stop_eq tape.behind
    rw [← hsplit.1, length_body]
    exact congrArg (List.findIdx _) hrow.symm
  constructor
  · rw [hlast, ← hrow, Tape.tokens, List.length_append, List.length_cons]
    omega
  · intro extra
    have hdepth : 32 * tape.body.length ≤ 32 * tokens.length + extra := by
      have hlength :=
        (List.takeWhile_sublist (·.kind ≠ .eof) (l := tokens)).length_le
      rw [← body, ← hbody] at hlength
      omega
    obtain ⟨answer, rest, errors, hdoes, hverdict⟩ :=
      program_does hdepth hbody hstop
    obtain ⟨c, hrun, hc, herrors⟩ := hdoes ⟨0, [], []⟩
      ⟨List.suffix_refl _, Nat.zero_add _, List.forall_mem_nil _⟩
    refine ⟨c.trace, ?_, ?_, ?_, ?_⟩
    · rw [hrow] at hrun
      rw [parse, hrun, ← hverdict]
      change some (verdict answer c.errors, c.trace) = _
      rw [herrors]
      rfl
    · rw [hlast]
      exact fun i hi => hc.sound _ hi
    · rw [hlast]
      exact fun i hi => hc.sound _ hi
    · exact fun i j hij => hc.sound _ hij

end Cursor

end BisayaPlus.Parse
