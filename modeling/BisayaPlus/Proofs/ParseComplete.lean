/-
What the grammar derives is read back.

Phrases and statements have no end mark, so that a phrase is read back
only in front of tokens that do not go on with it (`Follows`): behind a
phrase of some level there is no operator of that level or a tighter one,
no two plus signs, and no parenthesis, before which `DILI` would be the
negation.

The chains of operators fold to the left while they are read from left to
right, which an induction on the derivation does not follow: the left
side of the last operator is all of the chain but its end. What the
induction shows of a tier is therefore that reading a phrase of the tier
comes down to going on with the chain behind it (`Chains`), whatever
follows, an operator of the tier included. The chain ends where no such
operator follows.
-/
import BisayaPlus.Proofs.ParseSound

namespace BisayaPlus.Parse

open Grammar

variable {α β : Type} {us ts rest : List Token} {stop : Token}

-- ======================================================= exact replies

/-- The phrase was read without error, and these tokens are left. -/
def Reply.Is (r : Reply α ts) (a : α) (rest : List Token) : Prop :=
  ∃ h, r = .parsed a rest [] h

namespace Reply.Is

theorem parsed {a : α} {h : Behind rest ts} :
    (Reply.parsed a rest [] h).Is a rest := ⟨h, rfl⟩

/-- A reply goes on from the answer that its first part is. -/
theorem bind {r : Reply α us} {hu : us <:+ ts} {a : α} {b : β}
    {vs : List Token}
    {f : α → (vs : List Token) → Behind vs us → Behind vs ts → Reply β ts}
    (hr : r.Is a vs) (hf : ∀ hv hw, (f a vs hv hw).Is b rest) :
    (r.bind hu f).Is b rest := by
  obtain ⟨hv, rfl⟩ := hr
  rw [Reply.bind, after_nil]
  exact hf hv (hv.within hu)

theorem map {r : Reply α ts} {f : α → β} {a : α} (hr : r.Is a rest) :
    (r.map f).Is (f a) rest := by
  obtain ⟨h, rfl⟩ := hr
  exact ⟨h, rfl⟩

end Reply.Is

/-- A token of the expected kind is taken. -/
theorem expect_is {t : Token} {kind : Token.Kind} (h : t.kind = kind)
    (fault : Fault) (us : List Token) :
    (expect stop kind fault (t :: us)).Is t us := by
  rw [expect, if_pos h]
  exact .parsed

-- =============================================== what follows a phrase

/-- The tokens do not go on with a phrase of the level. -/
structure Follows (l : Level) (rest : List Token) : Prop where
  paren : startsWith .leftParen rest = false
  increment : ∀ p q us,
    rest = p :: q :: us → ¬(p.kind = .plus ∧ q.kind = .plus)
  operator : ∀ t us, rest = t :: us → ∀ k : Tier, l.rank ≤ k.level.rank →
    t.kind ∉ k.operators
  assign : l = .assignment → startsWith .assign rest = false

namespace Follows

variable {l l' : Level}

/-- What may follow a phrase may follow one of a tighter level. -/
theorem tighten (h : Follows l rest) (hl : l.rank < l'.rank) :
    Follows l' rest where
  paren := h.paren
  increment := h.increment
  operator t us ht k hk := h.operator t us ht k (by omega)
  assign hl' := by
    subst hl'
    exact absurd hl (Nat.not_lt_zero _)

/-- The kinds of token that can go on with an expression. -/
def continuing : List Token.Kind :=
  [.leftParen, .assign, .o, .ug, .equalEqual, .notEqual, .greater,
    .greaterEqual, .less, .lessEqual, .plus, .minus, .ampersand, .dollar,
    .star, .slash, .percent]

/-- Every operator goes on with the expression before it. -/
theorem operators_continuing (k : Tier) :
    ∀ kind ∈ k.operators, kind ∈ continuing := by
  cases k <;> decide

/-- The end may follow any phrase. -/
theorem nil : Follows l [] where
  paren := rfl
  increment := by rintro _ _ _ ⟨⟩
  operator := by rintro _ _ ⟨⟩
  assign _ := rfl

/-- So may a token that goes on with no expression. -/
theorem cons {t : Token} (h : t.kind ∉ continuing) (us : List Token) :
    Follows l (t :: us) where
  paren := by
    refine decide_eq_false fun ht => h ?_
    simp [ht, continuing]
  increment := by
    rintro _ _ _ ⟨⟩ ⟨ht, -⟩
    exact h (by simp [ht, continuing])
  operator := by
    rintro _ _ ⟨⟩ k - ht
    exact h (operators_continuing k t.kind ht)
  assign _ := by
    refine decide_eq_false fun ht => h ?_
    simp [ht, continuing]

end Follows

/-- An operator belongs to one tier only. -/
theorem Tier.eq_of_mem_operators {k j : Tier} :
    ∀ kind ∈ k.operators, kind ∈ j.operators → k = j := by
  cases k <;> cases j <;> decide

theorem Tier.rank_below (k : Tier) : k.below.rank = k.level.rank + 1 :=
  Level.rank_tighter k.level_tighter

/-- An operator of a tier may follow the tier's operands. -/
theorem Tier.follows_operator {k : Tier} {op : Token} {e : Expr} {l : Level}
    (hop : op.kind ∈ k.operators) (hus : Phrase l us e) (rest : List Token) :
    Follows k.below (op :: (us ++ rest)) where
  paren := by
    refine decide_eq_false fun ht => ?_
    rw [ht] at hop
    revert hop
    cases k <;> decide
  increment := by
    rintro p q vs heq ⟨-, hq⟩
    obtain ⟨t, ts, rfl, ht⟩ := hus.head
    obtain ⟨rfl, rfl⟩ : t = q ∧ ts ++ rest = vs := by
      simpa using (List.cons.inj heq).2
    rw [hq] at ht
    revert ht
    decide
  operator := by
    rintro _ _ ⟨⟩ j hj hmem
    rw [← Tier.eq_of_mem_operators op.kind hop hmem, k.rank_below] at hj
    omega
  assign h := by
    cases k <;> cases h

-- ========================================================= expressions

/-- Reading a phrase of the tier comes down to going on with the chain
behind it. -/
def Chains (stop : Token) (k : Tier) (used : List Token) (e : Expr) : Prop :=
  ∀ rest all, used ++ rest = all → Follows k.below rest →
    ∃ h : Behind rest all, tier stop k all = chain stop k e rest h

/-- The phrase is read back, in front of all that may follow it. -/
def ReadBack (stop : Token) (used : List Token) (e : Expr) : Level → Prop
  | .assignment => ∀ rest all, used ++ rest = all → Follows .assignment rest →
      (expression stop all).Is e rest
  | .disjunction => Chains stop .disjunction used e
  | .conjunction => Chains stop .conjunction used e
  | .equality => Chains stop .equality used e
  | .comparison => Chains stop .comparison used e
  | .sum => Chains stop .sum used e
  | .product => Chains stop .product used e
  | .unary =>
      ∀ rest all, used ++ rest = all → Follows .unary rest →
        (unary stop all).Is e rest
  | .primary => ∀ rest all, used ++ rest = all → Follows .primary rest →
      (primary stop all).Is e rest

section

variable {k : Tier} {used : List Token} {e : Expr}

/-- A phrase of a tier's level is read back if it is a chain of the tier.
-/
theorem readBack_level :
    ReadBack stop used e k.level ↔ Chains stop k used e := by
  cases k <;> rfl

/-- A chain ends where no operator of its tier follows. -/
theorem chain_is (hrest : Follows k.level rest) (h : Behind rest ts) :
    (chain stop k e rest h).Is e rest := by
  cases rest with
  | nil =>
      rw [chain]
      exact .parsed
  | cons t us =>
      rw [chain, if_neg (hrest.operator t us rfl k (Nat.le_refl _))]
      exact .parsed

/-- A tier reads back its chains. -/
theorem Chains.tier_is {all : List Token} (h : Chains stop k used e)
    (hall : used ++ rest = all) (hrest : Follows k.level rest) :
    (tier stop k all).Is e rest := by
  have hlt : k.level.rank < k.below.rank := by
    rw [k.rank_below]
    exact Nat.lt_succ_self _
  obtain ⟨hbehind, htier⟩ := h rest all hall (hrest.tighten hlt)
  rw [htier]
  exact chain_is hrest hbehind

/-- What is read back one level below a tier is read back as an operand. -/
theorem ReadBack.operand_is {all : List Token}
    (h : ReadBack stop used e k.below) (hall : used ++ rest = all)
    (hrest : Follows k.below rest) :
    (operand stop k all).Is e rest := by
  cases hk : k.tighter with
  | some j =>
      rw [operand_of_some hk]
      rw [← Tier.level_of_tighter hk] at h hrest
      exact (readBack_level.1 h).tier_is hall hrest
  | none =>
      rw [operand_of_none hk]
      rw [Tier.below_of_tightest hk] at h hrest
      exact h rest all hall hrest

/-- A single operand is a chain. -/
theorem ReadBack.chains (h : ReadBack stop used e k.below) :
    Chains stop k used e := by
  intro rest all hall hrest
  obtain ⟨hbehind, hoperand⟩ := h.operand_is hall hrest
  refine ⟨hbehind, ?_⟩
  rw [tier, hoperand, Reply.bind, Reply.after_nil]

/-- One more operand goes to the end of the chain. -/
theorem Chains.join {op : Token} {l r : Expr} {e' : Expr} {m : Level}
    (hl : Chains stop k ts l) (hop : op.kind ∈ k.operators)
    (hphrase : Phrase m us e') (hr : ReadBack stop us r k.below) :
    Chains stop k (ts ++ op :: us) (k.join l op r) := by
  intro rest all hall hrest
  have hall' : ts ++ (op :: (us ++ rest)) = all := by
    rw [← hall, List.append_assoc]; rfl
  obtain ⟨hbehind, htier⟩ :=
    hl _ all hall' (Tier.follows_operator hop hphrase rest)
  obtain ⟨hv, hoperand⟩ := hr.operand_is rfl hrest
  refine ⟨hv.within hbehind.tail.suffix, ?_⟩
  rw [htier, chain, if_pos hop, hoperand, Reply.bind, Reply.after_nil]

end

/-- A single token that no word before it makes a unary phrase. -/
theorem unary_eq_primary {t : Token} (h : opensUnary t us = false) :
    unary stop (t :: us) = primary stop (t :: us) := by
  rw [unary, h]
  rfl

/-- Only a minus, or a `DILI` before a parenthesis, stands before one
operand. -/
theorem opensUnary_of_kind {t : Token} (hminus : t.kind ≠ .minus)
    (hdili : t.kind = .dili → startsWith .leftParen us = false) :
    opensUnary t us = false := by
  by_cases h : t.kind = .dili
  · simp [opensUnary, h, hdili h]
  · simp [opensUnary, hminus, h]

/-- A primary phrase never starts like a unary one: `DILI` is a primary
phrase only by itself. -/
theorem opensUnary_of_primary {used : List Token} {e : Expr}
    (h : Phrase .primary used e) (hrest : Follows .unary rest) :
    ∃ t us, used = t :: us ∧ opensUnary t (us ++ rest) = false := by
  cases h with
  | lift h => cases h
  | dili h =>
      refine ⟨_, _, rfl, opensUnary_of_kind (by simp [h]) fun _ => ?_⟩
      exact hrest.paren
  | literal h =>
      refine ⟨_, _, rfl, opensUnary_of_kind ?_ ?_⟩
      · intro ht
        rw [ht] at h
        exact absurd h (by decide)
      · intro ht
        rw [ht] at h
        exact absurd h (by decide)
  | oo h | newline h | name h | increment h | grouping h =>
      exact ⟨_, _, rfl, opensUnary_of_kind (by simp [h]) (by simp [h])⟩

/-- A primary phrase is read back as one of the next looser level, too. -/
theorem ReadBack.unary_of_primary {used : List Token} {e : Expr}
    (hphrase : Phrase .primary used e) (h : ReadBack stop used e .primary) :
    ReadBack stop used e .unary := by
  rintro rest _ rfl hrest
  obtain ⟨t, us, rfl, ht⟩ := opensUnary_of_primary hphrase hrest
  rw [List.cons_append, unary_eq_primary ht]
  exact h rest _ rfl (hrest.tighten (by decide))

/-- An expression is a disjunction where no assignment follows. -/
theorem ReadBack.assignment_of_disjunction {used : List Token} {e : Expr}
    (h : Chains stop .disjunction used e) :
    ReadBack stop used e .assignment := by
  intro rest all hall hrest
  rw [expression]
  refine (h.tier_is hall (hrest.tighten (by decide))).bind fun _ hw => ?_
  cases rest with
  | nil => exact .parsed
  | cons t us =>
      have ht : t.kind ≠ .assign := of_decide_eq_false (hrest.assign rfl)
      dsimp only
      rw [if_neg ht]
      exact .parsed

/-- What is read back is read back at the next looser level. -/
theorem ReadBack.lift {l l' : Level} {used : List Token} {e : Expr}
    (hl : l.tighter = some l') (hphrase : Phrase l' used e)
    (h : ReadBack stop used e l') : ReadBack stop used e l := by
  cases l with
  | assignment => cases hl; exact ReadBack.assignment_of_disjunction h
  | disjunction => cases hl; exact ReadBack.chains (k := .disjunction) h
  | conjunction => cases hl; exact ReadBack.chains (k := .conjunction) h
  | equality => cases hl; exact ReadBack.chains (k := .equality) h
  | comparison => cases hl; exact ReadBack.chains (k := .comparison) h
  | sum => cases hl; exact ReadBack.chains (k := .sum) h
  | product => cases hl; exact ReadBack.chains (k := .product) h
  | unary => cases hl; exact h.unary_of_primary hphrase
  | primary => cases hl

/-- A name is read alone where no two plus signs follow. -/
theorem readName_is {t : Token} (h : Follows .primary rest) :
    (readName t rest).Is (.var t) rest := by
  rw [readName.eq_def]
  split
  next p q us =>
    rw [if_neg (h.increment p q us rfl)]
    exact .parsed
  next => exact .parsed

theorem primary_name_is {t : Token} (ht : t.kind = .identifier)
    (h : Follows .primary rest) :
    (primary stop (t :: rest)).Is (.var t) rest := by
  simp only [primary, ht]
  exact readName_is h

/-- A name is read back at every level. -/
theorem readBack_name {name : Token} (hname : name.kind = .identifier)
    (l : Level) :
    ReadBack stop [name] (.var name) l := by
  have hprimary : ReadBack stop [name] (.var name) .primary := by
    rintro rest _ rfl hrest
    exact primary_name_is hname hrest
  have hl : l.rank ≤ Level.primary.rank := by cases l <;> decide
  -- The phrase goes along, since the lowest step needs it.
  have hall := Level.descend
    (P := fun l =>
      Phrase l [name] (.var name) ∧ ReadBack stop [name] (.var name) l)
    (fun ht h => ⟨.lift ht h.1, h.2.lift ht h.1⟩) hl ⟨.name hname, hprimary⟩
  exact hall.2

/-- An assignment may follow a disjunction. -/
theorem follows_assign {eq : Token} (heq : eq.kind = .assign)
    (us : List Token) :
    Follows .disjunction (eq :: us) where
  paren := by simp [startsWith, heq]
  increment := by
    rintro _ _ _ ⟨⟩ ⟨h, -⟩
    rw [heq] at h
    cases h
  operator := by
    rintro _ _ ⟨⟩ k - h
    rw [heq] at h
    revert h
    cases k <;> decide
  assign h := by cases h

/-- The target is read as a name, and only the token behind it tells that
it is a target. -/
theorem ReadBack.assign {name eq : Token} {e : Expr}
    (hname : name.kind = .identifier) (heq : eq.kind = .assign)
    (h : ReadBack stop ts e .assignment) :
    ReadBack stop (name :: eq :: ts) (.assign name e) .assignment := by
  rintro rest _ rfl hrest
  have htarget : Chains stop .disjunction [name] (.var name) :=
    readBack_name hname .disjunction
  rw [expression]
  refine (htarget.tier_is rfl (follows_assign heq (ts ++ rest))).bind
    fun _ hw => ?_
  dsimp only
  rw [if_pos heq]
  refine (h rest _ rfl hrest).bind fun _ _ => ?_
  exact .parsed

/-- What the grammar derives as an expression is read back. -/
theorem phrase_readBack {l : Level} {used : List Token} {e : Expr}
    (h : Phrase l used e) :
    ReadBack stop used e l := by
  induction h with
  | lift hl h ih => exact ih.lift hl h
  | assign hname heq _ ih => exact ih.assign hname heq
  | disjunction _ hop hr ihl ihr =>
      exact Chains.join (k := .disjunction) ihl
        (List.mem_singleton.2 hop) hr ihr
  | conjunction _ hop hr ihl ihr =>
      exact Chains.join (k := .conjunction) ihl
        (List.mem_singleton.2 hop) hr ihr
  | equality _ hop hr ihl ihr =>
      exact Chains.join (k := .equality) ihl hop hr ihr
  | comparison _ hop hr ihl ihr =>
      exact Chains.join (k := .comparison) ihl hop hr ihr
  | sum _ hop hr ihl ihr => exact Chains.join (k := .sum) ihl hop hr ihr
  | product _ hop hr ihl ihr =>
      exact Chains.join (k := .product) ihl hop hr ihr
  | minus hop _ ih =>
      rintro rest _ rfl hrest
      rw [List.cons_append, unary, if_pos (by simp [opensUnary, hop])]
      exact (ih rest _ rfl hrest).bind fun _ _ => .parsed
  | negation hop hparen _ ih =>
      rintro rest _ rfl hrest
      rw [List.cons_append, unary,
        if_pos (by simp [opensUnary, hop, startsWith, hparen])]
      exact (ih rest _ rfl hrest).bind fun _ _ => .parsed
  | oo ht | dili ht | newline ht =>
      rintro rest _ rfl -
      simp only [List.cons_append, primary, ht]
      exact .parsed
  | literal ht =>
      rintro rest _ rfl -
      simp only [List.mem_cons, List.not_mem_nil, or_false] at ht
      rcases ht with ht | ht | ht | ht
        <;> simp only [List.cons_append, primary, ht] <;> exact .parsed
  | name ht =>
      rintro rest _ rfl hrest
      exact primary_name_is ht hrest
  | increment hname hp hq =>
      rintro rest _ rfl -
      simp only [List.cons_append, primary, hname, readName]
      rw [if_pos ⟨hp, hq⟩]
      exact .parsed
  | grouping hopen he hclose ih =>
      rintro rest _ rfl -
      simp only [List.cons_append, primary, hopen]
      refine (ih _ _ (List.append_assoc _ _ _).symm (.cons ?_ _)).bind
        fun _ _ => ?_
      · rw [hclose]
        decide
      refine (expect_is hclose .groupingEnd _).bind fun _ _ => ?_
      exact .parsed

/-- An expression of the grammar is read back as its tree. -/
theorem expression_is {used : List Token} {e : Expr}
    (h : Phrase .assignment used e) (hrest : Follows .assignment rest) :
    (expression stop (used ++ rest)).Is e rest :=
  phrase_readBack h rest _ rfl hrest

-- ================================================ parts of statements

/-- The tokens go on neither with an expression nor with a list. -/
def Separates (rest : List Token) : Prop :=
  ∀ t ∈ rest.head?, t.kind ∉ .comma :: Follows.continuing

namespace Separates

/-- A token that goes on with neither an expression nor a list separates.
-/
theorem cons {t : Token} (h : t.kind ∉ .comma :: Follows.continuing)
    (us : List Token) :
    Separates (t :: us) := by
  simpa [Separates] using h

/-- What separates may follow an expression. -/
theorem follows (h : Separates rest) : Follows .assignment rest := by
  cases rest with
  | nil => exact .nil
  | cons t us => exact .cons (fun ht => h t rfl (List.mem_cons_of_mem _ ht)) us

/-- What separates is no comma. -/
theorem comma (h : Separates rest) : startsWith .comma rest = false := by
  cases rest with
  | nil => rfl
  | cons t us =>
      refine decide_eq_false fun ht => h t rfl ?_
      rw [ht]
      exact List.mem_cons_self

end Separates

/-- A comma may follow an expression. -/
theorem follows_comma {comma : Token} (h : comma.kind = .comma)
    (us : List Token) :
    Follows .assignment (comma :: us) := by
  refine .cons ?_ us
  rw [h]
  decide

/-- A word for a type is read as that type. -/
theorem typeName_is {word : Token} {type : VarType}
    (h : TypeWord word.kind type) (us : List Token) :
    (typeName stop (word :: us)).Is type us := by
  have hkind : VarType.ofKind? word.kind = some type := by
    generalize word.kind = kind at h
    cases h <;> rfl
  simp only [typeName, hkind]
  exact .parsed

/-- A variable is read back, with its first value if it has one. -/
theorem declared_is {type : VarType} {used all : List Token} {d : Declaration}
    (h : Variable type used d) (hall : used ++ rest = all)
    (hrest : Follows .assignment rest) :
    (declared stop type all).Is d rest := by
  subst hall
  cases h with
  | plain hname =>
      rw [declared]
      refine (expect_is hname .variableName rest).bind fun _ _ => ?_
      cases rest with
      | nil => exact .parsed
      | cons t us =>
          have ht : t.kind ≠ .assign := of_decide_eq_false (hrest.assign rfl)
          dsimp only
          rw [if_neg ht]
          exact .parsed
  | @valued name eq ts e hname heq he =>
      rw [declared]
      refine (expect_is hname .variableName (eq :: (ts ++ rest))).bind
        fun _ _ => ?_
      dsimp only
      rw [if_pos heq]
      exact (expression_is he hrest).bind fun _ _ => .parsed

/-- The variables of a declaration are read back, behind those that were
read before. -/
theorem variables_is {type : VarType} {used : List Token}
    {ds : List Declaration} (h : Variables type used ds)
    (before : List Declaration) {all : List Token} (hall : used ++ rest = all)
    (hs : all <:+ ts) (hrest : Separates rest) :
    ((declared stop type all).bind hs fun d ws _ hw =>
      declaredRest stop type (d :: before) ws hw).Is (.declareAll
      (before.reverse ++ ds)) rest := by
  induction h generalizing before all with
  | one hd =>
      refine (declared_is hd hall hrest.follows).bind fun _ hw => ?_
      have hcomma := hrest.comma
      cases rest with
      | nil =>
          rw [declaredRest, List.reverse_cons]
          exact .parsed
      | cons t us =>
          rw [declaredRest, if_neg (of_decide_eq_false hcomma),
            List.reverse_cons]
          exact .parsed
  | @more comma ts' us d ds hd hcomma _ ih =>
      have hall' : ts' ++ (comma :: (us ++ rest)) = all := by
        rw [← hall, List.append_assoc]; rfl
      refine (declared_is hd hall' (follows_comma hcomma _)).bind
        fun _ hw => ?_
      rw [declaredRest, if_pos hcomma]
      have h := ih (d :: before) rfl hw.tail.suffix
      rwa [List.reverse_cons, List.append_assoc] at h

/-- A declaration is read back. -/
theorem declarations_is {word : Token} {type : VarType} {used : List Token}
    {ds : List Declaration} (hword : TypeWord word.kind type)
    (h : Variables type used ds) (hrest : Separates rest) :
    (declarations stop (word :: (used ++ rest))).Is (.declareAll ds) rest := by
  rw [declarations]
  refine (typeName_is hword _).bind fun _ hu => ?_
  exact variables_is h [] rfl hu.suffix hrest

/-- What is printed is read back. -/
theorem printed_is {ipakita colon : Token} {used : List Token} {e : Expr}
    (hcolon : colon.kind = .colon) (he : Phrase .assignment used e)
    (hrest : Separates rest) :
    (printed stop ipakita (colon :: (used ++ rest))).Is (.print ipakita e)
      rest := by
  rw [printed]
  refine (expect_is hcolon .printColon _).bind fun _ _ => ?_
  exact (expression_is he hrest.follows).bind fun _ _ => .parsed

/-- The names of an input statement are read back, behind those that were
read before. -/
theorem namesRest_is {used names : List Token} (h : Names used names)
    (before : List Token) {all : List Token} (hall : used ++ rest = all)
    (hs : all <:+ ts) (hrest : Separates rest) :
    ((expect stop .identifier .variableName all).bind hs fun name ws _ hw =>
      namesRest stop (name :: before) ws hw).Is (.input
      (before.reverse ++ names)) rest := by
  subst hall
  induction h generalizing before with
  | one hname =>
      refine (expect_is hname .variableName rest).bind fun _ hw => ?_
      have hcomma := hrest.comma
      cases rest with
      | nil =>
          rw [namesRest, List.reverse_cons]
          exact .parsed
      | cons t us =>
          rw [namesRest, if_neg (of_decide_eq_false hcomma), List.reverse_cons]
          exact .parsed
  | @more name comma ts' names hname hcomma _ ih =>
      refine (expect_is hname .variableName (comma :: (ts' ++ rest))).bind
        fun _ hw => ?_
      rw [namesRest, if_pos hcomma]
      have h := ih (name :: before) hw.tail.suffix
      rwa [List.reverse_cons, List.append_assoc] at h

/-- A list of names is read back. -/
theorem names_is {colon : Token} {used ns : List Token}
    (hcolon : colon.kind = .colon) (h : Names used ns)
    (hrest : Separates rest) :
    (names stop (colon :: (used ++ rest))).Is (.input ns) rest := by
  rw [names]
  refine (expect_is hcolon .inputColon _).bind fun _ hu => ?_
  exact namesRest_is h [] rfl hu.suffix hrest

-- ======================================================== loop clauses

/-- A clause is read back with a delimiter that is part of no phrase. -/
theorem clause_is {kind : Token.Kind} {d : Token} {used : List Token}
    {c : Option Expr} (h : Clause used c) (hd : d.kind = kind)
    (hopen : kind ∉ Phrase.openers) (hcont : kind ∉ Follows.continuing)
    (fault : Fault) (rest : List Token) :
    (clause stop kind fault (used ++ d :: rest)).Is c rest := by
  cases h with
  | absent =>
      rw [List.nil_append, clause, if_pos hd]
      exact .parsed
  | @present _ e he =>
      have hdelimited : (delimited stop kind fault (used ++ d :: rest)).Is e
          rest := by
        rw [delimited]
        refine (expression_is he (.cons (hd ▸ hcont) rest)).bind fun _ _ => ?_
        exact (expect_is hd fault rest).bind fun _ _ => .parsed
      obtain ⟨t, us, rfl, ht⟩ := he.head
      have hne : t.kind ≠ kind := fun heq => hopen (heq ▸ ht)
      rw [List.cons_append, clause, if_neg hne]
      exact hdelimited.map

/-- A first clause is read back, whether it declares, assigns or is left
out. -/
theorem firstClause_is {comma : Token} {used : List Token}
    {first : Option Stmt} (h : FirstClause used first)
    (hcomma : comma.kind = .comma) (rest : List Token) :
    (firstClause stop (used ++ comma :: rest)).Is first rest := by
  have hclause : ∀ {c : Option Expr}, Clause used c →
      ((clause stop .comma .firstClauseEnd (used ++ comma :: rest)).map
        (·.map Stmt.expression)).Is (c.map Stmt.expression) rest := fun hc =>
    (clause_is hc hcomma (by decide) (by decide) .firstClauseEnd rest).map
  cases h with
  | absent =>
      have hne : comma.kind ≠ .mugna := by simp [hcomma]
      rw [List.nil_append, firstClause, if_neg hne]
      exact hclause .absent
  | expression he =>
      have hresult := hclause (.present he)
      obtain ⟨t, us, rfl, ht⟩ := he.head
      have hne : t.kind ≠ .mugna := by
        intro heq
        rw [heq] at ht
        exact absurd ht (by decide)
      rw [List.cons_append, firstClause, if_neg hne]
      exact hresult
  | declaration hmugna hword hd =>
      rw [List.cons_append, firstClause, if_pos hmugna]
      refine (typeName_is hword _).bind fun _ _ => ?_
      refine (declared_is hd rfl (follows_comma hcomma rest)).bind
        fun _ _ => ?_
      exact (expect_is hcomma .firstClauseEnd rest).bind fun _ _ => .parsed

end BisayaPlus.Parse
