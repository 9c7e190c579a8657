/-
What is read is what the grammar derives.

A reply reads a property `P` (`Reply.Reads`) if a phrase read without
error has used up tokens of which `P` holds, the tokens left over being
the rest of the list, and if a phrase that was given up has left an
error. The second half matters as much as the first: reading goes on
after a statement was given up, and it is the error left behind that
keeps such a program from being accepted.

The functions that read phrases call each other, so the statements about
them are proved together, along the same measures. Each says that one
function reads the phrases of one level or role of the grammar
(`Proofs/Grammar.lean`). A program that is accepted is then a program of
the grammar, and its tokens are all the tokens there are
(`program_derived`).
-/
import BisayaPlus.Parse.Program
import BisayaPlus.Proofs.Grammar

namespace BisayaPlus.Parse

open Grammar

variable {α β : Type} {us ts : List Token}

-- ================================================== replies that read

/-- A phrase that was read without error used up tokens of which `P`
holds; one that was given up left an error. -/
def Reply.Reads (P : List Token → α → Prop) : Reply α ts → Prop
  | parsed a rest errors _ =>
      errors = [] → ∃ used, used ++ rest = ts ∧ P used a
  | failed _ errors _ => errors ≠ []

namespace Reply

@[simp] theorem after_nil (r : Reply α ts) : r.after [] = r := by
  cases r <;> rfl

namespace Reads

variable {P : List Token → α → Prop} {Q : List Token → β → Prop}

/-- An answer was read from the tokens that were used for it. -/
theorem parsed {a : α} {rest : List Token} {h : Behind rest ts}
    (used : List Token) (hused : used ++ rest = ts) (ha : P used a) :
    (Reply.parsed a rest [] h).Reads P :=
  fun _ => ⟨used, hused, ha⟩

/-- After an error there is nothing left to show. -/
theorem after {errors : List Error} {r : Reply α ts}
    (h : errors = [] → r.Reads P) :
    (r.after errors).Reads P := by
  by_cases he : errors = []
  · subst he
    rw [after_nil]
    exact h rfl
  · cases r with
    | parsed a rest more behind =>
        intro hnil
        exact absurd (List.append_eq_nil_iff.1 hnil).1 he
    | failed rest more suffix =>
        intro hnil
        exact he (List.append_eq_nil_iff.1 hnil).1

/-- What was read behind a first part was read from the tokens that part
left. -/
theorem bind {r : Reply α us} {hu : us <:+ ts}
    {f : α → (vs : List Token) → Behind vs us → Behind vs ts → Reply β ts}
    (hr : r.Reads P)
    (hf : ∀ a used vs (hv : Behind vs us) (hw : Behind vs ts),
      used ++ vs = us → P used a →
      (f a vs hv hw).Reads Q) :
    (r.bind hu f).Reads Q := by
  cases r with
  | failed vs errors hv => exact hr
  | parsed a vs errors hv =>
      refine after fun he => ?_
      obtain ⟨used, hused, ha⟩ := hr he
      exact hf a used vs hv (hv.within hu) hused ha

/-- A changed answer was read from the same tokens. -/
theorem map {r : Reply α ts} {f : α → β} (hr : r.Reads P)
    (hf : ∀ used a, P used a → Q used (f a)) : (r.map f).Reads Q := by
  cases r with
  | failed vs errors hv => exact hr
  | parsed a vs errors hv =>
      intro he
      obtain ⟨used, hused, ha⟩ := hr he
      exact ⟨used, hused, hf used a ha⟩

/-- What was read may be said more weakly. -/
theorem imp {P' : List Token → α → Prop} {r : Reply α ts} (hr : r.Reads P)
    (h : ∀ used a, P used a → P' used a) : r.Reads P' := by
  cases r with
  | failed vs errors hv => exact hr
  | parsed a vs errors hv =>
      intro he
      obtain ⟨used, hused, ha⟩ := hr he
      exact ⟨used, hused, h used a ha⟩

end Reads

end Reply

/-- A refusal has errors, so it claims nothing. -/
theorem refuse_reads {P : List Token → α → Prop} (stop : Token) (fault : Fault)
    (ts : List Token) : (refuse stop fault ts).Reads P :=
  List.cons_ne_nil _ _

/-- An expected token was read from itself. -/
theorem expect_reads (stop : Token) (kind : Token.Kind) (fault : Fault)
    (ts : List Token) :
    (expect stop kind fault ts).Reads fun used t =>
      used = [t] ∧ t.kind = kind := by
  cases ts with
  | nil => exact refuse_reads stop fault []
  | cons t us =>
      rw [expect]
      split
      next h => exact .parsed [t] rfl ⟨rfl, h⟩
      next => exact refuse_reads stop fault (t :: us)

-- ========================================================= expressions

/-- The level of the phrases that a tier reads. -/
def Tier.level : Tier → Level
  | disjunction => .disjunction
  | conjunction => .conjunction
  | equality => .equality
  | comparison => .comparison
  | sum => .sum
  | product => .product

/-- The level of a tier's operands. -/
def Tier.below : Tier → Level
  | disjunction => .conjunction
  | conjunction => .equality
  | equality => .comparison
  | comparison => .sum
  | sum => .product
  | product => .unary

theorem Tier.level_tighter (k : Tier) : k.level.tighter = some k.below := by
  cases k <;> rfl

/-- The operands of a tier are phrases of the next tighter one. -/
theorem Tier.level_of_tighter {k j : Tier} (h : k.tighter = some j) :
    j.level = k.below := by
  cases k <;> cases h <;> rfl

/-- Those of the tightest tier have operators with one operand at most. -/
theorem Tier.below_of_tightest {k : Tier} (h : k.tighter = none) :
    k.below = .unary := by
  cases k <;> first | rfl | cases h

/-- A chain of a tier and one more operand make up a chain. -/
theorem Tier.phrase_join {k : Tier} {op : Token} {l r : Expr}
    (hl : Phrase k.level ts l) (hop : op.kind ∈ k.operators)
    (hr : Phrase k.below us r) :
    Phrase k.level (ts ++ op :: us) (k.join l op r) := by
  cases k with
  | disjunction => exact .disjunction hl (List.mem_singleton.1 hop) hr
  | conjunction => exact .conjunction hl (List.mem_singleton.1 hop) hr
  | equality => exact .equality hl hop hr
  | comparison => exact .comparison hl hop hr
  | sum => exact .sum hl hop hr
  | product => exact .product hl hop hr

theorem operand_of_some {stop : Token} {k j : Tier} (h : k.tighter = some j) :
    operand stop k ts = tier stop j ts := by
  rw [operand]
  split
  next hj => rw [Option.some.inj (hj.symm.trans h)]
  next hj => cases hj.symm.trans h

theorem operand_of_none {stop : Token} {k : Tier} (h : k.tighter = none) :
    operand stop k ts = unary stop ts := by
  rw [operand]
  split
  next hj => cases hj.symm.trans h
  next => rfl

/-- A name is a primary phrase, alone or with two plus signs. -/
theorem readName_reads {t : Token} (ht : t.kind = .identifier)
    (us : List Token) :
    (readName t us).Reads (Phrase .primary) := by
  rw [readName.eq_def]
  split
  next p q vs =>
    split
    next h => exact .parsed [t, p, q] rfl (.increment ht h.1 h.2)
    next => exact .parsed [t] rfl (.name ht)
  next => exact .parsed [t] rfl (.name ht)

/-- The word that opens a unary phrase, and what follows it. -/
theorem phrase_of_opensUnary {t : Token} {used vs : List Token} {e : Expr}
    (ht : opensUnary t (used ++ vs) = true) (h : Phrase .unary used e) :
    Phrase .unary (t :: used) (.unary t e) := by
  rw [opensUnary, Bool.or_eq_true, Bool.and_eq_true, decide_eq_true_eq,
    decide_eq_true_eq] at ht
  rcases ht with ht | ⟨ht, hparen⟩
  · exact .minus ht h
  · cases used with
    | nil => exact absurd rfl h.ne_nil
    | cons paren used => exact .negation ht (of_decide_eq_true hparen) h

mutual

/-- What is read as an expression is a phrase of the loosest level. The
readers call one another, and so do the proofs, by the same measure. -/
theorem expression_reads (stop : Token) (ts : List Token) :
    (expression stop ts).Reads (Phrase .assignment) := by
  rw [expression]
  refine (tier_reads stop .disjunction ts).bind
    fun left used us _ hu hused hleft => ?_
  match us, hu with
  | [], _ => exact .parsed used hused (.lift rfl hleft)
  | t :: vs, hu =>
      dsimp only
      split
      next ht =>
        refine (expression_reads stop vs).bind
          fun value used' ws _ hw hused' hvalue => ?_
        split
        next name =>
          obtain ⟨rfl, hname⟩ := hleft.of_var
          refine .parsed (name :: t :: used') ?_ (.assign hname ht hvalue)
          rw [← hused, ← hused']
          rfl
        -- A wrong target is an error, so that nothing has to be derived.
        next => exact fun he => absurd he (List.cons_ne_nil _ _)
      next => exact .parsed used hused (.lift rfl hleft)
termination_by 32 * ts.length + 16
decreasing_by
  · simp only [Tier.looseness]; omega
  · have := hu.tail.length_lt; omega

/-- What is read at a tier is a phrase of its level. -/
theorem tier_reads (stop : Token) (k : Tier) (ts : List Token) :
    (tier stop k ts).Reads (Phrase k.level) := by
  rw [tier]
  refine (operand_reads stop k ts).bind fun left used us _ hu hused hleft => ?_
  exact chain_reads stop k left us hu hused (.lift k.level_tighter hleft)
termination_by 32 * ts.length + 2 * k.looseness + 1
decreasing_by
  · omega
  · have := hu.length_lt; omega

/-- What is read as an operand is a phrase of the level below. -/
theorem operand_reads (stop : Token) (k : Tier) (ts : List Token) :
    (operand stop k ts).Reads (Phrase k.below) := by
  match hk : k.tighter with
  | some j =>
      rw [operand_of_some hk, ← Tier.level_of_tighter hk]
      exact tier_reads stop j ts
  | none =>
      rw [operand_of_none hk, Tier.below_of_tightest hk]
      exact unary_reads stop ts
termination_by 32 * ts.length + 2 * k.looseness
decreasing_by
  · have := Tier.looseness_tighter hk; omega
  · have := k.one_lt_looseness; omega

/-- Going on with a chain: what was read before is a chain already. -/
theorem chain_reads (stop : Token) (k : Tier) (left : Expr)
    {ts used : List Token} (us : List Token) (hu : Behind us ts)
    (hused : used ++ us = ts) (hleft : Phrase k.level used left) :
    (chain stop k left us hu).Reads (Phrase k.level) := by
  match us, hu with
  | [], _ =>
      rw [chain]
      exact .parsed used hused hleft
  | t :: vs, hu =>
      rw [chain]
      split
      next ht =>
        refine (operand_reads stop k vs).bind
          fun right used' ws hv hw hused' hright => ?_
        refine chain_reads stop k (k.join left t right) ws hw ?_
          (Tier.phrase_join hleft ht hright)
        rw [← hused, ← hused', List.append_assoc, List.cons_append]
      next => exact .parsed used hused hleft
termination_by 32 * us.length
decreasing_by
  · have := k.looseness_le; simp only [List.length_cons]; omega
  · have := hv.length_lt; simp only [List.length_cons]; omega

/-- What is read with its operators of one operand is a phrase of theirs.
-/
theorem unary_reads (stop : Token) (ts : List Token) :
    (unary stop ts).Reads (Phrase .unary) := by
  match ts with
  | [] =>
      rw [unary, primary]
      exact refuse_reads stop .expression []
  | t :: us =>
      rw [unary]
      split
      next ht =>
        refine (unary_reads stop us).bind fun e used vs _ _ hused he => ?_
        subst hused
        exact .parsed (t :: used) rfl (phrase_of_opensUnary ht he)
      next => exact (primary_reads stop t us).imp fun _ _ => .lift rfl
termination_by 32 * ts.length + 1

/-- The first token of a primary phrase says by which rule it is one. -/
theorem primary_reads (stop t : Token) (us : List Token) :
    (primary stop (t :: us)).Reads (Phrase .primary) := by
  rw [primary]
  split
  next ht => exact .parsed [t] rfl (.oo ht)
  next ht => exact .parsed [t] rfl (.dili ht)
  next ht => exact .parsed [t] rfl (.literal (by simp [ht]))
  next ht => exact .parsed [t] rfl (.literal (by simp [ht]))
  next ht => exact .parsed [t] rfl (.literal (by simp [ht]))
  next ht => exact .parsed [t] rfl (.literal (by simp [ht]))
  next ht => exact .parsed [t] rfl (.newline ht)
  next ht =>
    refine (expression_reads stop us).bind fun e used vs _ _ hused he => ?_
    refine (expect_reads stop .rightParen .groupingEnd vs).bind
      fun close _ ws _ _ hws hclose => ?_
    obtain ⟨rfl, hclose⟩ := hclose
    refine .parsed (t :: (used ++ [close])) ?_ (.grouping ht he hclose)
    rw [← hused, ← hws, List.cons_append, List.append_assoc]
  next ht => exact readName_reads ht us
  next => exact refuse_reads stop .expression (t :: us)
termination_by 32 * (us.length + 1)

end

-- ================================================ parts of statements

/-- The words for types are those of the grammar. -/
theorem typeWord_of_ofKind? {kind : Token.Kind} {type : VarType}
    (h : VarType.ofKind? kind = some type) : TypeWord kind type := by
  cases kind <;> cases h <;> constructor

/-- A type is read from its word. -/
theorem typeName_reads (stop : Token) (ts : List Token) :
    (typeName stop ts).Reads fun used type =>
      ∃ word, used = [word] ∧ TypeWord word.kind type := by
  cases ts with
  | nil => exact refuse_reads stop .typeName []
  | cons t us =>
      rw [typeName]
      split
      next type h => exact .parsed [t] rfl ⟨t, rfl, typeWord_of_ofKind? h⟩
      next => exact refuse_reads stop .typeName (t :: us)

/-- A variable is read from its name and its first value. -/
theorem declared_reads (stop : Token) (type : VarType) (ts : List Token) :
    (declared stop type ts).Reads (Variable type) := by
  rw [declared]
  refine (expect_reads stop .identifier .variableName ts).bind
    fun name _ us _ hu hused hname => ?_
  obtain ⟨rfl, hname⟩ := hname
  match us, hu with
  | [], _ => exact .parsed [name] hused (.plain hname)
  | t :: vs, hu =>
      dsimp only
      split
      next ht =>
        refine (expression_reads stop vs).bind fun e used ws _ _ hws he => ?_
        refine .parsed (name :: t :: used) ?_ (.valued hname ht he)
        rw [← hused, ← hws]
        rfl
      next => exact .parsed [name] hused (.plain hname)

/-- Going on with the variables of a declaration: those before are a list
already, and each further one goes to its end. -/
theorem declaredRest_reads (stop : Token) (type : VarType)
    (before : List Declaration) {ts : List Token} (front used us : List Token)
    (hu : Behind us ts) (hused : front ++ (used ++ us) = ts)
    (hbefore : Variables type used before.reverse) :
    (declaredRest stop type before us hu).Reads fun all s =>
      ∃ used ds, all = front ++ used ∧ Variables type used ds
        ∧ s = .declareAll ds := by
  have hdone : ((front ++ used) ++ us = ts) := by
    rw [← hused, List.append_assoc]
  match us, hu with
  | [], _ =>
      rw [declaredRest]
      exact .parsed (front ++ used) hdone ⟨used, _, rfl, hbefore, rfl⟩
  | t :: vs, hu =>
      rw [declaredRest]
      split
      next ht =>
        refine (declared_reads stop type vs).bind
          fun d used' ws hv hw hws hd => ?_
        refine declaredRest_reads stop type (d :: before) front
          (used ++ t :: used') ws hw ?_ ?_
        · rw [← hused, ← hws, List.append_assoc, List.cons_append]
        · rw [List.reverse_cons]
          exact hbefore.append ht hd
      next => exact .parsed (front ++ used) hdone ⟨used, _, rfl, hbefore, rfl⟩
termination_by us.length
decreasing_by exact Nat.lt_succ_of_lt hv.length_lt

/-- A declaration is an item behind its `MUGNA`. -/
theorem declarations_reads {mugna : Token} (hmugna : mugna.kind = .mugna)
    (stop : Token) (ts : List Token) :
    (declarations stop ts).Reads fun used s =>
      Sentence .item (mugna :: used) s := by
  rw [declarations]
  refine (typeName_reads stop ts).bind fun type _ us _ hu hus hword => ?_
  obtain ⟨word, rfl, hword⟩ := hword
  refine (declared_reads stop type us).bind fun d used vs _ hv hvs hd => ?_
  have hused : [word] ++ (used ++ vs) = ts := by rw [hvs, hus]
  refine (declaredRest_reads stop type [d] [word] used vs hv hused
    (.one hd)).imp ?_
  rintro _ _ ⟨all, ds, rfl, hds, rfl⟩
  exact .declaration hmugna hword hds

/-- What is printed makes a statement behind its `IPAKITA`. -/
theorem printed_reads {ipakita : Token} (hipakita : ipakita.kind = .ipakita)
    (stop : Token) (ts : List Token) :
    (printed stop ipakita ts).Reads fun used s =>
      Sentence .statement (ipakita :: used) s := by
  rw [printed]
  refine (expect_reads stop .colon .printColon ts).bind
    fun colon _ us _ _ hus hcolon => ?_
  obtain ⟨rfl, hcolon⟩ := hcolon
  refine (expression_reads stop us).bind fun e used vs _ _ hvs he => ?_
  refine .parsed (colon :: used) ?_ (.print hipakita hcolon he)
  rw [← hus, ← hvs]
  rfl

/-- Going on with the names of an input statement. -/
theorem namesRest_reads (stop : Token) (before : List Token) {ts : List Token}
    (front used us : List Token) (hu : Behind us ts)
    (hused : front ++ (used ++ us) = ts)
    (hbefore : Names used before.reverse) :
    (namesRest stop before us hu).Reads fun all s =>
      ∃ used names, all = front ++ used ∧ Names used names
        ∧ s = .input names := by
  have hdone : (front ++ used) ++ us = ts := by rw [← hused, List.append_assoc]
  match us, hu with
  | [], _ =>
      rw [namesRest]
      exact .parsed (front ++ used) hdone ⟨used, _, rfl, hbefore, rfl⟩
  | t :: vs, hu =>
      rw [namesRest]
      split
      next ht =>
        refine (expect_reads stop .identifier .variableName vs).bind
          fun name _ ws hv hw hws hname => ?_
        obtain ⟨rfl, hname⟩ := hname
        refine namesRest_reads stop (name :: before) front (used ++ [t, name])
          ws hw ?_ ?_
        · rw [← hused, ← hws, List.append_assoc]
          rfl
        · rw [List.reverse_cons]
          exact hbefore.append ht hname
      next => exact .parsed (front ++ used) hdone ⟨used, _, rfl, hbefore, rfl⟩
termination_by us.length
decreasing_by exact Nat.lt_succ_of_lt hv.length_lt

/-- The names that are read make a statement behind their `DAWAT`. -/
theorem names_reads {dawat : Token} (hdawat : dawat.kind = .dawat)
    (stop : Token) (ts : List Token) :
    (names stop ts).Reads fun used s =>
      Sentence .statement (dawat :: used) s := by
  rw [names]
  refine (expect_reads stop .colon .inputColon ts).bind
    fun colon _ us _ _ hus hcolon => ?_
  obtain ⟨rfl, hcolon⟩ := hcolon
  refine (expect_reads stop .identifier .variableName us).bind
    fun name _ vs _ hv hvs hname => ?_
  obtain ⟨rfl, hname⟩ := hname
  have hused : [colon] ++ ([name] ++ vs) = ts := by rw [hvs, hus]
  refine (namesRest_reads stop [name] [colon] [name] vs hv hused
    (.one hname)).imp ?_
  rintro _ _ ⟨all, names, rfl, hnames, rfl⟩
  exact .input hdawat hcolon hnames

-- ======================================================== loop clauses

/-- What a clause uses up: the tokens of the clause, and its delimiter. -/
def Delimited (kind : Token.Kind) (P : List Token → α → Prop)
    (used : List Token) (a : α) : Prop :=
  ∃ body delimiter, used = body ++ [delimiter] ∧ P body a
    ∧ delimiter.kind = kind

/-- A phrase is read with the token that ends it. -/
theorem delimited_reads (stop : Token) (kind : Token.Kind) (fault : Fault)
    (ts : List Token) :
    (delimited stop kind fault ts).Reads
      (Delimited kind (Phrase .assignment)) := by
  rw [delimited]
  refine (expression_reads stop ts).bind fun e used us _ _ hus he => ?_
  refine (expect_reads stop kind fault us).bind fun d _ vs _ _ hvs hd => ?_
  obtain ⟨rfl, hd⟩ := hd
  refine .parsed (used ++ [d]) ?_ ⟨used, d, rfl, he, hd⟩
  rw [← hus, ← hvs, List.append_assoc]

/-- A clause is read with the token that ends it, or as that token. -/
theorem clause_reads (stop : Token) (kind : Token.Kind) (fault : Fault)
    (ts : List Token) :
    (clause stop kind fault ts).Reads (Delimited kind Clause) := by
  have hpresent : ((delimited stop kind fault ts).map some).Reads
      (Delimited kind Clause) := by
    refine (delimited_reads stop kind fault ts).map ?_
    rintro _ e ⟨body, d, rfl, he, hd⟩
    exact ⟨body, d, rfl, .present he, hd⟩
  cases ts with
  | nil => exact hpresent
  | cons t us =>
      rw [clause]
      split
      next ht => exact .parsed [t] rfl ⟨[], t, rfl, .absent, ht⟩
      next => exact hpresent

/-- So is the first clause, which may declare a variable. -/
theorem firstClause_reads (stop : Token) (ts : List Token) :
    (firstClause stop ts).Reads (Delimited .comma FirstClause) := by
  have hclause :
      ((clause stop .comma .firstClauseEnd ts).map
        (·.map Stmt.expression)).Reads (Delimited .comma FirstClause) := by
    refine (clause_reads stop .comma .firstClauseEnd ts).map ?_
    rintro _ _ ⟨body, d, rfl, h, hd⟩
    cases h with
    | absent => exact ⟨[], d, rfl, .absent, hd⟩
    | present he => exact ⟨body, d, rfl, .expression he, hd⟩
  cases ts with
  | nil => exact hclause
  | cons t us =>
      rw [firstClause]
      split
      next ht =>
        refine (typeName_reads stop us).bind fun type _ vs _ _ hvs hword => ?_
        obtain ⟨word, rfl, hword⟩ := hword
        refine (declared_reads stop type vs).bind
          fun d used ws _ _ hws hd => ?_
        refine (expect_reads stop .comma .firstClauseEnd ws).bind
          fun comma _ xs _ _ hxs hcomma => ?_
        obtain ⟨rfl, hcomma⟩ := hcomma
        refine .parsed (t :: word :: used ++ [comma]) ?_
          ⟨t :: word :: used, comma, rfl, .declaration ht hword hd, hcomma⟩
        rw [← hvs, ← hws, ← hxs, List.append_assoc]
        rfl
      next => exact hclause

-- ========================================================== statements

/-- An item read without error is an item of the grammar. -/
def Item.Reads (r : Item ts) : Prop :=
  r.errors = [] →
    ∃ used s, used ++ r.rest = ts ∧ r.value = some s ∧ Sentence .item used s

/-- Items read without error are a list of items of the grammar. -/
def Items.Reads (r : Items ts) : Prop :=
  r.errors = [] → ∃ parts : List (List Token × Stmt),
    parts.flatMap (·.1) ++ r.rest = ts ∧ parts.map (·.2) = r.body ∧
      ∀ part ∈ parts, Sentence .item part.1 part.2

/-- Recovery is only for statements that left an error. -/
theorem Item.ofReply_reads {t : Token} (ht : t.kind ≠ .katapusan)
    {r : Reply Stmt (t :: us)} (h : r.Reads (Sentence .item)) :
    (Item.ofReply ht r).Reads := by
  cases r with
  | failed rest errors suffix => exact fun he => absurd he h
  | parsed s rest errors behind =>
      intro he
      obtain ⟨used, hused, hs⟩ := h he
      exact ⟨used, s, hused, rfl, hs⟩

/-- A statement that its first token opens: what follows the token is
read by a function of its own. -/
theorem opened_reads {t : Token} {r : Reply Stmt us}
    {P : List Token → Stmt → Prop}
    (h : r.Reads fun used s => P (t :: used) s) :
    (r.bind (List.suffix_cons t us) fun s vs _ hv =>
      .parsed s vs [] hv).Reads P := by
  refine h.bind fun s used vs _ _ hused hs => ?_
  refine .parsed (t :: used) ?_ hs
  rw [← hused, List.cons_append]

/-- The token ends a list of items. -/
def closesItems (inBlock : Bool) (t : Token) : Bool :=
  t.kind = .katapusan || (inBlock && t.kind = .rightBrace)

section

variable {stop t : Token} {inBlock : Bool}

/-- `KATAPUSAN` closes every list of items. -/
theorem ne_katapusan_of_not_closes (h : ¬closesItems inBlock t = true) :
    t.kind ≠ .katapusan := by
  intro ht
  exact h (by simp [closesItems, ht])

theorem items_of_closes (h : closesItems inBlock t = true) :
    items stop inBlock (t :: us) = ⟨[], t :: us, [], List.suffix_refl _⟩ := by
  rw [items]
  split
  next => rfl
  next ht =>
    rw [if_pos]
    simpa [closesItems, ht] using h

theorem items_of_not_closes (h : ¬closesItems inBlock t = true) :
    items stop inBlock (t :: us) =
      let first := item stop t us (ne_katapusan_of_not_closes h)
      let more := items stop inBlock first.rest
      ⟨first.value.toList ++ more.body, more.rest, first.errors ++ more.errors,
        more.suffix.trans first.behind.suffix⟩ := by
  have ht := ne_katapusan_of_not_closes h
  rw [items, dif_neg ht, if_neg]
  simpa [closesItems, ht] using h

end

mutual

/-- What is read as a statement is one. -/
theorem statement_reads (stop : Token) (ts : List Token) :
    (statement stop ts).Reads (Sentence .statement) := by
  match ts with
  | [] =>
      rw [statement]
      exact (expression_reads stop []).map fun _ _ => .expression
  | t :: us =>
      rw [statement]
      split
      next ht =>
        exact opened_reads ((conditional_reads stop us).imp fun _ _ =>
          .conditional ht)
      next ht => exact opened_reads (counting_reads ht stop us)
      next ht => exact opened_reads (printed_reads ht stop us)
      next ht => exact opened_reads (names_reads ht stop us)
      next ht =>
        refine .after fun he => ?_
        obtain ⟨parts, hparts, hbody, hderived⟩ := items_reads stop true us he
        refine (expect_reads stop .rightBrace .blockEnd _).bind
          fun close _ vs _ _ hvs hclose => ?_
        obtain ⟨rfl, hclose⟩ := hclose
        rw [← hbody]
        refine .parsed (t :: (parts.flatMap (·.1) ++ [close])) ?_
          (.block ht hderived hclose)
        rw [List.cons_append, List.append_assoc, hvs, hparts]
      next =>
        exact (expression_reads stop (t :: us)).map fun _ _ => .expression
termination_by 4 * ts.length

/-- What is read behind `KUNG` is a branch. -/
theorem conditional_reads (stop : Token) (ts : List Token) :
    (conditional stop ts).Reads (Sentence .branch) := by
  rw [conditional]
  refine (expect_reads stop .leftParen .conditionStart ts).bind
    fun lp _ us _ hu hus hlp => ?_
  obtain ⟨rfl, hlp⟩ := hlp
  refine (expression_reads stop us).bind
    fun condition cs vs _ hv hvs hcondition => ?_
  refine (expect_reads stop .rightParen .conditionEnd vs).bind
    fun rp _ ws _ hw hws hrp => ?_
  obtain ⟨rfl, hrp⟩ := hrp
  refine (expect_reads stop .pundok .bodyMark ws).bind
    fun pundok _ xs _ hx hxs hpundok => ?_
  obtain ⟨rfl, hpundok⟩ := hpundok
  have head : Head (lp :: (cs ++ [rp, pundok])) condition :=
    .mk hlp hcondition hrp hpundok
  refine (statement_reads stop xs).bind fun body bs ys _ hy hys hbody => ?_
  have hts : ts = (lp :: (cs ++ [rp, pundok])) ++ (bs ++ ys) := by
    rw [← hus, ← hvs, ← hws, ← hxs, ← hys]
    simp
  match ys, hy with
  | [], _ =>
      refine .parsed _ ?_ (.ifThen head hbody)
      rw [hts, List.append_assoc]
  | t :: zs, hy =>
      dsimp only
      split
      next ht =>
        refine (conditional_reads stop zs).bind
          fun other os rest _ _ hzs hother => ?_
        refine .parsed _ ?_ (.elseIf head hbody ht hother)
        rw [hts, ← hzs]
        simp
      next =>
        split
        next ht =>
          refine (expect_reads stop .pundok .otherBodyMark zs).bind
            fun pundok' _ zs' _ hz hzs hpundok' => ?_
          obtain ⟨rfl, hpundok'⟩ := hpundok'
          refine (statement_reads stop zs').bind
            fun other os rest _ _ hzs' hother => ?_
          refine .parsed _ ?_ (.ifElse head hbody ht hpundok' hother)
          rw [hts, ← hzs, ← hzs']
          simp
        next =>
          refine .parsed _ ?_ (.ifThen head hbody)
          rw [hts, List.append_assoc]
termination_by 4 * ts.length
decreasing_by
  · have := hx.length_lt; omega
  · have := hz.length_lt; omega
  · have := hy.tail.length_lt; omega

/-- What is read behind `ALANG SA` is a statement with it. -/
theorem counting_reads {alangSa : Token} (halangSa : alangSa.kind = .alangSa)
    (stop : Token) (ts : List Token) :
    (counting stop ts).Reads fun used s =>
      Sentence .statement (alangSa :: used) s := by
  rw [counting]
  refine (expect_reads stop .leftParen .clausesStart ts).bind
    fun lp _ us _ _ hus hlp => ?_
  obtain ⟨rfl, hlp⟩ := hlp
  refine (firstClause_reads stop us).bind fun first _ vs _ _ hvs hfirst => ?_
  obtain ⟨fs, comma, rfl, hfirst, hcomma⟩ := hfirst
  refine (clause_reads stop .comma .conditionClauseEnd vs).bind
    fun condition _ ws _ _ hws hcondition => ?_
  obtain ⟨cs, comma', rfl, hcondition, hcomma'⟩ := hcondition
  refine (clause_reads stop .rightParen .clausesEnd ws).bind
    fun last _ xs _ _ hxs hlast => ?_
  obtain ⟨ls, rp, rfl, hlast, hrp⟩ := hlast
  refine (expect_reads stop .pundok .bodyMark xs).bind
    fun pundok _ ys _ hy hys hpundok => ?_
  obtain ⟨rfl, hpundok⟩ := hpundok
  refine (statement_reads stop ys).bind fun body bs zs _ _ hzs hbody => ?_
  refine .parsed
    (lp :: (fs ++ comma :: (cs ++ comma' :: (ls ++ rp :: pundok :: bs)))) ?_
    (.counting halangSa hlp hfirst hcomma hcondition hcomma' hlast hrp
      hpundok hbody)
  rw [← hus, ← hvs, ← hws, ← hxs, ← hys, ← hzs]
  simp
termination_by 4 * ts.length
decreasing_by have := hy.length_lt; omega

/-- An item that was read without errors is one of the grammar. -/
theorem item_reads (stop t : Token) (us : List Token)
    (ht : t.kind ≠ .katapusan) :
    (item stop t us ht).Reads := by
  rw [item]
  refine Item.ofReply_reads ht ?_
  split
  next hmugna => exact opened_reads (declarations_reads hmugna stop us)
  next => exact (statement_reads stop (t :: us)).imp fun _ _ => .item
termination_by 4 * us.length + 5

/-- So are all items of a list. -/
theorem items_reads (stop : Token) (inBlock : Bool) (ts : List Token) :
    (items stop inBlock ts).Reads := by
  match ts with
  | [] =>
      rw [items]
      exact fun _ => ⟨[], rfl, rfl, by simp⟩
  | t :: us =>
      by_cases hend : closesItems inBlock t = true
      · rw [items_of_closes hend]
        exact fun _ => ⟨[], rfl, rfl, by simp⟩
      · have ht : t.kind ≠ .katapusan := ne_katapusan_of_not_closes hend
        have hitem := item_reads stop t us ht
        have hmore := items_reads stop inBlock (item stop t us ht).rest
        rw [items_of_not_closes hend]
        intro he
        obtain ⟨heitem, hemore⟩ := List.append_eq_nil_iff.1 he
        obtain ⟨used, s, hused, hs, hderived⟩ := hitem heitem
        obtain ⟨parts, hparts, hbody, hrest⟩ := hmore hemore
        refine ⟨(used, s) :: parts, ?_, ?_,
          List.forall_mem_cons.2 ⟨hderived, hrest⟩⟩
        · rw [List.flatMap_cons, List.append_assoc, hparts, hused]
        · dsimp only
          rw [hs, ← hbody]
          rfl
termination_by 4 * ts.length + 2
decreasing_by
  · simp only [List.length_cons]; omega
  · have := (item stop t us ht).behind.length_lt; omega

end

-- ============================================================ programs

/-- Behind the items of a program is `KATAPUSAN`, and nothing else. -/
theorem eq_singleton_of_closing {stop : Token} (h : closing stop ts = []) :
    ∃ katapusan, ts = [katapusan] ∧ katapusan.kind = .katapusan := by
  cases ts with
  | nil => cases h
  | cons t us =>
      rw [closing] at h
      split at h
      next ht =>
        cases us with
        | nil => exact ⟨t, rfl, ht⟩
        | cons u us => cases h
      next => cases h

/-- The tokens of an accepted program, up to the first end token, are a
program of the grammar, and the tree is the one that the grammar builds
from them. -/
theorem program_derived {tokens : List Token} {p : Stmt}
    (h : program tokens = .ok p) :
    Program (tokens.takeWhile (·.kind ≠ .eof)) p := by
  rw [program] at h
  change Program (body tokens) p
  cases hbody : body tokens with
  | nil => rw [hbody] at h; cases h
  | cons sugod us =>
      rw [hbody] at h
      dsimp only at h
      split at h
      next hsugod =>
        split at h
        next hempty =>
          obtain ⟨herrors, hclosing⟩ :=
            List.append_eq_nil_iff.1 (List.isEmpty_iff.1 hempty)
          obtain ⟨parts, hparts, hitems, hderived⟩ :=
            items_reads (stop tokens) false us herrors
          obtain ⟨katapusan, hrest, hkatapusan⟩ :=
            eq_singleton_of_closing hclosing
          obtain rfl := Except.ok.inj h
          rw [← hitems, ← hparts, hrest]
          exact .mk hsugod hderived hkatapusan
        next => cases h
      next => cases h

/-- A token without value, at the start of a text. -/
def bareToken (kind : Token.Kind) (lexeme : String) : Token :=
  ⟨kind, lexeme, none, ⟨1, 1⟩⟩

/-- A loop that counts `x` up to `y` and prints `x - y - x` at each turn,
with a comma behind the end token. -/
def countUp : List Token :=
  [ bareToken .sugod "SUGOD", bareToken .alangSa "ALANG SA",
    bareToken .leftParen "(", bareToken .comma ",", bareToken .identifier "x",
    bareToken .less "<", bareToken .identifier "y", bareToken .comma ",",
    bareToken .identifier "x", bareToken .plus "+", bareToken .plus "+",
    bareToken .rightParen ")", bareToken .pundok "PUNDOK",
    bareToken .leftBrace "\x7b", bareToken .ipakita "IPAKITA",
    bareToken .colon ":", bareToken .identifier "x", bareToken .minus "-",
    bareToken .identifier "y", bareToken .minus "-", bareToken .identifier "x",
    bareToken .rightBrace "\x7d", bareToken .katapusan "KATAPUSAN",
    bareToken .eof "", bareToken .comma "," ]

/-- The tree of `countUp`. -/
def countUpTree : Stmt :=
  let x := bareToken .identifier "x"
  let y := bareToken .identifier "y"
  let minus := bareToken .minus "-"
  let difference := .binary (.binary (.var x) minus (.var y)) minus (.var x)
  .program
    [.block
      [.loop (.binary (.var x) (bareToken .less "<") (.var y))
        (.block
          [.block [.print (bareToken .ipakita "IPAKITA") difference],
            .expression (.increment x)])]]

theorem program_derived_countUp :
    program countUp = .ok countUpTree
      ∧ Program (countUp.takeWhile (·.kind ≠ .eof)) countUpTree :=
  ⟨by with_unfolding_all rfl, program_derived (by with_unfolding_all rfl)⟩

end BisayaPlus.Parse
