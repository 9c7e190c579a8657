/-
Reading undoes printing.

A statement has no end mark, so that it is read back only in front of
tokens that do not belong to it (`Ends`): none that go on with its last
expression or list and, behind a conditional without last branch, neither
`KUNG DILI` nor `KUNG WALA`. In a list this holds because each statement
starts with a token that opens one (`Normal.head_statement`), and those
that open a statement and go on with an expression, too, are ruled out by
`Spaced`.

The main induction is on the normal tree (`Normal.returns`). A
conditional is read back in two ways, with its `KUNG` as a statement and
without it behind `KUNG DILI`, and the induction carries both.
-/
import BisayaPlus.Proofs.ParseComplete
import BisayaPlus.Proofs.Print

namespace BisayaPlus.Parse

open Grammar

variable {ts us xs ys rest : List Token} {stop t : Token} {sp : Spelling}

-- ============================================ reading back statements

/-- A statement that its first token opens is read back with what
follows the token. -/
theorem opened_is {r : Reply Stmt us} {s : Stmt} (h : r.Is s rest) :
    (r.bind (List.suffix_cons t us) fun s vs _ hv =>
      .parsed s vs [] hv).Is s rest :=
  h.bind fun _ _ => .parsed

theorem statement_of_opener (h : t.kind ∈ Phrase.openers) (us : List Token) :
    statement stop (t :: us)
      = (expression stop (t :: us)).map Stmt.expression := by
  rw [statement]
  split
  case h_6 => rfl
  all_goals
    next ht =>
      rw [ht] at h
      exact absurd h (by decide)

/-- What follows the first branch of a conditional: nothing, a further
condition or the last branch. -/
inductive BranchEnd (stop : Token) (condition : Expr) (body : Stmt) :
    List Token → Stmt → List Token → Prop where
  | ifThen {rest : List Token} :
      startsWith .kungDili rest = false → startsWith .kungWala rest = false →
      BranchEnd stop condition body rest (.ifThen condition body) rest
  | elseIf {kungDili : Token} {xs rest : List Token} {other : Stmt} :
      kungDili.kind = .kungDili → (conditional stop xs).Is other rest →
      BranchEnd stop condition body (kungDili :: xs)
        (.ifElse condition body other) rest
  | ifElse {kungWala pundok : Token} {xs rest : List Token} {other : Stmt} :
      kungWala.kind = .kungWala → pundok.kind = .pundok →
      (statement stop xs).Is other rest →
      BranchEnd stop condition body (kungWala :: pundok :: xs)
        (.ifElse condition body other) rest

/-- A conditional is read back from its head, its body and what its
branches end with. -/
theorem conditional_is {hs : List Token} {condition : Expr} {body s : Stmt}
    (hhead : Head hs condition) (hbody : (statement stop xs).Is body ys)
    (hend : BranchEnd stop condition body ys s rest) :
    (conditional stop (hs ++ xs)).Is s rest := by
  obtain ⟨hlp, hcondition, hrp, hpundok⟩ := hhead
  rename_i lp rp pundok cs
  rw [List.cons_append, List.append_assoc, conditional]
  have hfollows : Follows .assignment (rp :: pundok :: xs) := by
    refine .cons ?_ _
    rw [hrp]
    decide
  refine (expect_is hlp .conditionStart _).bind fun _ _ => ?_
  refine (expression_is hcondition hfollows).bind fun _ _ => ?_
  refine (expect_is hrp .conditionEnd _).bind fun _ _ => ?_
  refine (expect_is hpundok .bodyMark _).bind fun _ _ => ?_
  refine hbody.bind fun _ _ => ?_
  cases hend with
  | ifThen hdili hwala =>
      cases ys with
      | nil => exact .parsed
      | cons t us =>
          dsimp only
          rw [if_neg (of_decide_eq_false hdili),
            if_neg (of_decide_eq_false hwala)]
          exact .parsed
  | elseIf ht hother =>
      dsimp only
      rw [if_pos ht]
      exact hother.bind fun _ _ => .parsed
  | ifElse ht hpundok' hother =>
      dsimp only
      rw [if_neg (by simp [ht]), if_pos ht]
      refine (expect_is hpundok' .otherBodyMark _).bind fun _ _ => ?_
      exact hother.bind fun _ _ => .parsed

/-- A counting loop is read back from its three clauses and its body. -/
theorem counting_is {lp comma comma' rp pundok : Token} {fs cs ls : List Token}
    {first : Option Stmt} {condition last : Option Expr} {body : Stmt}
    (hlp : lp.kind = .leftParen) (hfirst : FirstClause fs first)
    (hcomma : comma.kind = .comma) (hcondition : Clause cs condition)
    (hcomma' : comma'.kind = .comma) (hlast : Clause ls last)
    (hrp : rp.kind = .rightParen) (hpundok : pundok.kind = .pundok)
    (hbody : (statement stop xs).Is body rest) :
    (counting stop
      (lp :: (fs ++ comma :: (cs ++ comma' :: (ls ++ rp :: pundok :: xs))))).Is
        (lowerLoop first condition last body) rest := by
  rw [counting]
  refine (expect_is hlp .clausesStart _).bind fun _ _ => ?_
  refine (firstClause_is hfirst hcomma _).bind fun _ _ => ?_
  refine (clause_is hcondition hcomma' (by decide) (by decide)
    .conditionClauseEnd _).bind fun _ _ => ?_
  refine (clause_is hlast hrp (by decide) (by decide) .clausesEnd _).bind
    fun _ _ => ?_
  refine (expect_is hpundok .bodyMark _).bind fun _ _ => ?_
  exact hbody.bind fun _ _ => .parsed

-- ============================================================== items

/-- The item was read without error, and these tokens are left. -/
def Item.Is (r : Item ts) (s : Stmt) (rest : List Token) : Prop :=
  ∃ h, r = ⟨some s, rest, [], h⟩

/-- The items were read without error, and these tokens are left. -/
def Items.Is (r : Items ts) (body : List Stmt) (rest : List Token) : Prop :=
  ∃ h, r = ⟨body, rest, [], h⟩

/-- A statement is read back as an item. -/
theorem item_of_statement {s : Stmt} (ht : t.kind ≠ .katapusan)
    (hmugna : t.kind ≠ .mugna) (h : (statement stop (t :: us)).Is s rest) :
    (item stop t us ht).Is s rest := by
  obtain ⟨hb, heq⟩ := h
  rw [item, if_neg hmugna, heq]
  exact ⟨hb, rfl⟩

/-- So is a declaration. -/
theorem item_of_declarations {s : Stmt} (ht : t.kind ≠ .katapusan)
    (hmugna : t.kind = .mugna) (h : (declarations stop us).Is s rest) :
    (item stop t us ht).Is s rest := by
  obtain ⟨hb, heq⟩ := opened_is (t := t) h
  rw [item, if_pos hmugna, heq]
  exact ⟨hb, rfl⟩

/-- A list of items is read back from its first item and the rest. -/
theorem items_cons {inBlock : Bool} {s : Stmt} {body : List Stmt}
    (hopen : closesItems inBlock t = false)
    (hitem : ∀ ht, (item stop t us ht).Is s ys)
    (hmore : (items stop inBlock ys).Is body rest) :
    (items stop inBlock (t :: us)).Is (s :: body) rest := by
  have hne : ¬closesItems inBlock t = true := by simp [hopen]
  obtain ⟨hb, hfirst⟩ := hitem (ne_katapusan_of_not_closes hne)
  obtain ⟨hs, hrest⟩ := hmore
  refine ⟨hs.trans hb.suffix, ?_⟩
  rw [items_of_not_closes hne]
  -- The tokens left are part of the types, so that both replies are
  -- replaced as a whole.
  generalize item stop t us _ = first at hfirst
  subst hfirst
  dsimp only
  generalize items stop inBlock ys = more at hrest
  subst hrest
  rfl

/-- A block is read back from its items. -/
theorem block_is {lb rb : Token} {body : List Stmt}
    (hlb : lb.kind = .leftBrace) (hrb : rb.kind = .rightBrace)
    (h : (items stop true us).Is body (rb :: rest)) :
    (statement stop (lb :: us)).Is (.block body) rest := by
  obtain ⟨hs, hitems⟩ := h
  have hblock : statement stop (lb :: us) =
      let r := items stop true us
      ((expect stop .rightBrace .blockEnd r.rest).bind
        (r.suffix.trans (List.suffix_cons lb us)) fun _ vs _ hv =>
          .parsed (.block r.body) vs [] hv).after r.errors := by
    simp only [statement, hlb]
  rw [hblock]
  generalize items stop true us = r at hitems
  subst hitems
  rw [Reply.after_nil]
  exact (expect_is hrb .blockEnd rest).bind fun _ _ => .parsed

/-- The list of items of a program ends at `KATAPUSAN`, and nothing is
left behind it. -/
theorem program_is {tokens : List Token} {sugod katapusan : Token}
    {stmts : List Stmt} (hbody : body tokens = sugod :: us)
    (hsugod : sugod.kind = .sugod) (hkatapusan : katapusan.kind = .katapusan)
    (h : (items (Parse.stop tokens) false us).Is stmts [katapusan]) :
    program tokens = .ok (.program stmts) := by
  obtain ⟨_, hitems⟩ := h
  simp [program, hbody, hsugod, hitems, closing, hkatapusan]

end BisayaPlus.Parse

namespace BisayaPlus

open Grammar Parse

variable {sp : Spelling} {rest : List Token}

-- ===================================== the parts of normal statements

/-- The word of a type stands for it. -/
theorem VarType.typeWord (type : VarType) : TypeWord type.kind type := by
  cases type <;> constructor

/-- A variable is printed as one. -/
theorem Declaration.Normal.derived {d : Declaration} (h : d.Normal)
    (sp : Spelling) :
    Grammar.Variable d.type (d.tokens sp) d := by
  obtain ⟨name, init, type⟩ := d
  obtain ⟨hname, hinit⟩ := h
  cases init with
  | none => exact .plain hname
  | some e =>
      exact .valued hname (sp.kind_sign _) ((hinit e rfl).expression sp)

/-- Variables of one type are printed as a list of them. -/
theorem Declaration.variables_derived {type : VarType} (d : Declaration)
    (ds : List Declaration) (hnormal : ∀ d' ∈ d :: ds, d'.Normal)
    (htype : ∀ d' ∈ d :: ds, d'.type = type) (sp : Spelling) :
    Variables type (sp.separated ((d :: ds).map (·.tokens sp))) (d :: ds) := by
  induction ds generalizing d with
  | nil =>
      have hd := (hnormal d List.mem_cons_self).derived sp
      rw [htype d List.mem_cons_self] at hd
      exact .one hd
  | cons d' ds ih =>
      have hd := (hnormal d List.mem_cons_self).derived sp
      rw [htype d List.mem_cons_self] at hd
      have hds := ih d' (fun x hx => hnormal x (List.mem_cons_of_mem _ hx))
        (fun x hx => htype x (List.mem_cons_of_mem _ hx))
      exact .more hd (sp.kind_sign _) hds

/-- Names are printed as a list of them. -/
theorem names_derived (name : Token) (names : List Token)
    (h : ∀ n ∈ name :: names, n.kind = .identifier) (sp : Spelling) :
    Names (sp.separated ((name :: names).map ([·]))) (name :: names) := by
  induction names generalizing name with
  | nil => exact .one (h name List.mem_cons_self)
  | cons name' names ih =>
      have hnames := ih name' fun n hn => h n (List.mem_cons_of_mem _ hn)
      exact .more (h name List.mem_cons_self) (sp.kind_sign _) hnames

namespace Stmt

/-- A condition is printed as the head of a conditional. -/
theorem head_derived {condition : Expr} (h : condition.Normal)
    (sp : Spelling) :
    Head (headTokens sp condition) condition :=
  .mk (sp.kind_sign _) (h.expression sp) (sp.kind_sign _) (sp.kind_sign _)

/-- A condition may be printed as a clause that is left out; what it
stands for is the condition all the same. -/
theorem condition_derived {condition : Expr} (h : condition.Normal)
    (sp : Spelling) :
    ∃ c, Clause (conditionTokens sp condition) c ∧
      c.getD (.literal (.truth true)) = condition := by
  rw [conditionTokens]
  split
  next htrue =>
    rw [Bool.and_eq_true, decide_eq_true_eq] at htrue
    exact ⟨none, .absent, htrue.2.symm⟩
  next => exact ⟨some condition, .present (h.expression sp), rfl⟩

/-- A clause is printed as one, also if it is left out. -/
theorem clause_derived {last : Option Expr} (h : ∀ e ∈ last, e.Normal)
    (sp : Spelling) :
    Clause (clauseTokens sp last) last := by
  cases last with
  | none => exact .absent
  | some e => exact .present ((h e rfl).expression sp)

/-- So is a first clause. -/
theorem first_derived {first : Option Stmt} (h : ∀ f ∈ first, FirstNormal f)
    (sp : Spelling) :
    FirstClause ((first.map (tokens sp)).getD []) first := by
  cases first with
  | none => exact .absent
  | some f =>
      cases h f rfl with
      | declare hd =>
          refine .declaration (sp.kind_sign _) ?_ (hd.derived sp)
          rw [sp.kind_sign]
          exact VarType.typeWord _
      | expression he =>
          rw [Option.map_some, Option.getD_some, tokens]
          exact .expression (he.expression sp)

-- =============================================== starts of statements

/-- The kinds of token that a statement can start with. -/
def openers : List Token.Kind :=
  [.kung, .alangSa, .ipakita, .dawat, .leftBrace] ++ Phrase.openers

/-- A statement starts with a token that opens one. -/
theorem Normal.head_statement {s : Stmt} (h : Normal sp .statement s) :
    ∃ t us, s.tokens sp = t :: us ∧ t.kind ∈ openers := by
  cases h with
  | expression he =>
      obtain ⟨t, us, htokens, ht⟩ := (he.expression sp).head
      refine ⟨t, us, ?_, List.mem_append_right _ ht⟩
      rw [tokens, htokens]
  | print hipakita he =>
      exact ⟨_, _, by rw [tokens], by simp [openers, hipakita]⟩
  | input hne hnames => exact ⟨_, _, by rw [tokens], by simp [openers]⟩
  | block hbody hspaced =>
      exact ⟨_, _, tokens_block sp fun s hs => (hbody s hs).isLoop,
        by simp [openers]⟩
  | ifThen hcondition hbody => exact ⟨_, _, by rw [tokens], by simp [openers]⟩
  | ifElse hcondition hbody hclosed hother =>
      exact ⟨_, _, by rw [tokens], by simp [openers]⟩
  | counting hfirst hcondition hlast hbody =>
      exact ⟨_, _, by rw [tokens_counting, countingTokens], by simp [openers]⟩

-- ================================================= ends of statements

/-- The tokens do not belong to the statement in front of them. -/
structure Ends (s : Stmt) (rest : List Token) : Prop where
  separates : Separates rest
  closed : EndsOpen s →
    startsWith .kungDili rest = false ∧ startsWith .kungWala rest = false

/-- A token that goes on with nothing ends every statement. -/
theorem Ends.cons {s : Stmt} {t : Token}
    (h : t.kind ∉ .kungDili :: .kungWala :: .comma :: Follows.continuing)
    (us : List Token) :
    Ends s (t :: us) where
  separates :=
    .cons (fun ht => h (List.mem_cons_of_mem _ (List.mem_cons_of_mem _ ht))) us
  closed _ := by
    refine ⟨decide_eq_false fun ht => h ?_, decide_eq_false fun ht => h ?_⟩
    · rw [ht]
      exact List.mem_cons_self
    · rw [ht]
      exact List.mem_cons_of_mem _ List.mem_cons_self

/-- What ends a statement ends those that leave less open. -/
theorem Ends.mono {s s' : Stmt} (h : Ends s' rest)
    (hopen : EndsOpen s → EndsOpen s') :
    Ends s rest :=
  ⟨h.separates, fun hs => h.closed (hopen hs)⟩

/-- A closed statement ends before any token that goes on with no
expression and no list. -/
theorem Ends.of_closed {s : Stmt} (hclosed : ¬EndsOpen s)
    (h : Separates rest) : Ends s rest :=
  ⟨h, fun hopen => absurd hopen hclosed⟩

/-- A statement ends before the first token of the next one. -/
theorem Ends.of_opener {s : Stmt} {t : Token} (ht : t.kind ∈ .mugna :: openers)
    (hspaced : t.kind ∉ [.minus, .dollar, .leftParen]) (us : List Token) :
    Ends s (t :: us) := by
  have hopeners : ∀ kind ∈ .mugna :: openers,
      kind ∉ [.minus, .dollar, .leftParen] →
      kind ∉ .kungDili :: .kungWala :: .comma :: Follows.continuing := by
    decide
  exact .cons (hopeners t.kind ht hspaced) us

-- =================================================== reading back lists

/-- The statement is read back from its tokens, and a conditional also
from those behind its `KUNG`. -/
structure Back (sp : Spelling) (s : Stmt) : Prop where
  statement : ∀ stop rest,
    Ends s rest → (statement stop (s.tokens sp ++ rest)).Is s rest
  conditional : s.isConditional = true → ∀ stop rest, Ends s rest →
    (conditional stop ((s.tokens sp).tail ++ rest)).Is s rest

/-- The statement is read back as an item. -/
def ItemBack (sp : Spelling) (s : Stmt) : Prop :=
  ∃ t us, s.tokens sp = t :: us ∧ t.kind ∈ .mugna :: openers
    ∧ ∀ stop rest ht, Ends s rest → (item stop t (us ++ rest) ht).Is s rest

/-- Items that are read back one by one are read back as a list, in front
of the token that closes it. -/
theorem items_is {inBlock : Bool} {body : List Stmt}
    (hbody : ∀ s ∈ body, ItemBack sp s) (hspaced : Spaced sp body)
    {stop close : Token} (hclose : closesItems inBlock close = true)
    (rest : List Token) :
    (items stop inBlock (tokensAll sp body ++ close :: rest)).Is body
      (close :: rest) := by
  have hkind : close.kind = .katapusan ∨ close.kind = .rightBrace := by
    rw [closesItems, Bool.or_eq_true, Bool.and_eq_true, decide_eq_true_eq,
      decide_eq_true_eq] at hclose
    exact hclose.imp_right And.right
  induction body with
  | nil =>
      rw [tokensAll, List.nil_append, items_of_closes hclose]
      exact ⟨List.suffix_refl _, rfl⟩
  | cons s body ih =>
      obtain ⟨t, us, htokens, ht, hitem⟩ := hbody s List.mem_cons_self
      have hmore := ih (fun s' hs' => hbody s' (List.mem_cons_of_mem _ hs'))
        fun s' hs' => hspaced s' (List.mem_of_mem_tail hs')
      have hends : Ends s (tokensAll sp body ++ close :: rest) := by
        cases body with
        | nil =>
            refine .cons ?_ rest
            rcases hkind with h | h <;> rw [h] <;> decide
        | cons s' body =>
            obtain ⟨t', us', htokens', ht', -⟩ := hbody s' (by simp)
            have hspace := hspaced s' (by simp) t' (by rw [htokens']; rfl)
            rw [tokensAll, htokens']
            exact .of_opener ht' hspace _
      have hopen : closesItems inBlock t = false := by
        have hopeners : ∀ kind ∈ .mugna :: openers,
            kind ≠ .katapusan ∧ kind ≠ .rightBrace := by
          decide
        obtain ⟨hkatapusan, hbrace⟩ := hopeners t.kind ht
        simp [closesItems, hkatapusan, hbrace]
      rw [tokensAll, htokens, List.append_assoc, List.cons_append]
      exact items_cons hopen (fun ht => hitem stop _ ht hends) hmore

-- ============================================= reading back statements

/-- A statement that is no conditional is read back in one way. -/
theorem Back.of_statement {s : Stmt} (hs : s.isConditional = false)
    (h : ∀ stop rest,
      Ends s rest → (Parse.statement stop (s.tokens sp ++ rest)).Is s rest) :
    Back sp s :=
  ⟨h, fun hc => absurd hc (by simp [hs])⟩

/-- A conditional is read back behind its `KUNG`, and so with it. -/
theorem Back.of_conditional {s : Stmt} {us : List Token}
    (htokens : s.tokens sp = sp.sign .kung :: us)
    (h : ∀ stop rest,
      Ends s rest → (Parse.conditional stop (us ++ rest)).Is s rest) :
    Back sp s where
  statement stop rest hends := by
    rw [htokens, List.cons_append]
    simp only [Parse.statement, sp.kind_sign]
    exact opened_is (h stop rest hends)
  conditional _ stop rest hends := by
    rw [htokens]
    exact h stop rest hends

/-- A statement that is read back is read back as an item. -/
theorem ItemBack.of_back {s : Stmt} (hnormal : Normal sp .statement s)
    (h : Back sp s) :
    ItemBack sp s := by
  obtain ⟨t, us, htokens, ht⟩ := hnormal.head_statement
  refine ⟨t, us, htokens, List.mem_cons_of_mem _ ht,
    fun stop rest hne hends => ?_⟩
  have hmugna : t.kind ≠ .mugna := by
    intro heq
    rw [heq] at ht
    exact absurd ht (by decide)
  have hstatement := h.statement stop rest hends
  rw [htokens] at hstatement
  exact item_of_statement hne hmugna hstatement

/-- A declaration is read back as an item. -/
theorem ItemBack.declareAll {ds : List Declaration} {type : VarType}
    (hne : ds ≠ []) (hnormal : ∀ d ∈ ds, d.Normal)
    (htype : ∀ d ∈ ds, d.type = type) :
    ItemBack sp (.declareAll ds) := by
  cases ds with
  | nil => exact absurd rfl hne
  | cons d ds =>
      have hvariables := Declaration.variables_derived d ds hnormal htype sp
      have hword : TypeWord (sp.sign d.type.kind).kind type := by
        rw [sp.kind_sign, htype d List.mem_cons_self]
        exact type.typeWord
      refine ⟨sp.sign .mugna, _, by rw [tokens, Declaration.opening]; rfl,
        by simp, ?_⟩
      intro stop rest hkatapusan hends
      exact item_of_declarations hkatapusan (sp.kind_sign _)
        (declarations_is hword hvariables hends.separates)

/-- An expression is read back as a statement. -/
theorem Back.expression {e : Expr} (he : e.Normal) :
    Back sp (.expression e) := by
  refine .of_statement rfl fun stop rest hends => ?_
  have hread : (Parse.expression stop (e.tokens sp ++ rest)).Is e rest :=
    expression_is (he.expression sp) hends.separates.follows
  obtain ⟨t, us, htokens, ht⟩ := (he.expression sp).head
  rw [tokens, htokens, List.cons_append, statement_of_opener ht,
    ← List.cons_append, ← htokens]
  exact hread.map

theorem Back.print {ipakita : Token} {e : Expr}
    (hipakita : ipakita.kind = .ipakita) (he : e.Normal) :
    Back sp (.print ipakita e) := by
  refine .of_statement rfl fun stop rest hends => ?_
  simp only [tokens, List.cons_append, Parse.statement, hipakita]
  exact opened_is
    (printed_is (sp.kind_sign _) (he.expression sp) hends.separates)

theorem Back.input {names : List Token} (hne : names ≠ [])
    (hnames : ∀ name ∈ names, name.kind = .identifier) :
    Back sp (.input names) := by
  cases names with
  | nil => exact absurd rfl hne
  | cons name names =>
      refine .of_statement rfl fun stop rest hends => ?_
      simp only [tokens, List.cons_append, Parse.statement, sp.kind_sign]
      exact opened_is
        (names_is (sp.kind_sign _) (names_derived name names hnames sp)
          hends.separates)

/-- A block is read back if its items are, and if none of them swallows the
next. -/
theorem Back.block {body : List Stmt} (hbody : ∀ s ∈ body, ItemBack sp s)
    (hloops : ∀ s ∈ body, s.isLoop = false) (hspaced : Spaced sp body) :
    Back sp (.block body) := by
  refine .of_statement rfl fun stop rest _ => ?_
  rw [tokens_block sp hloops, List.cons_append, List.append_assoc]
  refine block_is (sp.kind_sign _) (sp.kind_sign .rightBrace)
    (items_is hbody hspaced ?_ rest)
  simp [closesItems]

/-- A conditional is read back if its body is. -/
theorem Back.ifThen {condition : Expr} {body : Stmt}
    (hcondition : condition.Normal) (hbody : Back sp body) :
    Back sp (.ifThen condition body) := by
  refine .of_conditional (by rw [tokens]) fun stop rest hends => ?_
  obtain ⟨hdili, hwala⟩ := hends.closed .ifThen
  rw [List.append_assoc]
  have hends' : Ends body rest := ⟨hends.separates, fun _ => ⟨hdili, hwala⟩⟩
  exact conditional_is (head_derived hcondition sp)
    (hbody.statement stop rest hends') (.ifThen hdili hwala)

/-- The first branch is closed, so that what follows it is not taken as
its own. -/
theorem Back.ifElse {condition : Expr} {body other : Stmt}
    (hcondition : condition.Normal) (hbody : Back sp body)
    (hclosed : ¬EndsOpen body) (hother : Back sp other) :
    Back sp (.ifElse condition body other) := by
  refine .of_conditional (by rw [tokens]) fun stop rest hends => ?_
  have hends' : Ends other rest := hends.mono .ifElse
  have hread : ∀ {t : Token} {us : List Token}
      (_ : t.kind = .kungDili ∨ t.kind = .kungWala),
      (Parse.statement stop (body.tokens sp ++ t :: us)).Is body (t :: us) :=
    fun ht => by
    refine hbody.statement stop _ (.of_closed hclosed (.cons ?_ _))
    rcases ht with ht | ht <;> rw [ht] <;> decide
  rw [List.append_assoc, List.append_assoc, otherTokens]
  by_cases hjoined : (sp.joins && other.isConditional) = true
  · rw [if_pos hjoined]
    rw [Bool.and_eq_true] at hjoined
    exact conditional_is (head_derived hcondition sp)
      (hread (.inl (sp.kind_sign _)))
      (.elseIf (sp.kind_sign _)
        (hother.conditional hjoined.2 stop rest hends'))
  · rw [if_neg hjoined]
    exact conditional_is (head_derived hcondition sp)
      (hread (.inr (sp.kind_sign _)))
      (.ifElse (sp.kind_sign _) (sp.kind_sign _)
        (hother.statement stop rest hends'))

/-- A counting loop is read back if its body is. -/
theorem Back.counting {first : Option Stmt} {condition : Expr}
    {last : Option Expr} {body : Stmt} (hfirst : ∀ f ∈ first, FirstNormal f)
    (hcondition : condition.Normal) (hlast : ∀ e ∈ last, e.Normal)
    (hbody : Back sp body) :
    Back sp (counting first condition last body) := by
  refine .of_statement rfl fun stop rest hends => ?_
  obtain ⟨c, hclause, hc⟩ := condition_derived hcondition sp
  have hread := counting_is (sp.kind_sign .leftParen) (first_derived hfirst sp)
    (sp.kind_sign .comma) hclause (sp.kind_sign .comma)
    (clause_derived hlast sp)
    (sp.kind_sign .rightParen) (sp.kind_sign .pundok)
    (hbody.statement stop rest (hends.mono .counting))
  rw [lowerLoop, hc] at hread
  rw [tokens_counting, countingTokens_append, countingTokens]
  simp only [Parse.statement, sp.kind_sign]
  exact opened_is hread

/-- What is read back of a normal statement, by its role. -/
def Returns (sp : Spelling) : Role → Stmt → Prop
  | .item, s => ItemBack sp s
  | _, s => Back sp s

/-- Every normal tree is read back. The induction follows the rules by
which trees are normal. -/
theorem Normal.returns {r : Role} {s : Stmt} (h : Normal sp r s) :
    Returns sp r s := by
  induction h with
  | declareAll hne hnormal htype => exact ItemBack.declareAll hne hnormal htype
  | item h ih => exact ItemBack.of_back h ih
  | expression he => exact Back.expression he
  | print hipakita he => exact Back.print hipakita he
  | input hne hnames => exact Back.input hne hnames
  | block hbody hspaced ih =>
      exact Back.block ih (fun s hs => (hbody s hs).isLoop) hspaced
  | ifThen hcondition _ ih => exact Back.ifThen hcondition ih
  | ifElse hcondition _ hclosed _ ihbody ihother =>
      exact Back.ifElse hcondition ihbody hclosed ihother
  | counting hfirst hcondition hlast _ ih =>
      exact Back.counting hfirst hcondition hlast ih

-- ========================================================= end tokens

/-- A list of statements has no end token in it. -/
theorem noEnd_tokensAll {body : List Stmt}
    (h : ∀ s ∈ body, NoEnd (s.tokens sp)) :
    NoEnd (tokensAll sp body) := by
  induction body with
  | nil =>
      rw [tokensAll]
      exact noEnd_nil
  | cons s body ih =>
      rw [tokensAll, noEnd_append]
      exact ⟨h s List.mem_cons_self,
        ih fun s' hs' => h s' (List.mem_cons_of_mem _ hs')⟩

/-- What comes before the first end token is cut out as it is. -/
theorem body_append {ts tail : List Token} (hts : NoEnd ts)
    (htail : ∀ t ∈ tail.head?, t.kind = .eof) :
    Parse.body (ts ++ tail) = ts := by
  have hnil : tail.takeWhile (·.kind ≠ .eof) = [] := by
    cases tail with
    | nil => rfl
    | cons t us => simp [htail t rfl]
  rw [Parse.body, List.takeWhile_append_of_pos (by simpa [NoEnd] using hts),
    hnil, List.append_nil]

/-- No part of a normal statement is an end token, at which reading would
stop. -/
theorem Normal.noEnd {r : Role} {s : Stmt} (h : Normal sp r s) :
    NoEnd (s.tokens sp) := by
  induction h with
  | @declareAll ds type hne hnormal htype =>
      cases ds with
      | nil => exact absurd rfl hne
      | cons d ds =>
          have hvariables :=
            (Declaration.variables_derived d ds hnormal htype sp).noEnd
          have hword : d.type.kind ≠ .eof := by cases d.type <;> decide
          rw [tokens, Declaration.opening, noEnd_append]
          exact ⟨by simp [hword], hvariables⟩
  | item _ ih => exact ih
  | expression he =>
      rw [tokens]
      exact (he.expression sp).noEnd
  | print hipakita he =>
      rw [tokens]
      simp [hipakita, (he.expression sp).noEnd]
  | @input names hne hnames =>
      cases names with
      | nil => exact absurd rfl hne
      | cons name names =>
          have hderived := (names_derived name names hnames sp).noEnd
          rw [tokens, noEnd_cons, noEnd_cons]
          exact ⟨by simp, by simp, hderived⟩
  | @block body hbody hspaced ih =>
      rw [tokens_block sp fun s hs => (hbody s hs).isLoop]
      simp [noEnd_tokensAll ih]
  | ifThen hcondition _ ih =>
      rw [tokens]
      simp [(head_derived hcondition sp).noEnd, ih]
  | @ifElse _ _ other hcondition _ _ _ ihbody ihother =>
      have htail : NoEnd (other.tokens sp).tail := fun t ht =>
        ihother t (List.mem_of_mem_tail ht)
      rw [tokens, otherTokens]
      split <;> simp [(head_derived hcondition sp).noEnd, ihbody,
        ihother, htail]
  | counting hfirst hcondition hlast _ ih =>
      obtain ⟨c, hclause, -⟩ := condition_derived hcondition sp
      rw [tokens_counting, countingTokens]
      simp [(first_derived hfirst sp).noEnd, hclause.noEnd,
        (clause_derived hlast sp).noEnd, ih]

-- ============================================================ programs

/-- Reading undoes printing: the tokens of a normal program are read as
that program, whether they are all there is or an end token follows. -/
theorem program_tokens {p : Stmt} (h : p.NormalProgram sp) {tail : List Token}
    (htail : ∀ t ∈ tail.head?, t.kind = .eof) :
    Parse.program (p.tokens sp ++ tail) = .ok p := by
  obtain ⟨hbody, hspaced⟩ := h
  rename_i body
  have hnoEnd : NoEnd ((program body).tokens sp) := by
    rw [tokens]
    simp [noEnd_tokensAll fun s hs => (hbody s hs).noEnd]
  have hcut : Parse.body ((program body).tokens sp ++ tail)
      = (program body).tokens sp :=
    body_append hnoEnd htail
  rw [tokens] at hcut
  refine program_is hcut (sp.kind_sign _) (sp.kind_sign .katapusan)
    (items_is (fun s hs => (hbody s hs).returns) hspaced ?_ [])
  simp [closesItems]

end Stmt

/-- A spelling with the names of the kinds as words, which writes line
breaks as `$`, leaves true conditions out and joins conditionals. -/
def Spelling.plain : Spelling where
  sign kind := ⟨kind, kind.name, none, ⟨1, 1⟩⟩
  kind_sign _ := rfl
  literal
    | .number x =>
        ⟨.number, Value.display (.number x), some (.number x), ⟨1, 1⟩⟩
    | .truth true => ⟨.oo, "OO", none, ⟨1, 1⟩⟩
    | .truth false => ⟨.dili, "DILI", none, ⟨1, 1⟩⟩
    | .char '\n' => ⟨.dollar, "$", none, ⟨1, 1⟩⟩
    | .char c => ⟨.character, String.singleton c, some (.char c), ⟨1, 1⟩⟩
    | .text s => ⟨.string, s, some (.text s), ⟨1, 1⟩⟩
    | .null => ⟨.number, "", none, ⟨1, 1⟩⟩
  literal_phrase v := by
    split
    next => exact .literal (by simp)
    next => exact .oo rfl
    next => exact .dili rfl
    next => exact .newline rfl
    next => exact .literal (by simp)
    next => exact .literal (by simp)
    next => exact .literal (by simp)
  omitsTrue := true
  joins := true

namespace Stmt

/-- A loop without condition around a conditional with two branches, and
a statement `x` behind it. -/
def knot : Stmt :=
  let x : Token := ⟨.identifier, "x", none, ⟨2, 3⟩⟩
  let minus : Token := ⟨.minus, "-", none, ⟨2, 7⟩⟩
  let dili : Token := ⟨.dili, "DILI", none, ⟨3, 5⟩⟩
  let ipakita : Token := ⟨.ipakita, "IPAKITA", none, ⟨4, 5⟩⟩
  let shown :=
    .binary (.binary (.var x) minus (.var x)) minus (.literal (.char '\n'))
  .program
    [ counting (some (.declare ⟨x, none, .numero⟩)) (.literal (.truth true))
        (some (.increment x))
        (.ifElse (.unary dili (.grouping (.var x)))
          (.block [.print ipakita shown])
          (.ifThen (.var x)
            (.expression (.assign x (.assign x (.literal (.truth false))))))),
      .expression (.var x) ]

/-- The conditional of `knot` is printed with `KUNG DILI`, and its loop
without condition. -/
theorem program_tokens_knot :
    knot.NormalProgram Spelling.plain
      ∧ Parse.program (knot.tokens Spelling.plain ++ [Token.endOfText ⟨9, 1⟩])
        = .ok knot := by
  have hblock : ∀ e,
      EndsOpen (.block [.print ⟨.ipakita, "IPAKITA", none, ⟨4, 5⟩⟩ e]) →
      False :=
    fun e => not_endsOpen_block (by simp [isLoop])
  have hnormal : knot.NormalProgram Spelling.plain := by
    refine .mk ?_ ?_
    · refine List.forall_mem_cons.2 ⟨?_, List.forall_mem_singleton.2 ?_⟩
      · refine .item (.counting ?_ .literal ?_ ?_)
        · rintro _ ⟨⟩
          exact .declare ⟨rfl, by simp⟩
        · rintro _ ⟨⟩
          exact .increment rfl
        · refine .ifElse (.negation rfl (.var rfl)) ?_ (hblock _) ?_
          · refine .block (List.forall_mem_singleton.2 (.item (.print rfl ?_)))
              (by simp [Spaced])
            refine .binary rfl (.binary rfl (.var rfl) (.var rfl) ?_ ?_)
              .literal ?_ ?_
            all_goals decide
          · exact .ifThen (.var rfl)
              (.expression (.assign rfl (.assign rfl .literal)))
      · exact .item (.expression (.var rfl))
    · intro s hs t ht
      obtain rfl := List.mem_singleton.1 hs
      simp only [tokens, Expr.tokens, List.head?_cons,
        Option.mem_some_iff] at ht
      subst ht
      decide
  exact ⟨hnormal, program_tokens hnormal (by simp [Token.endOfText])⟩

end Stmt

end BisayaPlus
