/-
The grammar of programs.

The grammar is stated as what derivations build, apart from how a program
is read: `Phrase l ts e` says that the tokens `ts` are an expression of
level `l` and that `e` is its tree, and `Sentence r ts s` says the same of
statements. A derivation uses the tokens of its list in order, each of
them once, and there is no other way to build a tree.

Expressions have nine levels. An assignment nests to the right; the six
levels of binary operators are chains that fold to the left, so that the
left side of an operator is of the operator's own level and the right
side is of the next tighter one. A word such as `DILI` is the negation
only right before a parenthesis.

There is no tree for a counting loop. Its rule builds a block with the
first clause and a loop, whose body is a block with the body of the
counting loop and its last clause.
-/
import BisayaPlus.Tree.Basic

namespace BisayaPlus.Grammar

-- ========================================================= expressions

/-- The levels of expressions, from the loosest to the tightest. -/
inductive Level where
  | assignment
  | disjunction
  | conjunction
  | equality
  | comparison
  | sum
  | product
  | unary
  | primary
deriving DecidableEq, Repr

/-- The next tighter level. -/
def Level.tighter : Level → Option Level
  | assignment => some disjunction
  | disjunction => some conjunction
  | conjunction => some equality
  | equality => some comparison
  | comparison => some sum
  | sum => some product
  | product => some unary
  | unary => some primary
  | primary => none

/-- How tight a level is. -/
def Level.rank : Level → Nat
  | assignment => 0
  | disjunction => 1
  | conjunction => 2
  | equality => 3
  | comparison => 4
  | sum => 5
  | product => 6
  | unary => 7
  | primary => 8

theorem Level.rank_tighter {l l' : Level} (h : l.tighter = some l') :
    l'.rank = l.rank + 1 := by
  cases l <;> cases h <;> rfl

/-- A level is known by its rank. -/
theorem Level.rank_injective {l l' : Level} (h : l.rank = l'.rank) :
    l = l' := by
  cases l <;> cases l' <;> first | rfl | cases h

/-- What goes from each level to the next looser one goes to all looser
ones. -/
theorem Level.descend {P : Level → Prop}
    (step : ∀ {l l'}, l.tighter = some l' → P l' → P l) {l l' : Level}
    (hl : l.rank ≤ l'.rank) (h : P l') : P l := by
  -- The induction is on how many levels are between the two.
  generalize hn : l'.rank - l.rank = n
  induction n generalizing l with
  | zero =>
      obtain rfl : l = l' := Level.rank_injective (by omega)
      exact h
  | succ n ih =>
      cases ht : l.tighter with
      | none =>
          cases l with
          | primary => cases l' <;> simp [Level.rank] at hn hl
          | _ => cases ht
      | some m =>
          have hm := Level.rank_tighter ht
          exact step ht (ih (by omega) (by omega))

/-- The tokens are an expression of the level, and this is its tree. -/
inductive Phrase : Level → List Token → Expr → Prop where
  -- A phrase of a level is one of every looser level, too.
  | lift {l l' : Level} {ts : List Token} {e : Expr} :
      l.tighter = some l' → Phrase l' ts e → Phrase l ts e
  -- name "=" assignment
  | assign {name eq : Token} {ts : List Token} {e : Expr} :
      name.kind = .identifier → eq.kind = .assign → Phrase .assignment ts e →
      Phrase .assignment (name :: eq :: ts) (.assign name e)
  -- The chains of binary operators.
  | disjunction {op : Token} {ts us : List Token} {l r : Expr} :
      Phrase .disjunction ts l → op.kind = .o → Phrase .conjunction us r →
      Phrase .disjunction (ts ++ op :: us) (.logical l op r)
  | conjunction {op : Token} {ts us : List Token} {l r : Expr} :
      Phrase .conjunction ts l → op.kind = .ug → Phrase .equality us r →
      Phrase .conjunction (ts ++ op :: us) (.logical l op r)
  | equality {op : Token} {ts us : List Token} {l r : Expr} :
      Phrase .equality ts l → op.kind ∈ [.equalEqual, .notEqual] →
      Phrase .comparison us r →
      Phrase .equality (ts ++ op :: us) (.binary l op r)
  | comparison {op : Token} {ts us : List Token} {l r : Expr} :
      Phrase .comparison ts l →
      op.kind ∈ [.greater, .greaterEqual, .less, .lessEqual] →
      Phrase .sum us r → Phrase .comparison (ts ++ op :: us) (.binary l op r)
  | sum {op : Token} {ts us : List Token} {l r : Expr} :
      Phrase .sum ts l → op.kind ∈ [.plus, .minus, .ampersand, .dollar] →
      Phrase .product us r →
      Phrase .sum (ts ++ op :: us) (.binary l op r)
  | product {op : Token} {ts us : List Token} {l r : Expr} :
      Phrase .product ts l → op.kind ∈ [.star, .slash, .percent] →
      Phrase .unary us r →
      Phrase .product (ts ++ op :: us) (.binary l op r)
  -- "-" unary, and "DILI" unary where a parenthesis follows
  | minus {op : Token} {ts : List Token} {e : Expr} :
      op.kind = .minus → Phrase .unary ts e →
      Phrase .unary (op :: ts) (.unary op e)
  | negation {op paren : Token} {ts : List Token} {e : Expr} :
      op.kind = .dili → paren.kind = .leftParen →
      Phrase .unary (paren :: ts) e →
      Phrase .unary (op :: paren :: ts) (.unary op e)
  -- Single tokens; `$` alone is a line break.
  | oo {t : Token} : t.kind = .oo → Phrase .primary [t]
      (.literal (.truth true))
  | dili {t : Token} : t.kind = .dili → Phrase .primary [t]
      (.literal (.truth false))
  | literal {t : Token} :
      t.kind ∈ [.number, .string, .character, .escapeCode] →
      Phrase .primary [t] (.literal (t.literal.getD .null))
  | newline {t : Token} : t.kind = .dollar → Phrase .primary [t]
      (.literal (.char '\n'))
  | name {t : Token} : t.kind = .identifier → Phrase .primary [t] (.var t)
  -- name "+" "+"
  | increment {name p q : Token} :
      name.kind = .identifier → p.kind = .plus → q.kind = .plus →
      Phrase .primary [name, p, q] (.increment name)
  -- "(" expression ")"
  | grouping {open' close : Token} {ts : List Token} {e : Expr} :
      open'.kind = .leftParen → Phrase .assignment ts e →
      close.kind = .rightParen →
      Phrase .primary (open' :: (ts ++ [close])) (.grouping e)

namespace Phrase

variable {l : Level} {ts : List Token} {e : Expr}

/-- The kinds of token that a phrase can start with. -/
def openers : List Token.Kind :=
  [.minus, .dili, .oo, .number, .string, .character, .escapeCode, .dollar,
    .identifier, .leftParen]

/-- A phrase starts with a token that opens one. -/
theorem head (h : Phrase l ts e) :
    ∃ t us, ts = t :: us ∧ t.kind ∈ openers := by
  induction h with
  | lift _ _ ih => exact ih
  | assign h | minus h | negation h | oo h | dili h | newline h | name h
    | increment h
  | grouping h => exact ⟨_, _, rfl, by simp [openers, h]⟩
  | literal h =>
      refine ⟨_, _, rfl, ?_⟩
      simp only [List.mem_cons, List.not_mem_nil, or_false] at h
      rcases h with h | h | h | h <;> simp [openers, h]
  | disjunction _ _ _ ih | conjunction _ _ _ ih | equality _ _ _ ih
    | comparison _ _ _ ih
  | sum _ _ _ ih | product _ _ _ ih =>
      obtain ⟨t, us, rfl, ht⟩ := ih
      exact ⟨t, _, rfl, ht⟩

theorem ne_nil (h : Phrase l ts e) : ts ≠ [] := by
  obtain ⟨t, us, rfl, _⟩ := h.head
  exact List.cons_ne_nil t us

/-- A phrase is one of every looser level. -/
theorem loosen {l' : Level} (hl : l.rank ≤ l'.rank) (h : Phrase l' ts e) :
    Phrase l ts e :=
  Level.descend (P := fun l => Phrase l ts e) Phrase.lift hl h

/-- A phrase whose tree is a name is that name alone, whatever its level:
this is why the target of an assignment can be judged by its tree. -/
theorem of_var {name : Token} (h : Phrase l ts (.var name)) :
    ts = [name] ∧ name.kind = .identifier := by
  generalize he : Expr.var name = e at h
  induction h with
  | lift _ _ ih => exact ih he
  | name ht => cases he; exact ⟨rfl, ht⟩
  | _ => cases he

end Phrase

-- ================================================ parts of statements

/-- The words that name types. -/
inductive TypeWord : Token.Kind → VarType → Prop where
  | numero : TypeWord .numero .numero
  | tipik : TypeWord .tipik .tipik
  | letra : TypeWord .letra .letra
  | tinuod : TypeWord .tinuod .tinuod

/-- One variable of a declaration: name ["=" expression]. -/
inductive Variable (type : VarType) : List Token → Declaration → Prop where
  | plain {name : Token} : name.kind = .identifier → Variable type
      [name] ⟨name, none, type⟩
  | valued {name eq : Token} {ts : List Token} {e : Expr} :
      name.kind = .identifier → eq.kind = .assign → Phrase .assignment ts e →
      Variable type (name :: eq :: ts) ⟨name, some e, type⟩

/-- Variables of one type, with commas between them. -/
inductive Variables (type : VarType) :
    List Token → List Declaration → Prop where
  | one {ts : List Token} {d : Declaration} : Variable type ts d →
      Variables type ts [d]
  | more {comma : Token} {ts us : List Token} {d : Declaration}
      {ds : List Declaration} :
      Variable type ts d → comma.kind = .comma → Variables type us ds →
      Variables type (ts ++ comma :: us) (d :: ds)

/-- A further variable stands behind a comma. -/
theorem Variables.append {type : VarType} {comma : Token} {ts us : List Token}
    {d : Declaration} {ds : List Declaration} (h : Variables type ts ds)
    (hcomma : comma.kind = .comma) (hd : Variable type us d) :
    Variables type (ts ++ comma :: us) (ds ++ [d]) := by
  induction h with
  | one h => exact .more h hcomma (.one hd)
  | more h hcomma' _ ih =>
      rw [List.append_assoc]
      exact .more h hcomma' ih

/-- Names with commas between them. -/
inductive Names : List Token → List Token → Prop where
  | one {name : Token} : name.kind = .identifier → Names [name] [name]
  | more {name comma : Token} {ts names : List Token} :
      name.kind = .identifier → comma.kind = .comma → Names ts names →
      Names (name :: comma :: ts) (name :: names)

/-- A further name stands behind a comma. -/
theorem Names.append {name comma : Token} {ts names : List Token}
    (h : Names ts names) (hcomma : comma.kind = .comma)
    (hname : name.kind = .identifier) :
    Names (ts ++ [comma, name]) (names ++ [name]) := by
  induction h with
  | one h => exact .more h hcomma (.one hname)
  | more h hcomma' _ ih => exact .more h hcomma' ih

/-- A clause of a counting loop, which may be left out. -/
inductive Clause : List Token → Option Expr → Prop where
  | absent : Clause [] none
  | present {ts : List Token} {e : Expr} : Phrase .assignment ts e → Clause ts
      (some e)

/-- The first clause of a counting loop, which may also declare a
variable. -/
inductive FirstClause : List Token → Option Stmt → Prop where
  | absent : FirstClause [] none
  | declaration {mugna word : Token} {type : VarType} {ts : List Token}
      {d : Declaration} :
      mugna.kind = .mugna → TypeWord word.kind type → Variable type ts d →
      FirstClause (mugna :: word :: ts) (some (.declare d))
  | expression {ts : List Token} {e : Expr} :
      Phrase .assignment ts e → FirstClause ts (some (.expression e))

/-- The head of a branch: "(" expression ")" "PUNDOK". -/
inductive Head : List Token → Expr → Prop where
  | mk {open' close pundok : Token} {ts : List Token} {e : Expr} :
      open'.kind = .leftParen → Phrase .assignment ts e →
      close.kind = .rightParen →
      pundok.kind = .pundok → Head (open' :: (ts ++ [close, pundok])) e

-- ========================================================= end tokens

/-- No token of the list ends a text. -/
def NoEnd (ts : List Token) : Prop := ∀ t ∈ ts, t.kind ≠ .eof

@[simp] theorem noEnd_nil : NoEnd [] := by simp [NoEnd]

@[simp] theorem noEnd_cons {t : Token} {ts : List Token} :
    NoEnd (t :: ts) ↔ t.kind ≠ .eof ∧ NoEnd ts := by
  simp [NoEnd]

@[simp] theorem noEnd_append {ts us : List Token} :
    NoEnd (ts ++ us) ↔ NoEnd ts ∧ NoEnd us := by
  simp [NoEnd, or_imp, forall_and]

section

variable {l : Level} {type : VarType} {ts names : List Token} {e : Expr}

/-- There is no end token in a phrase. -/
theorem Phrase.noEnd (h : Phrase l ts e) : NoEnd ts := by
  have hmem : ∀ {kind : Token.Kind} {kinds : List Token.Kind},
      kind ∈ kinds → .eof ∉ kinds → kind ≠ .eof := fun hkind heof heq =>
      heof (heq ▸ hkind)
  induction h with
  | lift _ _ ih => exact ih
  | assign hname heq _ ih => simp [hname, heq, ih]
  | disjunction _ hop _ ihl ihr | conjunction _ hop _ ihl ihr =>
      simp [hop, ihl, ihr]
  | equality _ hop _ ihl ihr | comparison _ hop _ ihl ihr | sum _ hop _ ihl ihr
  | product _ hop _ ihl ihr =>
      rw [noEnd_append, noEnd_cons]
      exact ⟨ihl, hmem hop (by decide), ihr⟩
  | minus hop _ ih => simp [hop, ih]
  | negation hop _ _ ih => exact noEnd_cons.2 ⟨by simp [hop], ih⟩
  | literal ht => exact noEnd_cons.2 ⟨hmem ht (by decide), noEnd_nil⟩
  | oo ht | dili ht | newline ht | name ht => simp [ht]
  | increment hname hp hq => simp [hname, hp, hq]
  | grouping hopen _ hclose ih => simp [hopen, hclose, ih]

/-- Nor is there one in a variable with its first value. -/
theorem Variable.noEnd {d : Declaration} (h : Variable type ts d) :
    NoEnd ts := by
  cases h with
  | plain hname => simp [hname]
  | valued hname heq he => simp [hname, heq, he.noEnd]

theorem Variables.noEnd {ds : List Declaration} (h : Variables type ts ds) :
    NoEnd ts := by
  induction h with
  | one hd => exact hd.noEnd
  | more hd hcomma _ ih => simp [hd.noEnd, hcomma, ih]

theorem Names.noEnd (h : Names ts names) : NoEnd ts := by
  induction h with
  | one hname => simp [hname]
  | more hname hcomma _ ih => simp [hname, hcomma, ih]

theorem Clause.noEnd {c : Option Expr} (h : Clause ts c) : NoEnd ts := by
  cases h with
  | absent => exact noEnd_nil
  | present he => exact he.noEnd

theorem TypeWord.ne_eof {kind : Token.Kind} (h : TypeWord kind type) :
    kind ≠ .eof := by
  cases h <;> decide

theorem FirstClause.noEnd {first : Option Stmt} (h : FirstClause ts first) :
    NoEnd ts := by
  cases h with
  | absent => exact noEnd_nil
  | declaration hmugna hword hd => simp [hmugna, hword.ne_eof, hd.noEnd]
  | expression he => exact he.noEnd

theorem Head.noEnd (h : Head ts e) : NoEnd ts := by
  obtain ⟨hopen, he, hclose, hpundok⟩ := h
  simp [hopen, he.noEnd, hclose, hpundok]

end

-- ========================================================== statements

/-- The places where a statement can stand: among the items of a program
or block, wherever one statement is asked for, and right behind `KUNG` or
`KUNG DILI`. -/
inductive Role where
  | item
  | statement
  | branch
deriving DecidableEq, Repr

/-- The tokens are a statement in the role, and this is its tree. -/
inductive Sentence : Role → List Token → Stmt → Prop where
  -- "MUGNA" type variable {"," variable}
  | declaration {mugna word : Token} {type : VarType} {ts : List Token}
      {ds : List Declaration} :
      mugna.kind = .mugna → TypeWord word.kind type → Variables type ts ds →
      Sentence .item (mugna :: word :: ts) (.declareAll ds)
  | item {ts : List Token} {s : Stmt} : Sentence .statement ts s →
      Sentence .item ts s
  -- "KUNG" branch
  | conditional {kung : Token} {ts : List Token} {s : Stmt} :
      kung.kind = .kung → Sentence .branch ts s →
      Sentence .statement (kung :: ts) s
  -- A branch may have "KUNG DILI" and a branch behind it, or "KUNG WALA"
  -- "PUNDOK" and a statement.
  | ifThen {hs bs : List Token} {condition : Expr} {body : Stmt} :
      Head hs condition → Sentence .statement bs body →
      Sentence .branch (hs ++ bs) (.ifThen condition body)
  | elseIf {kungDili : Token} {hs bs os : List Token} {condition : Expr}
      {body other : Stmt} :
      Head hs condition → Sentence .statement bs body →
      kungDili.kind = .kungDili → Sentence .branch os other →
      Sentence .branch (hs ++ (bs ++ kungDili :: os))
        (.ifElse condition body other)
  | ifElse {kungWala pundok : Token} {hs bs os : List Token} {condition : Expr}
      {body other : Stmt} :
      Head hs condition → Sentence .statement bs body →
      kungWala.kind = .kungWala → pundok.kind = .pundok →
      Sentence .statement os other →
      Sentence .branch (hs ++ (bs ++ kungWala :: pundok :: os))
        (.ifElse condition body other)
  -- "ALANG SA" "(" [first] "," [expression] "," [expression] ")" "PUNDOK"
  -- statement
  | counting {alangSa open' comma comma' close pundok : Token}
      {fs cs ls bs : List Token}
      {first : Option Stmt} {condition last : Option Expr} {body : Stmt} :
      alangSa.kind = .alangSa → open'.kind = .leftParen →
      FirstClause fs first → comma.kind = .comma → Clause cs condition →
      comma'.kind = .comma →
      Clause ls last → close.kind = .rightParen → pundok.kind = .pundok →
      Sentence .statement bs body →
      Sentence .statement
        (alangSa :: open'
          :: (fs ++ comma :: (cs ++ comma' :: (ls ++ close :: pundok :: bs))))
        (.block (first.toList ++
          [ .loop (condition.getD (.literal (.truth true)))
              (.block (body :: (last.map Stmt.expression).toList)) ]))
  -- "IPAKITA" ":" expression
  | print {ipakita colon : Token} {ts : List Token} {e : Expr} :
      ipakita.kind = .ipakita → colon.kind = .colon → Phrase .assignment ts e →
      Sentence .statement (ipakita :: colon :: ts) (.print ipakita e)
  -- "DAWAT" ":" name {"," name}
  | input {dawat colon : Token} {ts names : List Token} :
      dawat.kind = .dawat → colon.kind = .colon → Names ts names →
      Sentence .statement (dawat :: colon :: ts) (.input names)
  -- "{" {item} "}"
  | block {open' close : Token} {parts : List (List Token × Stmt)} :
      open'.kind = .leftBrace →
      (∀ part ∈ parts, Sentence .item part.1 part.2) →
      close.kind = .rightBrace →
      Sentence .statement (open' :: (parts.flatMap (·.1) ++ [close]))
        (.block (parts.map (·.2)))
  | expression {ts : List Token} {e : Expr} :
      Phrase .assignment ts e → Sentence .statement ts (.expression e)

/-- The tokens are a program, and this is its tree: "SUGOD" {item}
"KATAPUSAN". -/
inductive Program : List Token → Stmt → Prop where
  | mk {sugod katapusan : Token} {parts : List (List Token × Stmt)} :
      sugod.kind = .sugod → (∀ part ∈ parts, Sentence .item part.1 part.2) →
      katapusan.kind = .katapusan →
      Program (sugod :: (parts.flatMap (·.1) ++ [katapusan]))
        (.program (parts.map (·.2)))

end BisayaPlus.Grammar
