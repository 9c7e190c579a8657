/-
Printing trees as tokens, and the trees that come back.

A tree keeps the tokens of its operators and names, but not those of its
signs and most of its words, and it does not tell how a literal was
spelled. A `Spelling` settles all of that; the rest of the printing is
fixed by the tree. No parentheses are added: those of the source are
`grouping` nodes. A block that ends in a loop is the tree of a counting
loop, and is printed as one.

Many trees have no source text: an operand that binds looser than its
operator, a conditional whose first branch would take the `KUNG WALA`
away from it, a loop on its own. `Expr.Normal` and `Stmt.Normal` are the
trees that have one (`Proofs/RoundTrip.lean`).
-/
import BisayaPlus.Proofs.Grammar

namespace BisayaPlus

open Grammar

/-- How the parts of a program are spelled that its tree does not keep. -/
structure Spelling where
  /-- The token of a sign or word. -/
  sign : Token.Kind → Token
  kind_sign : ∀ kind, (sign kind).kind = kind
  /-- The token of a literal. -/
  literal : Value → Token
  literal_phrase : ∀ v, Phrase .primary [literal v] (.literal v)
  /-- A loop's condition that is true as it stands is left out. -/
  omitsTrue : Bool
  /-- A conditional behind `KUNG WALA` is joined to it as `KUNG DILI`. -/
  joins : Bool

attribute [simp] Spelling.kind_sign

-- ========================================================= expressions

namespace Expr

/-- The level of a binary operator. -/
def binaryLevel? : Token.Kind → Option Level
  | .equalEqual | .notEqual => some .equality
  | .greater | .greaterEqual | .less | .lessEqual => some .comparison
  | .plus | .minus | .ampersand | .dollar => some .sum
  | .star | .slash | .percent => some .product
  | _ => none

/-- The level of a logical operator. -/
def logicalLevel? : Token.Kind → Option Level
  | .o => some .disjunction
  | .ug => some .conjunction
  | _ => none

/-- The level of an expression, by its outermost operator. -/
def level : Expr → Level
  | literal _ | var _ | grouping _ | increment _ | decrement _ => .primary
  | unary _ _ => .unary
  | binary _ op _ => (binaryLevel? op.kind).getD .primary
  | logical _ op _ => (logicalLevel? op.kind).getD .primary
  | assign _ _ => .assignment

/-- The tokens of an expression. -/
def tokens (sp : Spelling) : Expr → List Token
  | literal v => [sp.literal v]
  | var name => [name]
  | grouping e => sp.sign .leftParen :: (e.tokens sp ++ [sp.sign .rightParen])
  | unary op e => op :: e.tokens sp
  | binary l op r => l.tokens sp ++ op :: r.tokens sp
  | logical l op r => l.tokens sp ++ op :: r.tokens sp
  | assign name e => name :: sp.sign .assign :: e.tokens sp
  | increment name => [name, sp.sign .plus, sp.sign .plus]
  | decrement name => [name, sp.sign .minus, sp.sign .minus]

/-- The expression is the tree of some tokens: its operands bind tightly
enough and its tokens are of the right kinds. -/
inductive Normal : Expr → Prop where
  | literal {v : Value} : Normal (.literal v)
  | var {name : Token} : name.kind = .identifier → Normal (.var name)
  | grouping {e : Expr} : Normal e → Normal (.grouping e)
  | minus {op : Token} {e : Expr} :
      op.kind = .minus → Normal e → Level.unary.rank ≤ e.level.rank →
      Normal (.unary op e)
  | negation {op : Token} {e : Expr} :
      op.kind = .dili → Normal e → Normal (.unary op (.grouping e))
  | binary {op : Token} {l r : Expr} {m : Level} :
      binaryLevel? op.kind = some m → Normal l → Normal r →
      m.rank ≤ l.level.rank → m.rank < r.level.rank → Normal (.binary l op r)
  | logical {op : Token} {l r : Expr} {m : Level} :
      logicalLevel? op.kind = some m → Normal l → Normal r →
      m.rank ≤ l.level.rank → m.rank < r.level.rank → Normal (.logical l op r)
  | assign {name : Token} {e : Expr} :
      name.kind = .identifier → Normal e → Normal (.assign name e)
  | increment {name : Token} : name.kind = .identifier → Normal
      (.increment name)

theorem binaryLevel?_eq_some {kind : Token.Kind} {m : Level}
    (h : binaryLevel? kind = some m) :
    (m = .equality ∧ kind ∈ [.equalEqual, .notEqual])
      ∨ (m = .comparison ∧ kind ∈ [.greater, .greaterEqual, .less, .lessEqual])
      ∨ (m = .sum ∧ kind ∈ [.plus, .minus, .ampersand, .dollar])
      ∨ (m = .product ∧ kind ∈ [.star, .slash, .percent]) := by
  cases kind <;> cases h <;> simp

/-- Two phrases with a binary operator between them are a phrase of the
operator's level. -/
theorem phrase_binary {op : Token} {l r : Expr} {m m' : Level}
    {ts us : List Token} (hm : binaryLevel? op.kind = some m)
    (hl : Phrase m ts l) (hr : Phrase m' us r) (hlt : m.rank < m'.rank) :
    Phrase m (ts ++ op :: us) (.binary l op r) := by
  rcases binaryLevel?_eq_some hm with ⟨rfl, hop⟩ | ⟨rfl, hop⟩ | ⟨rfl, hop⟩
    | ⟨rfl, hop⟩
  · exact .equality hl hop (hr.loosen hlt)
  · exact .comparison hl hop (hr.loosen hlt)
  · exact .sum hl hop (hr.loosen hlt)
  · exact .product hl hop (hr.loosen hlt)

theorem phrase_logical {op : Token} {l r : Expr} {m m' : Level}
    {ts us : List Token} (hm : logicalLevel? op.kind = some m)
    (hl : Phrase m ts l) (hr : Phrase m' us r) (hlt : m.rank < m'.rank) :
    Phrase m (ts ++ op :: us) (.logical l op r) := by
  unfold logicalLevel? at hm
  split at hm
  next hop => cases hm; exact .disjunction hl hop (hr.loosen hlt)
  next hop => cases hm; exact .conjunction hl hop (hr.loosen hlt)
  next => cases hm

/-- The tokens of a normal expression are a phrase of its level. -/
theorem Normal.phrase {e : Expr} (h : e.Normal) (sp : Spelling) :
    Phrase e.level (e.tokens sp) e := by
  induction h with
  | literal => exact sp.literal_phrase _
  | var hname => exact .name hname
  | grouping _ ih =>
      exact .grouping (sp.kind_sign _) (ih.loosen (Nat.zero_le _))
        (sp.kind_sign _)
  | minus hop _ hrank ih => exact .minus hop (ih.loosen hrank)
  | negation hop _ ih =>
      have hgroup :=
        Phrase.grouping (sp.kind_sign .leftParen) (ih.loosen (Nat.zero_le _))
          (sp.kind_sign .rightParen)
      exact .negation hop (sp.kind_sign .leftParen) (.lift rfl hgroup)
  | binary hop _ _ hl hr ihl ihr =>
      rw [level, hop]
      exact phrase_binary hop (ihl.loosen hl) ihr hr
  | logical hop _ _ hl hr ihl ihr =>
      rw [level, hop]
      exact phrase_logical hop (ihl.loosen hl) ihr hr
  | assign hname _ ih =>
      exact .assign hname (sp.kind_sign _) (ih.loosen (Nat.zero_le _))
  | increment hname => exact .increment hname (sp.kind_sign _) (sp.kind_sign _)

theorem Normal.expression {e : Expr} (h : e.Normal) (sp : Spelling) :
    Phrase .assignment (e.tokens sp) e :=
  (h.phrase sp).loosen (Nat.zero_le _)

end Expr

-- ======================================================== declarations

/-- The kind of the word that names a type. -/
def VarType.kind : VarType → Token.Kind
  | numero => .numero
  | tipik => .tipik
  | letra => .letra
  | tinuod => .tinuod

namespace Declaration

/-- The tokens of one variable, without its type. -/
def tokens (sp : Spelling) (d : Declaration) : List Token :=
  match d.init with
  | some e => d.name :: sp.sign .assign :: e.tokens sp
  | none => [d.name]

/-- The tokens of `MUGNA` and the type. -/
def opening (sp : Spelling) (d : Declaration) : List Token :=
  [sp.sign .mugna, sp.sign d.type.kind]

/-- The variable and its first value are the tree of some tokens. -/
def Normal (d : Declaration) : Prop :=
  d.name.kind = .identifier ∧ ∀ e ∈ d.init, e.Normal

end Declaration

/-- Lists of tokens, with commas between them. -/
def Spelling.separated (sp : Spelling) : List (List Token) → List Token
  | [] => []
  | [ts] => ts
  | ts :: more => ts ++ sp.sign .comma :: sp.separated more

-- ========================================================== statements

namespace Stmt

/-- The tree of a counting loop. -/
def counting (first : Option Stmt) (condition : Expr) (last : Option Expr)
    (body : Stmt) : Stmt :=
  .block (first.toList ++
    [.loop condition (.block (body :: (last.map Stmt.expression).toList))])

/-- The statement is a conditional. -/
def isConditional : Stmt → Bool
  | ifThen _ _ | ifElse _ _ _ => true
  | _ => false

/-- The tokens of a loop's condition. -/
def conditionTokens (sp : Spelling) (e : Expr) : List Token :=
  if sp.omitsTrue && e = .literal (.truth true) then [] else e.tokens sp

/-- The tokens of a clause that may be left out. -/
def clauseTokens (sp : Spelling) (e : Option Expr) : List Token :=
  (e.map (Expr.tokens sp)).getD []

/-- The tokens of a branch, up to its body. -/
def headTokens (sp : Spelling) (condition : Expr) : List Token :=
  sp.sign .leftParen
    :: (condition.tokens sp ++ [sp.sign .rightParen, sp.sign .pundok])

/-- The tokens of a counting loop, from those of its first clause and its
body. -/
def countingTokens (sp : Spelling) (first : List Token) (condition : Expr)
    (last : Option Expr) (body : List Token) : List Token :=
  sp.sign .alangSa :: sp.sign .leftParen ::
    (first ++ sp.sign .comma :: (conditionTokens sp condition ++ sp.sign .comma
      :: (clauseTokens sp last ++ sp.sign .rightParen :: sp.sign .pundok
        :: body)))

theorem countingTokens_append (sp : Spelling) (first : List Token)
    (condition : Expr) (last : Option Expr) (body rest : List Token) :
    countingTokens sp first condition last body ++ rest =
      countingTokens sp first condition last (body ++ rest) := by
  simp [countingTokens]

/-- The tokens of a last branch, from those of its statement. -/
def otherTokens (sp : Spelling) (other : Stmt) (ts : List Token) :
    List Token :=
  if sp.joins && other.isConditional then sp.sign .kungDili :: ts.tail
  else sp.sign .kungWala :: sp.sign .pundok :: ts

mutual

/-- The tokens of a statement. A loop on its own has none. -/
def tokens (sp : Spelling) : Stmt → List Token
  | expression e => e.tokens sp
  | print keyword e => keyword :: sp.sign .colon :: e.tokens sp
  | declare d => d.opening sp ++ d.tokens sp
  | declareAll [] => []
  | declareAll (d :: ds) =>
      d.opening sp ++ sp.separated ((d :: ds).map (·.tokens sp))
  | input names =>
      sp.sign .dawat :: sp.sign .colon :: sp.separated (names.map ([·]))
  | block [loop c (block [body])] =>
      countingTokens sp [] c none (body.tokens sp)
  | block [loop c (block [body, expression e])] =>
      countingTokens sp [] c (some e) (body.tokens sp)
  | block [first, loop c (block [body])] =>
      countingTokens sp (first.tokens sp) c none (body.tokens sp)
  | block [first, loop c (block [body, expression e])] =>
      countingTokens sp (first.tokens sp) c (some e) (body.tokens sp)
  | block body =>
      sp.sign .leftBrace :: (tokensAll sp body ++ [sp.sign .rightBrace])
  | ifThen condition body =>
      sp.sign .kung :: (headTokens sp condition ++ body.tokens sp)
  | ifElse condition body other =>
      sp.sign .kung ::
        (headTokens sp condition
          ++ (body.tokens sp ++ otherTokens sp other (other.tokens sp)))
  | loop _ _ => []
  | program body =>
      sp.sign .sugod :: (tokensAll sp body ++ [sp.sign .katapusan])

/-- The tokens of statements, one after the other. -/
def tokensAll (sp : Spelling) : List Stmt → List Token
  | [] => []
  | s :: body => s.tokens sp ++ tokensAll sp body

end

/-- The statement is a loop. -/
def isLoop : Stmt → Bool
  | loop _ _ => true
  | _ => false

theorem tokens_counting (sp : Spelling) (first : Option Stmt) (c : Expr)
    (last : Option Expr) (body : Stmt) :
    (counting first c last body).tokens sp =
      countingTokens sp ((first.map (tokens sp)).getD []) c last
        (body.tokens sp) := by
  cases first with
  | none => cases last <;> rfl
  | some f => cases last <;> simp [counting, tokens]

theorem tokens_block (sp : Spelling) {body : List Stmt}
    (h : ∀ s ∈ body, s.isLoop = false) :
    (block body).tokens sp =
      sp.sign .leftBrace :: (tokensAll sp body ++ [sp.sign .rightBrace]) := by
  rw [tokens]
  -- The other ways to print a block are for bodies with a loop.
  all_goals
    intros
    subst_vars
    simp [isLoop] at h

-- ======================================================= normal trees

/-- A branch that a further `KUNG DILI` or `KUNG WALA` would be joined
to: the statement ends in a conditional without last branch. -/
inductive EndsOpen : Stmt → Prop where
  | ifThen {condition : Expr} {body : Stmt} : EndsOpen (.ifThen condition body)
  | ifElse {condition : Expr} {body other : Stmt} :
      EndsOpen other → EndsOpen (.ifElse condition body other)
  | counting {first : Option Stmt} {condition : Expr} {last : Option Expr}
      {body : Stmt} :
      EndsOpen body → EndsOpen (counting first condition last body)

/-- A block in braces ends with its brace, whatever is in it. -/
theorem not_endsOpen_block {body : List Stmt}
    (h : ∀ s ∈ body, s.isLoop = false) :
    ¬EndsOpen (.block body) := by
  intro hopen
  generalize hs : Stmt.block body = s at hopen
  cases hopen with
  | ifThen | ifElse => cases hs
  | @counting first condition last inner =>
      obtain rfl := Stmt.block.inj hs
      have hloop :=
        h (.loop condition
          (.block (inner :: (last.map Stmt.expression).toList))) (by simp)
      cases hloop

/-- No statement but the first starts with a token that would go on with
the statement before it. -/
def Spaced (sp : Spelling) (body : List Stmt) : Prop :=
  ∀ s ∈ body.tail, ∀ t ∈ (s.tokens sp).head?,
    t.kind ∉ [.minus, .dollar, .leftParen]

/-- The first clause of a counting loop is the tree of some tokens. -/
inductive FirstNormal : Stmt → Prop where
  | declare {d : Declaration} : d.Normal → FirstNormal (.declare d)
  | expression {e : Expr} : e.Normal → FirstNormal (.expression e)

/-- The statement is, in its role, the tree of some tokens. -/
inductive Normal (sp : Spelling) : Role → Stmt → Prop where
  | declareAll {ds : List Declaration} {type : VarType} :
      ds ≠ [] → (∀ d ∈ ds, d.Normal) → (∀ d ∈ ds, d.type = type) →
      Normal sp .item (.declareAll ds)
  | item {s : Stmt} : Normal sp .statement s → Normal sp .item s
  | expression {e : Expr} : e.Normal → Normal sp .statement (.expression e)
  | print {ipakita : Token} {e : Expr} :
      ipakita.kind = .ipakita → e.Normal →
      Normal sp .statement (.print ipakita e)
  | input {names : List Token} :
      names ≠ [] → (∀ name ∈ names, name.kind = .identifier) →
      Normal sp .statement (.input names)
  | block {body : List Stmt} :
      (∀ s ∈ body, Normal sp .item s) → Spaced sp body → Normal sp .statement
      (.block body)
  | ifThen {condition : Expr} {body : Stmt} :
      condition.Normal → Normal sp .statement body →
      Normal sp .statement (.ifThen condition body)
  | ifElse {condition : Expr} {body other : Stmt} :
      condition.Normal → Normal sp .statement body → ¬EndsOpen body →
      Normal sp .statement other →
      Normal sp .statement (.ifElse condition body other)
  | counting {first : Option Stmt} {condition : Expr} {last : Option Expr}
      {body : Stmt} :
      (∀ f ∈ first, FirstNormal f) → condition.Normal →
      (∀ e ∈ last, e.Normal) →
      Normal sp .statement body →
      Normal sp .statement (counting first condition last body)

/-- The tree is a program, and its statements are the trees of some
tokens. -/
inductive NormalProgram (sp : Spelling) : Stmt → Prop where
  | mk {body : List Stmt} : (∀ s ∈ body, Normal sp .item s) → Spaced sp body →
      NormalProgram sp (.program body)

theorem Normal.isLoop {sp : Spelling} {r : Role} {s : Stmt}
    (h : Normal sp r s) :
    s.isLoop = false := by
  induction h with
  | item _ ih => exact ih
  | _ => rfl

end Stmt

end BisayaPlus
