/-
Chains of one connective, and where their evaluation stops.

Operands of the equality tier with `O` between them, or with `UG` between
them, are a chain. The chain is read as a tree that folds to the left:
its first operand stands deepest, and each of the others is the right
side of a node around all that comes before it. Such a node passes the
value of its left side on if that settles it, and the nodes of a chain
agree on the values that do. So a value that settles the deepest node it
comes to goes up through all the nodes around it as it is, and so does a
fault.

`Chain.short_circuits` says what comes of this, in the order in which the
chain is written. Some operands in front are passed, one after another
and each with a value that does not stop the chain (`Passes`). The chain
then does what the next operand does. Behind that one there are no more
operands, or it halts the chain (`Halts`), and those behind it could be
any others.
-/
import BisayaPlus.Proofs.ParseComplete
import BisayaPlus.Proofs.Steps

namespace BisayaPlus.Parse

open Grammar Run

-- ============================================================== chains

/-- What stands between the operands of a chain. -/
inductive Connective where
  | o
  | ug

namespace Connective

/-- The kind of the sign. -/
def kind : Connective → Token.Kind
  | o => .o
  | ug => .ug

/-- The tier of the chains. -/
def tier : Connective → Tier
  | o => .disjunction
  | ug => .conjunction

/-- A true value stops a chain of `O`, and a false one a chain of `UG`. -/
def stops : Connective → Value → Bool
  | o, v => v.isTruthy
  | ug, v => !v.isTruthy

/-- The kind of a connective is an operator of its tier. -/
theorem kind_mem_operators (c : Connective) : c.kind ∈ c.tier.operators := by
  cases c <;> decide

theorem join_tier (c : Connective) (l : Expr) (sign : Token) (r : Expr) :
    c.tier.join l sign r = .logical l sign r := by
  cases c <;> rfl

/-- Its operands may hold comparisons. -/
theorem rank_below_tier_le (c : Connective) :
    c.tier.below.rank ≤ Level.equality.rank := by
  cases c <;> decide

theorem rank_tier_le (c : Connective) :
    c.tier.level.rank ≤ Level.equality.rank := by
  cases c <;> decide

/-- A value that stops a chain is one that settles its connective. -/
theorem settles_eq {c : Connective} {sign : Token} (h : sign.kind = c.kind)
    (v : Value) :
    settles sign v = c.stops v := by
  unfold settles
  rw [h]
  cases c <;> rfl

end Connective

/-- Tokens that are read by themselves as an expression of the equality
tier, and the tree that they are read as. -/
structure Operand where
  tokens : List Token
  tree : Expr
  read : ∃ stop, (tier stop .equality tokens).Is tree []

/-- A sign of the connective and the operand behind it. -/
structure Link (c : Connective) where
  sign : Token
  operand : Operand
  sign_kind : sign.kind = c.kind

/-- One operand or more, with signs of one connective between them. -/
structure Chain (c : Connective) where
  first : Operand
  links : List (Link c)

variable {c : Connective}

/-- The tokens of a link: its connective and its operand. -/
def Link.tokens (link : Link c) : List Token :=
  link.sign :: link.operand.tokens

/-- The tree in which the operands of the links come behind `left`. -/
def joined (left : Expr) (links : List (Link c)) : Expr :=
  links.foldl (fun l link => .logical l link.sign link.operand.tree) left

theorem joined_cons (left : Expr) (link : Link c) (links : List (Link c)) :
    joined left (link :: links)
      = joined (.logical left link.sign link.operand.tree) links :=
  rfl

namespace Chain

/-- All operands of a chain, in order. -/
def operands (chain : Chain c) : List Operand :=
  chain.first :: chain.links.map Link.operand

/-- The tokens of a chain. -/
def tokens (chain : Chain c) : List Token :=
  chain.first.tokens ++ chain.links.flatMap Link.tokens

/-- The tree that a chain is read as. -/
def tree (chain : Chain c) : Expr := joined chain.first.tree chain.links

end Chain

-- ============================================================= reading

/-- An operand stands for its tree. -/
theorem Operand.phrase (x : Operand) : Phrase .equality x.tokens x.tree := by
  obtain ⟨stop, hread⟩ := x.read
  obtain ⟨hbehind, htier⟩ := hread
  have hreads := tier_reads stop .equality x.tokens
  rw [htier] at hreads
  obtain ⟨used, hused, hphrase⟩ := hreads rfl
  rw [List.append_nil] at hused
  rwa [← hused]

/-- What the grammar derives at the equality level is an operand. -/
def Operand.ofPhrase {ts : List Token} {e : Expr} (h : Phrase .equality ts e) :
    Operand where
  tokens := ts
  tree := e
  read :=
    ⟨default, Chains.tier_is (k := .equality) (phrase_readBack h)
      (List.append_nil ts) .nil⟩

/-- Each link makes the chain before it the left side of a longer one. -/
theorem phrase_joined (links : List (Link c)) {ts : List Token} {left : Expr}
    (h : Phrase c.tier.level ts left) :
    Phrase c.tier.level (ts ++ links.flatMap Link.tokens)
      (joined left links) := by
  induction links generalizing ts left with
  | nil =>
      rw [List.flatMap_nil, List.append_nil]
      exact h
  | cons link links ih =>
      have hsign : link.sign.kind ∈ c.tier.operators :=
        link.sign_kind ▸ c.kind_mem_operators
      have hright : Phrase c.tier.below link.operand.tokens
          link.operand.tree :=
        link.operand.phrase.loosen c.rank_below_tier_le
      have hlonger := ih (Tier.phrase_join h hsign hright)
      rw [c.join_tier, List.append_assoc] at hlonger
      rw [joined_cons, List.flatMap_cons]
      exact hlonger

/-- A chain stands for its tree, as a whole expression. -/
theorem Chain.phrase (chain : Chain c) :
    Phrase .assignment chain.tokens chain.tree := by
  have hfirst : Phrase c.tier.level chain.first.tokens chain.first.tree :=
    chain.first.phrase.loosen c.rank_tier_le
  exact (phrase_joined chain.links hfirst).loosen (Nat.zero_le _)

-- ========================================================== evaluation

/-- A value of the expression is one that stops the chain. A fault halts
it as well, since then there is no value. -/
def Halts (c : Connective) (scope : Nat) (env : Environment)
    (e : Expr) : Prop :=
  ∀ v env', e.eval scope env = .ok v env' → c.stops v = true

/-- The operands are evaluated in turn, each to a value that does not stop
the chain, and this leads from one environment to another. -/
inductive Passes (c : Connective) (scope : Nat) :
    Environment → List Operand → Environment → Prop where
  | nil (env : Environment) : Passes c scope env [] env
  | cons {env env₁ env₂ : Environment} {x : Operand} {xs : List Operand}
      {v : Value}
      (heval : x.tree.eval scope env = .ok v env₁) (hv : c.stops v = false)
      (hrest : Passes c scope env₁ xs env₂) : Passes c scope env (x :: xs) env₂

variable {scope : Nat} {env env' : Environment} {l l' r : Expr}

/-- What a node does depends on its left side by what that one does. -/
theorem eval_logical_congr (sign : Token)
    (h : l.eval scope env = l'.eval scope env') :
    (Expr.logical l sign r).eval scope env
      = (Expr.logical l' sign r).eval scope env' := by
  rw [Expr.eval, Expr.eval, bind_apply, bind_apply, h]

/-- Where the left side halts, the right side is not evaluated. -/
theorem eval_logical_of_halts (link : Link c) (h : Halts c scope env l) :
    (Expr.logical l link.sign r).eval scope env = l.eval scope env := by
  rw [Expr.eval]
  cases heval : l.eval scope env with
  | error e env₁ => exact bind_of_error heval
  | ok v env₁ =>
      rw [bind_of_ok heval, Connective.settles_eq link.sign_kind,
        h v env₁ heval]
      rfl

/-- Where it does not, the right side decides. -/
theorem eval_logical_of_passed (link : Link c) {v : Value}
    (h : l.eval scope env = .ok v env') (hv : c.stops v = false) :
    (Expr.logical l link.sign r).eval scope env = r.eval scope env' := by
  rw [Expr.eval, bind_of_ok h, Connective.settles_eq link.sign_kind, hv]
  rfl

/-- A chain is evaluated from what its first part comes to. -/
theorem eval_joined_congr (links : List (Link c))
    (h : l.eval scope env = l'.eval scope env') :
    (joined l links).eval scope env = (joined l' links).eval scope env' := by
  induction links generalizing l l' with
  | nil => exact h
  | cons link links ih => exact ih (eval_logical_congr link.sign h)

/-- What halts a chain goes up through all the nodes around it. -/
theorem eval_joined_of_halts (links : List (Link c))
    (h : Halts c scope env l) :
    (joined l links).eval scope env = l.eval scope env := by
  induction links with
  | nil => rfl
  | cons link links ih =>
      rw [joined_cons, eval_joined_congr links (eval_logical_of_halts link h)]
      exact ih

/-- A chain does what the operand does at which it stops. The operands
behind that one do not come into it. -/
theorem Chain.eval_of_passes {before behind : List Operand} {x : Operand}
    (chain : Chain c) (hchain : chain.operands = before ++ x :: behind)
    (hbefore : Passes c scope env before env')
    (hx : behind = [] ∨ Halts c scope env' x.tree) :
    chain.tree.eval scope env = x.tree.eval scope env' := by
  -- The first operand is passed and taken off, with the state it leaves.
  induction hbefore generalizing chain with
  | nil env =>
      obtain ⟨hfirst, hlinks⟩ := List.cons.inj hchain
      rw [tree, hfirst]
      obtain hbehind | hhalts := hx
      · rw [hbehind, List.map_eq_nil_iff] at hlinks
        rw [hlinks]
        rfl
      · exact eval_joined_of_halts chain.links hhalts
  | cons heval hv _ ih =>
      obtain ⟨first, links⟩ := chain
      obtain ⟨rfl, hlinks⟩ := List.cons.inj hchain
      cases links with
      | nil => simp at hlinks
      | cons link links =>
          have htail := ih ⟨link.operand, links⟩ hlinks hx
          rw [← htail, tree, joined_cons]
          exact eval_joined_congr links (eval_logical_of_passed link heval hv)

/-- Among operands there is one at which a chain of them stops. -/
theorem exists_passes (c : Connective) (scope : Nat) (xs : List Operand)
    (x : Operand) (env : Environment) :
    ∃ before y behind env', x :: xs = before ++ y :: behind
      ∧ Passes c scope env before env'
      ∧ (behind = [] ∨ Halts c scope env' y.tree) := by
  induction xs generalizing x env with
  | nil => exact ⟨[], x, [], env, rfl, .nil env, .inl rfl⟩
  | cons x' xs ih =>
      by_cases hhalts : Halts c scope env x.tree
      · exact ⟨[], x, x' :: xs, env, rfl, .nil env, .inr hhalts⟩
      · obtain ⟨v, env₁, heval, hv⟩ :
            ∃ v env₁, x.tree.eval scope env = .ok v env₁
              ∧ c.stops v = false := by
          simpa [Halts] using hhalts
        obtain ⟨before, y, behind, env', hsplit, hbefore, hy⟩ := ih x' env₁
        exact ⟨x :: before, y, behind, env', congrArg (x :: ·) hsplit,
          .cons heval hv hbefore, hy⟩

/-- A chain is read whole, in front of whatever ends an expression. Its
evaluation, in every state and scope, passes operands from left to right
up to one that is the last or halts the chain, and comes to what this one
comes to: its value or its fault, and the state behind it. Another chain
with the same operands up to that one does the same, whatever operands it
has behind it, as long as none is put behind the last. -/
theorem Chain.short_circuits (chain : Chain c) :
    (∀ stop rest, Follows .assignment rest →
        (expression stop (chain.tokens ++ rest)).Is chain.tree rest)
      ∧ ∀ scope env, ∃ before x behind env',
          chain.operands = before ++ x :: behind
          ∧ Passes c scope env before env'
          ∧ (behind = [] ∨ Halts c scope env' x.tree)
          ∧ chain.tree.eval scope env = x.tree.eval scope env'
          ∧ ∀ (other : Chain c) (behind' : List Operand),
              other.operands = before ++ x :: behind' →
              (behind = [] → behind' = []) →
                other.tree.eval scope env = chain.tree.eval scope env := by
  refine ⟨fun stop rest hrest => expression_is chain.phrase hrest,
    fun scope env => ?_⟩
  obtain ⟨before, x, behind, env', hchain, hbefore, hx⟩ :=
    exists_passes c scope (chain.links.map Link.operand) chain.first env
  have heval := chain.eval_of_passes hchain hbefore hx
  refine ⟨before, x, behind, env', hchain, hbefore, hx, heval,
    fun other behind' hother hlast => ?_⟩
  rw [heval]
  exact other.eval_of_passes hother hbefore (hx.imp_left hlast)

/-- The operand that is one name. -/
def Operand.name (lexeme : String) : Operand :=
  .ofPhrase ((Phrase.name (t := bareToken .identifier lexeme) rfl).loosen
    (by decide))

theorem phrase_assignment :
    Phrase .equality
      [ bareToken .leftParen "(", bareToken .identifier "b",
        bareToken .assign "=",
        bareToken .oo "OO", bareToken .rightParen ")" ]
      (.grouping (.assign (bareToken .identifier "b")
        (.literal (.truth true)))) := by
  have hvalue : Phrase .assignment [bareToken .oo "OO"]
      (.literal (.truth true)) :=
    (Phrase.oo rfl).loosen (by decide)
  have hassign : Phrase .assignment
      [bareToken .identifier "b", bareToken .assign "=",
        bareToken .oo "OO"] _ :=
    .assign rfl rfl hvalue
  exact Phrase.loosen (by decide) (Phrase.grouping rfl hassign rfl)

/-- The chain `b O (b = OO) O nothing`. -/
def Chain.unreached : Chain .o where
  first := .name "b"
  links :=
    [ ⟨bareToken .o "O", .ofPhrase phrase_assignment, rfl⟩,
      ⟨bareToken .o "O", .name "nothing", rfl⟩ ]

/-- The false `b` is passed, and the assignment stops the chain, so that
the last operand is not asked what it means. -/
theorem Chain.short_circuits_unreached :
    let env :=
      Environment.empty.define Environment.global "b" ⟨.truth false, .tinuod⟩
    let env' :=
      Environment.empty.define Environment.global "b" ⟨.truth true, .tinuod⟩
    Follows .assignment []
      ∧ (expression (bareToken .eof "")
        (unreached.tokens ++ [])).Is unreached.tree []
      ∧ (Operand.name "nothing").tree.eval 0 env'
        = .error ⟨.undefined "nothing", ⟨1, 1⟩⟩ env'
      ∧ ∃ before x behind env₁, unreached.operands = before ++ x :: behind
        ∧ Passes .o 0 env before env₁
          ∧ x.tree.eval 0 env₁ = .ok (.truth true) env' := by
  intro env env'
  have hchain : unreached.tree.eval 0 env = .ok (.truth true) env' := rfl
  obtain ⟨hread, hstops⟩ := unreached.short_circuits
  obtain ⟨before, x, behind, env₁, hsplit, hbefore, -, heval, -⟩ :=
    hstops 0 env
  exact ⟨.nil, hread _ [] .nil, rfl, before, x, behind, env₁, hsplit, hbefore,
    heval.symm.trans hchain⟩

end BisayaPlus.Parse
