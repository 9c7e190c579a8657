/-
Only well-shaped trees are run.

The evaluator is more liberal than the trees it is given. Every unary
operator but a minus negates a truth value for it, every logical operator
but `O` is a conjunction, a literal may be the null value, and for binary
operators that are none it has a fault in store. None of this is ever met
by a program that was read from a text. That takes all three stages:

- a token that stands for a value has one (`Token.scan_valued`);
- the grammar builds well-shaped trees from such tokens
  (`Phrase.shaped`, `Sentence.shaped`);
- in a state whose variables are typed, a well-shaped expression is never
  null (`Expr.Shaped.eval_ne_null`), and a fault is raised by a part of the
  tree (`Proofs/Faults.lean`), of which none is a binary operator that is
  none.
-/
import BisayaPlus.Proofs.Faults
import BisayaPlus.Proofs.ParseSound
import BisayaPlus.Proofs.Rescan
import BisayaPlus.Proofs.StoreTyping
import BisayaPlus.Run.Source

namespace BisayaPlus

open Run

-- ============================================================= shapes

/-- An expression that the grammar can build, as far as it can be told
without looking into its parts. -/
def Expr.WellShaped : Expr → Prop
  | literal v => v ≠ .null
  | var name => name.kind = .identifier
  | grouping _ => True
  | unary op e =>
      op.kind = .minus ∨ (op.kind = .dili ∧ ∃ inner, e = grouping inner)
  | binary _ op _ => op.kind ∈ binaryOperators
  | logical _ op _ => op.kind = .o ∨ op.kind = .ug
  | assign name _ => name.kind = .identifier
  | increment name => name.kind = .identifier
  | decrement _ => False

/-- A statement that the grammar can build, as far as it can be told
without looking into its parts. -/
def Stmt.WellShaped : Stmt → Prop
  | declare d => d.name.kind = .identifier
  | declareAll ds => ∀ d ∈ ds, d.name.kind = .identifier
  | input names => ∀ name ∈ names, name.kind = .identifier
  | program _ => False
  | expression _ | print _ _ | block _ | ifThen _ _ | ifElse _ _ _
    | loop _ _ => True

/-- An expression all of whose parts are well-shaped. -/
def Expr.Shaped (e : Expr) : Prop := ∀ part ∈ e.parts, part.WellShaped

/-- A statement all of whose parts are well-shaped. -/
def Stmt.Shaped (s : Stmt) : Prop :=
  ∀ part ∈ s.parts, part.WellShaped ∧ ∀ e ∈ part.heads, e.Shaped

namespace Expr

variable {left right : Expr} {op : Token}

theorem shaped_binary (hop : op.kind ∈ binaryOperators) (hleft : left.Shaped)
    (hright : right.Shaped) : (binary left op right).Shaped :=
  List.forall_mem_cons.2 ⟨hop, List.forall_mem_append.2 ⟨hleft, hright⟩⟩

theorem shaped_logical (hop : op.kind = .o ∨ op.kind = .ug)
    (hleft : left.Shaped) (hright : right.Shaped) :
    (logical left op right).Shaped :=
  List.forall_mem_cons.2 ⟨hop, List.forall_mem_append.2 ⟨hleft, hright⟩⟩

end Expr

theorem Stmt.shaped_expression {e : Expr} (he : e.Shaped) :
    (expression e).Shaped :=
  List.forall_mem_singleton.2 ⟨trivial, List.forall_mem_singleton.2 he⟩

theorem Stmt.shaped_block {body : List Stmt} (h : ∀ s ∈ body, s.Shaped) :
    (block body).Shaped := by
  refine List.forall_mem_cons.2 ⟨⟨trivial, List.forall_mem_nil _⟩,
    fun part hpart => ?_⟩
  obtain ⟨s, hs, hpart⟩ := mem_partsAll.1 hpart
  exact h s hs part hpart

-- ============================================================= tokens

namespace Token

/-- The kinds of token that stand for a value of their own. -/
def literalKinds : List Kind := [.number, .string, .character, .escapeCode]

/-- If the token should stand for a value, it does. -/
def Valued (t : Token) : Prop :=
  t.kind ∈ literalKinds → t.literal.getD .null ≠ .null

/-- No word is a literal. -/
theorem keyword?_notMem_literalKinds (word : String) :
    (keyword? word).getD .identifier ∉ literalKinds := by
  unfold keyword?
  split <;> decide

/-- What the rules cut off for a literal has a value. -/
theorem Cut.valued {text rest : List Char} {kind : Kind}
    {literal : Option Value} (h : Cut text rest (.token kind literal))
    (hkind : kind ∈ literalKinds) :
    literal.getD .null ≠ .null := by
  generalize hpiece : Piece.token kind literal = piece at h
  cases h with
  | sign hsign _ =>
      cases hpiece
      have hsigns : ∀ s ∈ signs, s.2 ∉ literalKinds := by decide
      exact absurd hkind (hsigns _ hsign)
  | @pair first gap second _ _ _ hjoined =>
      cases hpiece
      have hknown :=
        keyword?_notMem_literalKinds
          (String.ofList first ++ " " ++ String.ofList second)
      rw [hjoined.known] at hknown
      exact absurd hkind hknown
  | word =>
      cases hpiece
      exact absurd hkind (keyword?_notMem_literalKinds _)
  | yes | no | text | character | escaped | escapeCode | whole | decimal =>
      cases hpiece
      exact Value.noConfusion
  | _ => cases hpiece

/-- The literals of a text that scans have their values. -/
theorem scan_valued {text : String} {tokens : List Token}
    (h : scan text = .ok tokens) :
    ∀ t ∈ tokens, t.Valued := by
  intro t ht hkind
  rcases scan_cases text with ⟨-, hscan⟩ | ⟨-, hscan⟩
  · rw [hscan] at h
    obtain rfl := Except.ok.inj h
    rcases List.mem_append.1 ht with ht | ht
    · obtain ⟨rest, hcut⟩ := lexical_of_mem ht
      exact hcut.valued hkind
    · obtain rfl := List.mem_singleton.1 ht
      exact absurd hkind (show Kind.eof ∉ literalKinds by decide)
  · rw [hscan] at h
    cases h

end Token

-- ============================================================= grammar

namespace Grammar

variable {ts : List Token}

/-- A unary expression that starts with a parenthesis is one in
parentheses. -/
theorem Phrase.exists_grouping {paren : Token} {e : Expr}
    (h : Phrase .unary (paren :: ts) e) (hparen : paren.kind = .leftParen) :
    ∃ inner, e = .grouping inner := by
  cases h with
  | lift hl h =>
      cases hl
      cases h with
      | grouping => exact ⟨_, rfl⟩
      | literal ht =>
          rw [hparen] at ht
          exact absurd ht (by decide)
      | oo ht | dili ht | newline ht | name ht | increment ht =>
          rw [hparen] at ht
          cases ht
      | lift hl => cases hl
  | minus hop | negation hop =>
      rw [hparen] at hop
      cases hop

/-- The tree of an expression whose literals have values is well-shaped. -/
theorem Phrase.shaped {l : Level} {e : Expr} (h : Phrase l ts e)
    (hts : ∀ t ∈ ts, t.Valued) :
    e.Shaped := by
  induction h with
  | lift _ _ ih => exact ih hts
  | assign hname _ _ ih =>
      exact List.forall_mem_cons.2 ⟨hname, ih fun t ht =>
        hts t (List.mem_cons_of_mem _ (List.mem_cons_of_mem _ ht))⟩
  | disjunction _ hop _ ihl ihr =>
      rw [List.forall_mem_append, List.forall_mem_cons] at hts
      exact Expr.shaped_logical (.inl hop) (ihl hts.1) (ihr hts.2.2)
  | conjunction _ hop _ ihl ihr =>
      rw [List.forall_mem_append, List.forall_mem_cons] at hts
      exact Expr.shaped_logical (.inr hop) (ihl hts.1) (ihr hts.2.2)
  | equality _ hop _ ihl ihr | comparison _ hop _ ihl ihr | sum _ hop _ ihl ihr
  | product _ hop _ ihl ihr =>
      rw [List.forall_mem_append, List.forall_mem_cons] at hts
      exact Expr.shaped_binary ((by decide : _ ⊆ binaryOperators) hop)
        (ihl hts.1) (ihr hts.2.2)
  | minus hop _ ih =>
      exact List.forall_mem_cons.2
        ⟨.inl hop, ih fun t ht => hts t (List.mem_cons_of_mem _ ht)⟩
  | negation hop hparen h ih =>
      exact List.forall_mem_cons.2 ⟨.inr ⟨hop, h.exists_grouping hparen⟩,
        ih fun t ht => hts t (List.mem_cons_of_mem _ ht)⟩
  | literal ht =>
      exact List.forall_mem_singleton.2 (hts _ List.mem_cons_self ht)
  | oo | dili | newline => exact List.forall_mem_singleton.2 Value.noConfusion
  | name ht | increment ht => exact List.forall_mem_singleton.2 ht
  | grouping _ _ _ ih =>
      refine List.forall_mem_cons.2 ⟨trivial, ih fun t ht => hts t ?_⟩
      exact List.mem_cons_of_mem _ (List.mem_append_left _ ht)

/-- A variable has a name, and a first value of good shape. -/
theorem Variable.shaped {type : VarType} {d : Declaration}
    (h : Variable type ts d) (hts : ∀ t ∈ ts, t.Valued) :
    d.name.kind = .identifier ∧ ∀ e ∈ d.init.toList, e.Shaped := by
  cases h with
  | plain hname => exact ⟨hname, List.forall_mem_nil _⟩
  | valued hname _ he =>
      exact ⟨hname, List.forall_mem_singleton.2 (he.shaped fun t ht =>
        hts t (List.mem_cons_of_mem _ (List.mem_cons_of_mem _ ht)))⟩

/-- So has each of several. -/
theorem Variables.shaped {type : VarType} {ds : List Declaration}
    (h : Variables type ts ds) (hts : ∀ t ∈ ts, t.Valued) :
    ∀ d ∈ ds, d.name.kind = .identifier ∧ ∀ e ∈ d.init.toList, e.Shaped := by
  induction h with
  | one hd => exact List.forall_mem_singleton.2 (hd.shaped hts)
  | more hd _ _ ih =>
      rw [List.forall_mem_append, List.forall_mem_cons] at hts
      exact List.forall_mem_cons.2 ⟨hd.shaped hts.1, ih hts.2.2⟩

/-- Names are identifiers. -/
theorem Names.identifiers {names : List Token} (h : Names ts names) :
    ∀ name ∈ names, name.kind = .identifier := by
  induction h with
  | one hname => exact List.forall_mem_singleton.2 hname
  | more hname _ _ ih => exact List.forall_mem_cons.2 ⟨hname, ih⟩

/-- A clause is of good shape. -/
theorem Clause.shaped {c : Option Expr} (h : Clause ts c)
    (hts : ∀ t ∈ ts, t.Valued) :
    ∀ e ∈ c.toList, e.Shaped := by
  cases h with
  | absent => exact List.forall_mem_nil _
  | present he => exact List.forall_mem_singleton.2 (he.shaped hts)

/-- So is a first clause. -/
theorem FirstClause.shaped {first : Option Stmt} (h : FirstClause ts first)
    (hts : ∀ t ∈ ts, t.Valued) : ∀ s ∈ first.toList, s.Shaped := by
  cases h with
  | absent => exact List.forall_mem_nil _
  | declaration _ _ hd =>
      obtain ⟨hname, hinit⟩ := hd.shaped fun t ht =>
        hts t (List.mem_cons_of_mem _ (List.mem_cons_of_mem _ ht))
      exact List.forall_mem_singleton.2
        (List.forall_mem_singleton.2 ⟨hname, hinit⟩)
  | expression he =>
      exact List.forall_mem_singleton.2
        (Stmt.shaped_expression (he.shaped hts))

/-- So is a condition. -/
theorem Head.shaped {e : Expr} (h : Head ts e) (hts : ∀ t ∈ ts, t.Valued) :
    e.Shaped := by
  obtain ⟨-, he, -, -⟩ := h
  exact he.shaped fun t ht =>
    hts t (List.mem_cons_of_mem _ (List.mem_append_left _ ht))

/-- The tree of a statement whose literals have values is well-shaped. -/
theorem Sentence.shaped {role : Role} {s : Stmt} (h : Sentence role ts s)
    (hts : ∀ t ∈ ts, t.Valued) : s.Shaped := by
  induction h with
  | declaration _ _ hds =>
      simp only [List.forall_mem_cons] at hts
      have hshaped := hds.shaped hts.2.2
      refine List.forall_mem_singleton.2 ⟨fun d hd => (hshaped d hd).1,
        fun e he => ?_⟩
      obtain ⟨d, hd, he⟩ := List.mem_flatMap.1 he
      exact (hshaped d hd).2 e he
  | item _ ih => exact ih hts
  | conditional _ _ ih => exact ih (List.forall_mem_cons.1 hts).2
  | ifThen hhead _ ih =>
      rw [List.forall_mem_append] at hts
      exact List.forall_mem_cons.2
        ⟨⟨trivial, List.forall_mem_singleton.2 (hhead.shaped hts.1)⟩, ih hts.2⟩
  | elseIf hhead _ _ _ ihbody ihother =>
      simp only [List.forall_mem_append, List.forall_mem_cons] at hts
      obtain ⟨hhs, hbs, -, hos⟩ := hts
      exact List.forall_mem_cons.2
        ⟨⟨trivial, List.forall_mem_singleton.2 (hhead.shaped hhs)⟩,
          List.forall_mem_append.2 ⟨ihbody hbs, ihother hos⟩⟩
  | ifElse hhead _ _ _ _ ihbody ihother =>
      simp only [List.forall_mem_append, List.forall_mem_cons] at hts
      obtain ⟨hhs, hbs, -, -, hos⟩ := hts
      exact List.forall_mem_cons.2
        ⟨⟨trivial, List.forall_mem_singleton.2 (hhead.shaped hhs)⟩,
          List.forall_mem_append.2 ⟨ihbody hbs, ihother hos⟩⟩
  | @counting _ _ _ _ _ _ _ _ _ _ first condition last body _ _ hfirst _
    hcondition _ hlast _ _ _ ih =>
      simp only [List.forall_mem_append, List.forall_mem_cons] at hts
      obtain ⟨-, -, hfs, -, hcs, -, hls, -, -, hbs⟩ := hts
      have hcondition : (condition.getD (.literal (.truth true))).Shaped := by
        cases condition with
        | none => exact List.forall_mem_singleton.2 Value.noConfusion
        | some e => exact hcondition.shaped hcs e List.mem_cons_self
      have hinner :
          (Stmt.block (body :: (last.map Stmt.expression).toList)).Shaped := by
        refine Stmt.shaped_block
          (List.forall_mem_cons.2 ⟨ih hbs, fun s hs => ?_⟩)
        obtain ⟨e, he, rfl⟩ :=
          Option.map_eq_some_iff.1 (Option.mem_toList.1 hs)
        exact Stmt.shaped_expression
          (hlast.shaped hls e (Option.mem_toList.2 he))
      refine Stmt.shaped_block (List.forall_mem_append.2
        ⟨hfirst.shaped hfs, List.forall_mem_singleton.2 ?_⟩)
      exact List.forall_mem_cons.2
        ⟨⟨trivial, List.forall_mem_singleton.2 hcondition⟩, hinner⟩
  | print _ _ he =>
      simp only [List.forall_mem_cons] at hts
      exact List.forall_mem_singleton.2
        ⟨trivial, List.forall_mem_singleton.2 (he.shaped hts.2.2)⟩
  | input _ _ hnames =>
      exact List.forall_mem_singleton.2 ⟨hnames.identifiers,
        List.forall_mem_nil _⟩
  | @block _ _ parts _ _ _ ih =>
      refine Stmt.shaped_block fun s hs => ?_
      obtain ⟨part, hpart, rfl⟩ := List.mem_map.1 hs
      refine ih part hpart fun t ht =>
        hts t (List.mem_cons_of_mem _ (List.mem_append_left _ ?_))
      exact List.mem_flatMap.2 ⟨part, hpart, ht⟩
  | expression he => exact Stmt.shaped_expression (he.shaped hts)

end Grammar

-- ============================================================ programs

/-- A program that is accepted is made of statements of the grammar, and
of its tokens. -/
theorem Parse.program_items {tokens : List Token} {p : Stmt}
    (h : program tokens = .ok p) :
    ∃ parts : List (List Token × Stmt), p = .program (parts.map (·.2)) ∧
      ∀ part ∈ parts, Grammar.Sentence .item part.1 part.2
        ∧ part.1 ⊆ tokens := by
  unfold program at h
  dsimp only at h
  split at h
  next sugod us hbody =>
    split at h
    next =>
      split at h
      next hempty =>
        obtain ⟨herrors, -⟩ :=
          List.append_eq_nil_iff.1 (List.isEmpty_iff.1 hempty)
        obtain ⟨parts, hparts, hitems, hderived⟩ :=
          items_reads (stop tokens) false us herrors
        obtain rfl := Except.ok.inj h
        refine ⟨parts, by rw [hitems],
          fun part hpart => ⟨hderived part hpart, fun t ht => ?_⟩⟩
        have hus : t ∈ us := by
          rw [← hparts]
          exact List.mem_append_left _ (List.mem_flatMap.2 ⟨part, hpart, ht⟩)
        have hmem : t ∈ body tokens := by
          rw [hbody]
          exact List.mem_cons_of_mem sugod hus
        exact (List.takeWhile_sublist _).subset hmem
      next => cases h
    next => cases h
  next => cases h

/-- The tree of an accepted text is that of a program with well-shaped
statements. -/
theorem Stmt.ofSource_shaped {text : String} {p : Stmt}
    (h : ofSource text = .ok p) :
    ∃ body, p = .program body ∧ ∀ s ∈ body, s.Shaped := by
  unfold ofSource at h
  split at h
  next => cases h
  next tokens hscan =>
    split at h
    next => cases h
    next q hprogram =>
      obtain rfl := Except.ok.inj h
      obtain ⟨parts, rfl, hparts⟩ := Parse.program_items hprogram
      refine ⟨_, rfl, fun s hs => ?_⟩
      obtain ⟨part, hpart, rfl⟩ := List.mem_map.1 hs
      obtain ⟨hsentence, htokens⟩ := hparts part hpart
      exact hsentence.shaped fun t ht => Token.scan_valued hscan t (htokens ht)

-- ================================================================ runs

namespace Run

variable {op : Token} {l r v : Value}

/-- No operator with one operand gives null. -/
theorem applyUnary_ne_null {u : Value} (h : applyUnary op u = .ok v) :
    v ≠ .null := by
  unfold applyUnary numberOperand at h
  rintro rfl
  split at h
  · split at h
    · cases h
    · cases h
  · cases h

/-- Nor does one with two numbers. -/
theorem numberOperands_ne_null {f : Float × Float → Value}
    (hf : ∀ p, f p ≠ .null) (h : (numberOperands op l r).map f = .ok v) :
    v ≠ .null := by
  unfold numberOperands at h
  split at h
  · exact Except.ok.inj h ▸ hf _
  · cases h

/-- No operator gives the null value. -/
theorem applyBinary_ne_null (h : applyBinary op l r = .ok v) : v ≠ .null := by
  unfold applyBinary arithmetic comparison at h
  split at h
  next =>
    split at h
    · exact Except.ok.inj h ▸ Value.noConfusion
    · exact Except.ok.inj h ▸ Value.noConfusion
  iterate 8
    next => exact numberOperands_ne_null (fun _ => Value.noConfusion) h
  iterate 4
    next => exact Except.ok.inj h ▸ Value.noConfusion
  next => cases h

end Run

/-- Where the variables are typed, no well-shaped expression is null. -/
theorem Expr.Shaped.eval_ne_null {e : Expr} {scope : Nat}
    {env env' : Environment} {v : Value} (he : e.Shaped) (henv : env.Typed)
    (h : e.eval scope env = .ok v env') : v ≠ .null := by
  induction e generalizing env env' v with
  | literal u =>
      injection h with h
      exact h ▸ he _ List.mem_cons_self
  | var name =>
      rw [eval_var] at h
      split at h
      next b hb =>
        injection h with h
        exact h ▸ (VarType.accepts_ne (henv.lookup hb)).1
      next => cases h
  | grouping e ih => exact ih (List.forall_mem_cons.1 he).2 henv h
  | unary op e ih =>
      obtain ⟨u, env₁, -, h⟩ := bind_eq_ok h
      exact applyUnary_ne_null (settle_eq_ok h)
  | binary left op right ihleft ihright =>
      obtain ⟨l, env₁, -, h⟩ := bind_eq_ok h
      obtain ⟨r, env₂, -, h⟩ := bind_eq_ok h
      exact applyBinary_ne_null (settle_eq_ok h)
  | logical left op right ihleft ihright =>
      obtain ⟨hleft, hright⟩ :=
        List.forall_mem_append.1 (List.forall_mem_cons.1 he).2
      obtain ⟨l, env₁, hl, h⟩ := bind_eq_ok h
      split at h
      · injection h with h
        exact h ▸ ihleft hleft henv hl
      · -- The right side starts from the state behind the left one, which is
        -- typed again.
        have henv₁ := (left.path scope henv).typed henv
        rw [hl] at henv₁
        exact ihright hright henv₁ h
  | assign name value ih =>
      obtain ⟨u, env₁, hu, -⟩ := bind_eq_ok h
      rcases eval_assign_cases name hu with
        ⟨-, heval⟩ | ⟨b, -, -, heval⟩ | ⟨b, env₂, -, haccepts, -, heval⟩
      · rw [heval] at h
        cases h
      · rw [heval] at h
        cases h
      · rw [heval] at h
        injection h with h
        exact h ▸ (VarType.accepts_ne haccepts).1
  | increment name =>
      change count scope name 1.0 env = .ok v env' at h
      rcases count_cases scope name 1.0 env with
        ⟨-, hcount⟩ | ⟨b, -, -, hcount⟩ | ⟨b, x, env₁, -, -, -, hcount⟩
      · rw [hcount] at h
        cases h
      · rw [hcount] at h
        cases h
      · rw [hcount] at h
        injection h with h
        exact h ▸ Value.noConfusion
  | decrement name => exact (he _ List.mem_cons_self).elim

-- ============================================== faults of such trees

/-- An operator that combines no values is no fault of a well-shaped
expression. -/
theorem Expr.Raises.fault_ne {e : Expr} {err : Error} (h : e.Raises err)
    (he : e.WellShaped) (op : String) : err.fault ≠ .unknownOperator op := by
  cases h with
  | unknownOperator hop => exact absurd he hop
  | _ => exact Fault.noConfusion

namespace Stmt

/-- A statement itself has no operators. -/
theorem Raises.fault_ne {s : Stmt} {err : Error} (h : s.Raises err)
    (op : String) :
    err.fault ≠ .unknownOperator op := by
  cases h with
  | line _ he =>
      intro hfault
      have hcode := ofInput_code he
      rw [hfault] at hcode
      cases hcode
  | _ => exact Fault.noConfusion

namespace Shaped

variable {s : Stmt}

/-- The expressions in a well-shaped statement are well-shaped. -/
theorem expr (hs : s.Shaped) {e : Expr} (he : e ∈ s.exprs) : e.Shaped := by
  obtain ⟨part, hpart, head, hhead, he⟩ := mem_exprs.1 he
  exact fun inner hinner =>
    (hs part hpart).2 head hhead inner (Expr.parts_subset he hinner)

/-- A tree of good shape has no operator that is unknown. -/
theorem fault_ne (hs : s.Shaped) {err : Error} (h : s.Causes err)
    (op : String) :
    err.fault ≠ .unknownOperator op := by
  obtain ⟨part, hpart, hraises | ⟨head, hhead, e, he, hraises⟩⟩ := h
  · exact hraises.fault_ne op
  · exact hraises.fault_ne ((hs part hpart).2 head hhead e he) op

end Shaped

-- ========================================================= the theorem

/-- Every tree that is read from a text is well-shaped throughout. Its
statements are those of one program, which has no other program in it;
and whatever the console does, no expression of the tree is null in any
state that the run goes through, and the run does not fault with an
operator that combines no values. -/
theorem ofSource_wellShaped {text : String} {p : Stmt}
    (h : ofSource text = .ok p) :
    (∃ body, p = .program body ∧ ∀ s ∈ partsAll body, s.WellShaped)
      ∧ (∀ e ∈ p.exprs, e.WellShaped)
      ∧ ∀ {σ : Type} (con : Console (StateM σ)) (limit : Nat) (w : σ),
        (∀ env ∈ Environment.empty
            :: p.trail con limit Environment.global Environment.empty w,
          ∀ e ∈ p.exprs, ∀ scope v env', e.eval scope env = .ok v env' →
          v ≠ .null)
        ∧ ∀ err, (source con limit text w).1 = .over (.error (.runtime err)) →
          ∀ op, err.fault ≠ .unknownOperator op := by
  obtain ⟨body, rfl, hbody⟩ := ofSource_shaped h
  have hexpr : ∀ e ∈ (program body).exprs, e.Shaped := by
    intro e he
    obtain ⟨s, hs, he⟩ := mem_exprs_program.1 he
    exact (hbody s hs).expr he
  refine ⟨⟨body, rfl, fun part hpart => ?_⟩,
    fun e he => hexpr e he e e.mem_parts_self,
    fun con limit w =>
    ⟨fun env henv e he scope v env' heval => ?_, fun err herr op => ?_⟩⟩
  · obtain ⟨s, hs, hpart⟩ := mem_partsAll.1 hpart
    exact (hbody s hs part hpart).1
  · have hpath :=
      (program body).path con limit Environment.global Environment.empty w
        Environment.empty_typed
    have htyped : env.Typed := by
      rcases List.mem_cons.1 henv with rfl | henv
      · exact Environment.empty_typed
      · exact hpath.typed_of_mem Environment.empty_typed env henv
    exact (hexpr e he).eval_ne_null htyped heval
  · -- A program runs its statements in the first scope, so that one of them
    -- caused the fault.
    have hfails :=
      execAll_fails con limit body Environment.global Environment.empty w
    rw [source_apply con limit h] at herr
    have hending :
        (execAll con limit body Environment.global Environment.empty w).1.2
        = .failed err := Ending.eq_failed_of_outcome herr
    rw [hending] at hfails
    obtain ⟨s, hs, hcauses⟩ := hfails
    exact (hbody s hs).fault_ne hcauses op

/-- A program with a negation, a comparison, a joining and an escape code. -/
def tagText : String :=
  "SUGOD\nMUGNA LETRA c='x'\nIPAKITA: DILI (c == 'y') & [#]\nKATAPUSAN"

/-- The tree of `tagText`. -/
def tagTree : Stmt :=
  let c line column : Token := ⟨.identifier, "c", none, ⟨line, column⟩⟩
  .program
    [ .declareAll [⟨c 2 12, some (.literal (.char 'x')), .letra⟩],
      .print ⟨.ipakita, "IPAKITA", none, ⟨3, 0⟩⟩
        (.binary
          (.unary ⟨.dili, "DILI", none, ⟨3, 9⟩⟩
            (.grouping (.binary (.var (c 3 15)) ⟨.equalEqual, "==", none,
              ⟨3, 17⟩⟩ (.literal (.char 'y')))))
          ⟨.ampersand, "&", none, ⟨3, 25⟩⟩ (.literal (.char '#'))) ]

theorem ofSource_wellShaped_tag :
    ofSource tagText = .ok tagTree ∧ (∀ e ∈ tagTree.exprs, e.WellShaped)
      ∧ ∀ err, (source Scripted.console 0 tagText { queue := [] }).1
          = .over (.error (.runtime err)) → ∀ op,
            err.fault ≠ .unknownOperator op := by
  have h : ofSource tagText = .ok tagTree := by with_unfolding_all rfl
  obtain ⟨-, hexprs, hruns⟩ := ofSource_wellShaped h
  exact ⟨h, hexprs, (hruns Scripted.console 0 { queue := [] }).2⟩

end Stmt

end BisayaPlus
