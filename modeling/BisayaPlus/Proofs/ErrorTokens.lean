/-
Every error points at a token of the text.

Once a text is scanned, what is reported later is placed by tokens alone.
Reading notices a fault at a token that it has come to, or at the end of
the tokens, which is a token of the scanned text as well
(`Parse.program_error_mem`). A run faults at a token that the tree keeps
(`Stmt.Causes.exists_kept`), and a tree keeps none but those that it was
read from (`Grammar.Sentence.kept_subset`), although a counting loop is
taken apart and put together as other statements.
-/
import BisayaPlus.Proofs.Brackets
import BisayaPlus.Proofs.Shapes

namespace BisayaPlus

open Run

-- ======================================================= syntax errors

namespace Parse

variable {stop : Token} {tokens : List Token}

namespace Walk

variable {goal : Goal} {ts rest : List Token} {errors : List Error}

/-- A walk leaves some of the tokens it starts from. -/
theorem rest_subset (h : Walk stop goal ts rest errors) : rest ⊆ ts := by
  obtain ⟨used, rfl, -⟩ := h.spares
  exact List.subset_append_right used rest

/-- A fault is noticed at one of the tokens ahead, or at the end. -/
theorem error_mem (h : Walk stop goal ts rest errors) :
    ∀ e ∈ errors, e.token ∈ stop :: ts := by
  induction h with
  | here | take | ended => exact List.forall_mem_nil _
  | andThen h _ ih ih' | giveUp h _ ih ih' | more h _ ih ih' =>
      -- What is noticed later is behind the tokens taken first.
      refine List.forall_mem_append.2 ⟨ih, fun e he => ?_⟩
      exact List.cons_subset_cons stop h.rest_subset (ih' e he)
  | target _ _ _ ih =>
      refine List.forall_mem_append.2 ⟨fun e he => ?_,
        List.forall_mem_singleton.2 ?_⟩
      · exact List.cons_subset_cons stop (List.subset_cons_self _ _) (ih e he)
      · exact List.mem_cons_of_mem stop List.mem_cons_self
  | opened _ _ ih =>
      exact fun e he =>
        List.cons_subset_cons stop (List.subset_cons_self _ _) (ih e he)
  | @refuse ts fault _ =>
      refine List.forall_mem_singleton.2 ?_
      cases ts with
      | nil => exact List.mem_cons_self
      | cons t us => exact List.mem_cons_of_mem stop List.mem_cons_self
  | read _ _ ih | recovered _ _ ih => exact ih

end Walk

/-- An error behind the items is at a token that is left there. -/
theorem closing_error_mem (ts : List Token) :
    ∀ e ∈ closing stop ts, e.token ∈ stop :: ts := by
  intro e he
  rw [closing.eq_def] at he
  split at he
  next =>
    obtain rfl := List.mem_singleton.1 he
    exact List.mem_cons_self
  next t us =>
    split at he
    next =>
      obtain ⟨u, hu, rfl⟩ := Option.map_eq_some_iff.1 (Option.mem_toList.1 he)
      exact List.mem_cons_of_mem stop
        (List.mem_cons_of_mem t (List.mem_of_mem_head? hu))
    next =>
      obtain rfl := List.mem_singleton.1 he
      exact List.mem_cons_of_mem stop List.mem_cons_self

/-- What is wrong with a program is noticed at one of its tokens or at its
end. -/
theorem program_error_mem {errors : List Error}
    (h : program tokens = .error errors) :
    ∀ e ∈ errors, e.token ∈ Parse.stop tokens :: body tokens := by
  unfold program at h
  dsimp only at h
  split at h
  next t us hbody =>
    rw [hbody]
    split at h
    next =>
      split at h
      next => cases h
      next =>
        obtain rfl := Except.error.inj h
        have hwalk := items_walks (Parse.stop tokens) false us
        have hus : us ⊆ t :: us := List.subset_cons_self t us
        have hrest := List.Subset.trans hwalk.rest_subset hus
        refine List.forall_mem_append.2 ⟨fun e he => ?_, fun e he => ?_⟩
        · exact List.cons_subset_cons _ hus (hwalk.error_mem e he)
        · exact List.cons_subset_cons _ hrest (closing_error_mem _ e he)
    next =>
      obtain rfl := Except.error.inj h
      exact List.forall_mem_singleton.2
        (List.mem_cons_of_mem _ List.mem_cons_self)
  next =>
    obtain rfl := Except.error.inj h
    exact List.forall_mem_singleton.2 List.mem_cons_self

/-- If the tokens have an end, this is where the end is noticed. -/
theorem stop_mem {t : Token} (ht : t ∈ tokens) (heof : t.kind = .eof) :
    Parse.stop tokens ∈ tokens := by
  obtain ⟨-, ⟨hbody, -⟩ | ⟨behind, htokens⟩⟩ := stop_cases tokens
  · rw [← hbody] at ht
    exact absurd heof (ne_eof_of_mem_body t ht)
  · generalize Parse.stop tokens = stop, body tokens = before at htokens ⊢
    rw [htokens]
    exact List.mem_append_right before List.mem_cons_self

theorem Error.location_of_ne_eof {e : Error} (h : e.token.kind ≠ .eof) :
    e.location = " at '" ++ e.token.lexeme ++ "'" :=
  if_neg h

/-- An error is shown at the end if its token is the end. -/
theorem Error.location_eq_end_iff (e : Error) :
    e.location = " at end" ↔ e.token.kind = .eof := by
  constructor
  · intro hlocation
    by_contra h
    rw [location_of_ne_eof h] at hlocation
    -- The quote stands where the other text goes on with a letter.
    have hquote := congrArg (·.toList[4]?) hlocation
    simp at hquote
  · exact fun h => if_pos h

end Parse

-- ================================================= the tokens of a tree

/-- The token that an expression itself keeps. -/
def Expr.token? : Expr → Option Token
  | var name | assign name _ | increment name | decrement name => some name
  | unary op _ | binary _ op _ | logical _ op _ => some op
  | literal _ | grouping _ => none

/-- All the tokens in an expression. -/
def Expr.kept (e : Expr) : List Token := e.parts.filterMap Expr.token?

namespace Stmt

/-- The tokens that a statement itself keeps. -/
def ownTokens : Stmt → List Token
  | print keyword _ => [keyword]
  | declare d => [d.name]
  | declareAll ds => ds.map Declaration.name
  | input names => names
  | expression _ | block _ | ifThen _ _ | ifElse _ _ _ | loop _ _
    | program _ => []

/-- All the tokens in a statement. -/
def kept (s : Stmt) : List Token :=
  s.parts.flatMap fun part => part.ownTokens ++ part.heads.flatMap Expr.kept

end Stmt

-- --------------------------------------------------------- faults at them

/-- What an expression raises by itself is at its own token. -/
theorem Expr.Raises.exists_token {e : Expr} {err : Error} (h : e.Raises err) :
    ∃ t, e.token? = some t ∧ err.span = t.span := by
  cases h with
  | @undefined e name hname =>
      refine ⟨name, ?_, rfl⟩
      cases e with
      | var | assign | increment | decrement => exact hname
      | _ => cases hname
  | operand | operands | unknownOperator | assignment | increment
    | decrement =>
      exact ⟨_, rfl, rfl⟩

/-- What it causes is at a token that it keeps. -/
theorem Expr.Causes.exists_kept {e : Expr} {err : Error} (h : e.Causes err) :
    ∃ t ∈ e.kept, err.span = t.span := by
  obtain ⟨part, hpart, hraises⟩ := h
  obtain ⟨t, ht, hspan⟩ := hraises.exists_token
  exact ⟨t, List.mem_filterMap.2 ⟨part, hpart, ht⟩, hspan⟩

namespace Stmt

/-- The name of a variable is a token of its declaration. -/
theorem name_mem_ownTokens {s : Stmt} {d : Declaration}
    (h : d ∈ s.declarations) :
    d.name ∈ s.ownTokens := by
  cases s with
  | declare | declareAll => exact List.mem_map_of_mem h
  | _ => cases h

/-- What a statement raises by itself is at a token of its own. -/
theorem Raises.exists_token {s : Stmt} {err : Error} (h : s.Raises err) :
    ∃ t ∈ s.ownTokens, err.span = t.span := by
  cases h with
  | print => exact ⟨_, List.mem_cons_self, rfl⟩
  | initializer hd => exact ⟨_, name_mem_ownTokens hd, rfl⟩
  | console hname | noInput hname | undefinedType hname =>
      exact ⟨_, hname, rfl⟩
  | line hname he =>
      refine ⟨_, hname, ?_⟩
      rcases ofInput_error he with ⟨text, rfl⟩ | ⟨text, rfl⟩ | rfl <;> rfl

/-- A statement faults at one of its tokens. -/
theorem Causes.exists_kept {s : Stmt} {err : Error} (h : s.Causes err) :
    ∃ t ∈ s.kept, err.span = t.span := by
  obtain ⟨part, hpart, hraises | ⟨e, he, hcauses⟩⟩ := h
  · obtain ⟨t, ht, hspan⟩ := hraises.exists_token
    exact ⟨t, List.mem_flatMap.2 ⟨part, hpart, List.mem_append_left _ ht⟩,
      hspan⟩
  · obtain ⟨t, ht, hspan⟩ := hcauses.exists_kept
    refine ⟨t, List.mem_flatMap.2 ⟨part, hpart, List.mem_append_right _ ?_⟩,
      hspan⟩
    exact List.mem_flatMap.2 ⟨e, he, ht⟩

end Stmt

-- ------------------------------------------------- where they come from

namespace Expr

variable {left right : Expr} {op : Token} {all : List Token}

theorem kept_binary_subset (hop : op ∈ all) (hleft : left.kept ⊆ all)
    (hright : right.kept ⊆ all) :
    (binary left op right).kept ⊆ all := by
  simp_all [kept, parts, token?]

theorem kept_logical_subset (hop : op ∈ all) (hleft : left.kept ⊆ all)
    (hright : right.kept ⊆ all) : (logical left op right).kept ⊆ all := by
  simp_all [kept, parts, token?]

end Expr

namespace Stmt

variable {all : List Token}

/-- The tokens of a statement, by its parts. -/
theorem kept_subset {s : Stmt} :
    s.kept ⊆ all ↔ ∀ part ∈ s.parts, part.ownTokens ⊆ all ∧ ∀ e ∈ part.heads,
      e.kept ⊆ all := by
  simp only [kept, List.subset_def, List.mem_flatMap, List.mem_append]
  grind

theorem kept_expression_subset {e : Expr} (he : e.kept ⊆ all) :
    (expression e).kept ⊆ all :=
  kept_subset.2 (List.forall_mem_singleton.2
    ⟨List.nil_subset all, List.forall_mem_singleton.2 he⟩)

theorem kept_ifElse_subset {condition : Expr} {body other : Stmt}
    (hcondition : condition.kept ⊆ all) (hbody : body.kept ⊆ all)
    (hother : other.kept ⊆ all) :
    (ifElse condition body other).kept ⊆ all := by
  refine kept_subset.2 (List.forall_mem_cons.2
    ⟨⟨List.nil_subset all, List.forall_mem_singleton.2 hcondition⟩, ?_⟩)
  exact List.forall_mem_append.2 ⟨kept_subset.1 hbody, kept_subset.1 hother⟩

/-- A block keeps the tokens that its statements keep. -/
theorem kept_block_subset {body : List Stmt} (h : ∀ s ∈ body, s.kept ⊆ all) :
    (block body).kept ⊆ all := by
  refine kept_subset.2 (List.forall_mem_cons.2
    ⟨⟨List.nil_subset all, List.forall_mem_nil _⟩, fun part hpart => ?_⟩)
  obtain ⟨s, hs, hpart⟩ := mem_partsAll.1 hpart
  exact kept_subset.1 (h s hs) part hpart

end Stmt

namespace Grammar

variable {ts all : List Token}

/-- An expression keeps tokens that it was read from. -/
theorem Phrase.kept_subset {l : Level} {e : Expr} (h : Phrase l ts e)
    (hts : ts ⊆ all) :
    e.kept ⊆ all := by
  induction h with
  | lift _ _ ih => exact ih hts
  | assign _ _ _ ih =>
      simp only [List.cons_subset] at hts
      exact List.cons_subset.2 ⟨hts.1, ih hts.2.2⟩
  | disjunction _ _ _ ihl ihr | conjunction _ _ _ ihl ihr =>
      simp only [List.append_subset, List.cons_subset] at hts
      exact Expr.kept_logical_subset hts.2.1 (ihl hts.1) (ihr hts.2.2)
  | equality _ _ _ ihl ihr | comparison _ _ _ ihl ihr | sum _ _ _ ihl ihr
  | product _ _ _ ihl ihr =>
      simp only [List.append_subset, List.cons_subset] at hts
      exact Expr.kept_binary_subset hts.2.1 (ihl hts.1) (ihr hts.2.2)
  | minus _ _ ih | negation _ _ _ ih =>
      obtain ⟨hop, hts⟩ := List.cons_subset.1 hts
      exact List.cons_subset.2 ⟨hop, ih hts⟩
  | oo | dili | literal | newline => exact List.nil_subset all
  | name | increment =>
      exact List.cons_subset.2 ⟨hts List.mem_cons_self, List.nil_subset all⟩
  | grouping _ _ _ ih =>
      simp only [List.cons_subset, List.append_subset] at hts
      exact ih hts.2.1

/-- A variable keeps tokens that it is read from. -/
theorem Variable.kept_subset {type : VarType} {d : Declaration}
    (h : Variable type ts d) (hts : ts ⊆ all) :
    d.name ∈ all ∧ ∀ e ∈ d.init.toList, e.kept ⊆ all := by
  cases h with
  | plain => exact ⟨hts List.mem_cons_self, List.forall_mem_nil _⟩
  | valued _ _ he =>
      simp only [List.cons_subset] at hts
      exact ⟨hts.1, List.forall_mem_singleton.2 (he.kept_subset hts.2.2)⟩

/-- So does each of several. -/
theorem Variables.kept_subset {type : VarType} {ds : List Declaration}
    (h : Variables type ts ds) (hts : ts ⊆ all) :
    ∀ d ∈ ds, d.name ∈ all ∧ ∀ e ∈ d.init.toList, e.kept ⊆ all := by
  induction h with
  | one hd => exact List.forall_mem_singleton.2 (hd.kept_subset hts)
  | more hd _ _ ih =>
      simp only [List.append_subset, List.cons_subset] at hts
      exact List.forall_mem_cons.2 ⟨hd.kept_subset hts.1, ih hts.2.2⟩

/-- Names are among the tokens they are read from. -/
theorem Names.subset {names : List Token} (h : Names ts names)
    (hts : ts ⊆ all) :
    names ⊆ all := by
  induction h with
  | one => exact hts
  | more _ _ _ ih =>
      simp only [List.cons_subset] at hts
      exact List.cons_subset.2 ⟨hts.1, ih hts.2.2⟩

/-- A clause keeps tokens that it is read from. -/
theorem Clause.kept_subset {c : Option Expr} (h : Clause ts c)
    (hts : ts ⊆ all) :
    ∀ e ∈ c.toList, e.kept ⊆ all := by
  cases h with
  | absent => exact List.forall_mem_nil _
  | present he => exact List.forall_mem_singleton.2 (he.kept_subset hts)

/-- So does a condition. -/
theorem Head.kept_subset {e : Expr} (h : Head ts e) (hts : ts ⊆ all) :
    e.kept ⊆ all := by
  obtain ⟨-, he, -, -⟩ := h
  simp only [List.cons_subset, List.append_subset] at hts
  exact he.kept_subset hts.2.1

/-- So does a first clause. -/
theorem FirstClause.kept_subset {first : Option Stmt}
    (h : FirstClause ts first) (hts : ts ⊆ all) :
    ∀ s ∈ first.toList, s.kept ⊆ all := by
  cases h with
  | absent => exact List.forall_mem_nil _
  | declaration _ _ hd =>
      simp only [List.cons_subset] at hts
      obtain ⟨hname, hinit⟩ := hd.kept_subset hts.2.2
      refine List.forall_mem_singleton.2
        (Stmt.kept_subset.2 (List.forall_mem_singleton.2 ?_))
      exact ⟨List.cons_subset.2 ⟨hname, List.nil_subset all⟩, hinit⟩
  | expression he =>
      exact List.forall_mem_singleton.2
        (Stmt.kept_expression_subset (he.kept_subset hts))

/-- A statement keeps tokens that it was read from. -/
theorem Sentence.kept_subset {role : Role} {s : Stmt} (h : Sentence role ts s)
    (hts : ts ⊆ all) :
    s.kept ⊆ all := by
  induction h with
  | @declaration _ _ _ _ ds _ _ hds =>
      simp only [List.cons_subset] at hts
      have hkept := hds.kept_subset hts.2.2
      refine Stmt.kept_subset.2
        (List.forall_mem_singleton.2 ⟨fun name hname => ?_, fun e he => ?_⟩)
      · obtain ⟨d, hd, rfl⟩ := List.mem_map.1 hname
        exact (hkept d hd).1
      · obtain ⟨d, hd, he⟩ := List.mem_flatMap.1 he
        exact (hkept d hd).2 e he
  | item _ ih => exact ih hts
  | conditional _ _ ih => exact ih (List.cons_subset.1 hts).2
  | ifThen hhead _ ih =>
      obtain ⟨hhs, hbs⟩ := List.append_subset.1 hts
      exact Stmt.kept_subset.2 (List.forall_mem_cons.2
        ⟨⟨List.nil_subset all,
          List.forall_mem_singleton.2 (hhead.kept_subset hhs)⟩,
          Stmt.kept_subset.1 (ih hbs)⟩)
  | elseIf hhead _ _ _ ihbody ihother =>
      simp only [List.append_subset, List.cons_subset] at hts
      obtain ⟨hhs, hbs, -, hos⟩ := hts
      exact Stmt.kept_ifElse_subset (hhead.kept_subset hhs) (ihbody hbs)
        (ihother hos)
  | ifElse hhead _ _ _ _ ihbody ihother =>
      simp only [List.append_subset, List.cons_subset] at hts
      obtain ⟨hhs, hbs, -, -, hos⟩ := hts
      exact Stmt.kept_ifElse_subset (hhead.kept_subset hhs) (ihbody hbs)
        (ihother hos)
  | @counting _ _ _ _ _ _ _ _ _ _ first condition last body _ _ hfirst _
    hcondition _ hlast _ _ _ ih =>
      simp only [List.append_subset, List.cons_subset] at hts
      obtain ⟨-, -, hfs, -, hcs, -, hls, -, -, hbs⟩ := hts
      -- A condition that is left out is a literal, which keeps no token.
      have hcondition : (condition.getD (.literal (.truth true))).kept
          ⊆ all := by
        cases condition with
        | none => exact List.nil_subset all
        | some e => exact hcondition.kept_subset hcs e List.mem_cons_self
      have hinner :
          (Stmt.block (body :: (last.map Stmt.expression).toList)).kept
          ⊆ all := by
        refine Stmt.kept_block_subset
          (List.forall_mem_cons.2 ⟨ih hbs, fun s hs => ?_⟩)
        obtain ⟨e, he, rfl⟩ :=
          Option.map_eq_some_iff.1 (Option.mem_toList.1 hs)
        exact Stmt.kept_expression_subset
          (hlast.kept_subset hls e (Option.mem_toList.2 he))
      refine Stmt.kept_block_subset (List.forall_mem_append.2
        ⟨hfirst.kept_subset hfs, List.forall_mem_singleton.2 ?_⟩)
      exact Stmt.kept_subset.2 (List.forall_mem_cons.2
        ⟨⟨List.nil_subset all, List.forall_mem_singleton.2 hcondition⟩,
          Stmt.kept_subset.1 hinner⟩)
  | print _ _ he =>
      simp only [List.cons_subset] at hts
      refine Stmt.kept_subset.2 (List.forall_mem_singleton.2
        ⟨List.cons_subset.2 ⟨hts.1, List.nil_subset all⟩, ?_⟩)
      exact List.forall_mem_singleton.2 (he.kept_subset hts.2.2)
  | input _ _ hnames =>
      simp only [List.cons_subset] at hts
      exact Stmt.kept_subset.2 (List.forall_mem_singleton.2
        ⟨hnames.subset hts.2.2, List.forall_mem_nil _⟩)
  | @block _ _ parts _ _ _ ih =>
      simp only [List.cons_subset, List.append_subset] at hts
      refine Stmt.kept_block_subset fun s hs => ?_
      obtain ⟨part, hpart, rfl⟩ := List.mem_map.1 hs
      exact ih part hpart fun t ht =>
        hts.2.1 (List.mem_flatMap.2 ⟨part, hpart, ht⟩)
  | expression he => exact Stmt.kept_expression_subset (he.kept_subset hts)

end Grammar

/-- A program keeps tokens that it was read from. -/
theorem Parse.program_kept_subset {tokens : List Token} {p : Stmt}
    (h : program tokens = .ok p) : p.kept ⊆ tokens := by
  obtain ⟨parts, rfl, hparts⟩ := program_items h
  refine Stmt.kept_subset.2 (List.forall_mem_cons.2
    ⟨⟨List.nil_subset tokens, List.forall_mem_nil _⟩, fun part hpart => ?_⟩)
  obtain ⟨s, hs, hpart⟩ := Stmt.mem_partsAll.1 hpart
  obtain ⟨item, hitem, rfl⟩ := List.mem_map.1 hs
  obtain ⟨hsentence, htokens⟩ := hparts item hitem
  exact Stmt.kept_subset.1 (hsentence.kept_subset htokens) part hpart

-- ========================================================= the theorem

/-- A text that scans has an end token. -/
theorem Token.scan_eof {text : String} {tokens : List Token}
    (h : scan text = .ok tokens) :
    ∃ t ∈ tokens, t.kind = .eof := by
  rcases scan_cases text with ⟨-, hscan⟩ | ⟨-, hscan⟩
  · obtain rfl := Except.ok.inj (hscan.symm.trans h)
    exact ⟨_, List.mem_append_right _ List.mem_cons_self, rfl⟩
  · rw [hscan] at h
    cases h

/-- A text that is scanned is a program if its tokens are one. -/
theorem Stmt.ofSource_eq {text : String} {tokens : List Token}
    (h : Token.scan text = .ok tokens) :
    ofSource text = (Parse.program tokens).mapError .syntactic := by
  unfold ofSource
  rw [h]
  dsimp only
  cases Parse.program tokens with
  | error errors => rfl
  | ok p => rfl

/-- The error is shown at the token, which gives the words for the place. -/
structure Diagnostic.PointsAt (d : Diagnostic) (t : Token) : Prop where
  span : d.span = t.span
  atEnd : d.location = " at end" ↔ t.kind = .eof
  atLexeme : t.kind ≠ .eof → d.location = " at '" ++ t.lexeme ++ "'"

theorem Parse.Error.pointsAt (e : Parse.Error) :
    e.diagnostic.PointsAt e.token :=
  ⟨rfl, e.location_eq_end_iff, location_of_ne_eof⟩

/-- If a text is scanned and its run fails, every error that is reported
has the place of a token of the text. Either the text is no program, and
the token gives the words for the place; or the program faulted, and the
token is one that its tree keeps. -/
theorem Run.source_errors_at_tokens {σ : Type} {con : Console (StateM σ)}
    {limit : Nat} {text : String} {tokens : List Token} {w : σ} {e : RunError}
    (hscan : Token.scan text = .ok tokens)
    (h : (source con limit text w).1 = .over (.error e)) :
    (∃ errors, e = .source (.syntactic errors) ∧ ∀ d ∈ e.diagnostics,
      ∃ t ∈ tokens, d.PointsAt t)
      ∨ ∃ p err, Stmt.ofSource text = .ok p ∧ e = .runtime err
        ∧ ∀ d ∈ e.diagnostics, d.location = "" ∧ ∃ t ∈ p.kept,
          t ∈ tokens ∧ d.span = t.span := by
  have hsource := Stmt.ofSource_eq hscan
  cases hprogram : Parse.program tokens with
  | error errors =>
      rw [hprogram] at hsource
      rw [source_apply_error con limit hsource] at h
      obtain rfl : RunError.source (.syntactic errors) = e := by
        injection h with h
        injection h
      refine .inl ⟨errors, rfl, fun d hd => ?_⟩
      obtain ⟨err, herr, rfl⟩ := List.mem_map.1 hd
      refine ⟨err.token, ?_, err.pointsAt⟩
      obtain ⟨t, ht, heof⟩ := Token.scan_eof hscan
      rcases List.mem_cons.1 (Parse.program_error_mem hprogram err herr) with
        hstop | hbody
      · exact hstop ▸ Parse.stop_mem ht heof
      · exact (List.takeWhile_sublist _).subset hbody
  | ok p =>
      rw [hprogram] at hsource
      rw [source_apply con limit hsource] at h
      obtain ⟨err, rfl, hending⟩ := Ending.exists_failed_of_outcome h
      have hfails :=
        p.exec_fails con limit Environment.global Environment.empty w
      change (p.exec con limit Environment.global Environment.empty w).1.2
        = _ at hending
      rw [hending] at hfails
      obtain ⟨t, ht, hspan⟩ := Stmt.Causes.exists_kept hfails
      refine .inr ⟨p, err, hsource, rfl,
        List.forall_mem_singleton.2 ⟨rfl, t, ht, ?_, hspan⟩⟩
      exact Parse.program_kept_subset hprogram ht

/-- One statement stops too early, and the other one at the end. -/
def brokenText : String := "SUGOD\nIPAKITA: )\nDAWAT: x,\n"

/-- What is wrong with it. -/
def brokenErrors : List Parse.Error :=
  let stop := Token.endOfText ⟨4, 0⟩
  [⟨.expression, ⟨.rightParen, ")", none, ⟨2, 9⟩⟩⟩, ⟨.variableName, stop⟩,
    ⟨.programEnd, stop⟩]

/-- The last clause of the loop, which is run behind the body, names no
variable. -/
def loopText : String :=
  "SUGOD\nALANG SA (,,n = 'a') PUNDOK \x7b \x7d\nKATAPUSAN"

/-- The program of the text. -/
def loopTree : Stmt :=
  .program [.block [.loop (.literal (.truth true)) (.block
    [.block [], .expression
      (.assign ⟨.identifier, "n", none, ⟨2, 12⟩⟩ (.literal (.char 'a')))])]]

/-- Either text has its errors at its tokens. -/
theorem Run.source_errors_at_tokens_twoTexts :
    (∃ tokens, Token.scan brokenText = .ok tokens
      ∧ (source Scripted.console 0 brokenText { queue := [] }).1
        = .over (.error (.source (.syntactic brokenErrors)))
      ∧ ∀ err ∈ brokenErrors, ∃ t ∈ tokens, err.diagnostic.PointsAt t)
    ∧ ∃ tokens, Token.scan loopText = .ok tokens
      ∧ (source Scripted.console 1 loopText { queue := [] }).1
        = .over (.error (.runtime ⟨.undefined "n", ⟨2, 12⟩⟩))
      ∧ ∃ t ∈ loopTree.kept, t ∈ tokens ∧ t.span = ⟨2, 12⟩ := by
  have hbroken : Stmt.ofSource brokenText
      = .error (.syntactic brokenErrors) := by
    with_unfolding_all rfl
  have hloop : Stmt.ofSource loopText = .ok loopTree := by
    with_unfolding_all rfl
  obtain ⟨tokens, hscan⟩ : ∃ tokens, Token.scan brokenText = .ok tokens :=
    ⟨_, by with_unfolding_all rfl⟩
  obtain ⟨tokens', hscan'⟩ : ∃ tokens, Token.scan loopText = .ok tokens :=
    ⟨_, by with_unfolding_all rfl⟩
  constructor
  · have hfails : (source Scripted.console 0 brokenText { queue := [] }).1
        = .over (.error (.source (.syntactic brokenErrors))) := by
      rw [source_apply_error Scripted.console 0 hbroken]
    refine ⟨tokens, hscan, hfails, fun err herr => ?_⟩
    rcases source_errors_at_tokens hscan hfails with ⟨errors, -, hshown⟩
      | ⟨p, err', -, he, -⟩
    · exact hshown err.diagnostic (List.mem_map_of_mem herr)
    · cases he
  · have hending :
        (loopTree.interpret Scripted.console 1 Environment.empty
          { queue := [] }).1.2
        = .failed ⟨.undefined "n", ⟨2, 12⟩⟩ := by decide +kernel
    have hfails : (source Scripted.console 1 loopText { queue := [] }).1
        = .over (.error (.runtime ⟨.undefined "n", ⟨2, 12⟩⟩)) := by
      rw [source_apply Scripted.console 1 hloop]
      exact congrArg Ending.outcome hending
    refine ⟨tokens', hscan', hfails, ?_⟩
    rcases source_errors_at_tokens hscan' hfails with ⟨errors, he, -⟩
      | ⟨p, err, hp, -, hshown⟩
    · cases he
    · obtain rfl := Except.ok.inj (hp.symm.trans hloop)
      obtain ⟨-, t, ht, htokens, hspan⟩ := hshown _ List.mem_cons_self
      exact ⟨t, ht, htokens, hspan.symm⟩

end BisayaPlus
