/-
Reading statements.

    declaration = MUGNA type variable {"," variable} | statement
    variable    = name ["=" expression]
    statement   = KUNG condition {KUNG DILI condition}
                    [KUNG WALA PUNDOK statement]
                | ALANG SA "(" [first] "," [expression] "," [expression] ")"
                    PUNDOK statement
                | IPAKITA ":" expression
                | DAWAT ":" name {"," name}
                | "{" {declaration} "}"
                | expression
    condition   = "(" expression ")" PUNDOK statement
    first       = MUGNA type variable | expression

A statement has no end mark: it is over where its last phrase is. A
declaration that was given up leaves no tree, and reading goes on at the
next boundary (`Parse/Recovery.lean`).
-/
import BisayaPlus.Parse.Expression
import BisayaPlus.Parse.Recovery
import BisayaPlus.Tree.Basic

namespace BisayaPlus.Parse

-- ======================================================== declarations

/-- Reads the name of a type. -/
def typeName (stop : Token) (ts : List Token) : Reply VarType ts :=
  match ts with
  | t :: us =>
      match VarType.ofKind? t.kind with
      | some type => .parsed type us [] (Behind.cons t us)
      | none => refuse stop .typeName (t :: us)
  | [] => refuse stop .typeName []

/-- Reads one variable of a declaration, with its first value if one is
given. -/
def declared (stop : Token) (type : VarType) (ts : List Token) :
    Reply Declaration ts :=
  (expect stop .identifier .variableName ts).bind (List.suffix_refl ts)
    fun name us _ hu =>
    match us, hu with
    | t :: vs, hu =>
        if t.kind = .assign then
          (expression stop vs).bind hu.suffix_tail fun e ws _ hw =>
            .parsed ⟨name, some e, type⟩ ws [] hw
        else .parsed ⟨name, none, type⟩ (t :: vs) [] hu
    | [], hu => .parsed ⟨name, none, type⟩ [] [] hu

/-- Goes on with the variables of a declaration; those before are given
last first. -/
def declaredRest (stop : Token) (type : VarType) (before : List Declaration)
    {ts : List Token} (us : List Token) (hu : Behind us ts) : Reply Stmt ts :=
  match us, hu with
  | t :: vs, hu =>
      if t.kind = .comma then
        (declared stop type vs).bind hu.tail.suffix fun d ws _hv hw =>
          declaredRest stop type (d :: before) ws hw
      else .parsed (.declareAll before.reverse) (t :: vs) [] hu
  | [], hu => .parsed (.declareAll before.reverse) [] [] hu
termination_by us.length
decreasing_by exact Nat.lt_succ_of_lt _hv.length_lt

/-- Reads what follows `MUGNA`. -/
def declarations (stop : Token) (ts : List Token) : Reply Stmt ts :=
  (typeName stop ts).bind (List.suffix_refl ts) fun type us _ hu =>
    (declared stop type us).bind hu.suffix fun d vs _ hv =>
      declaredRest stop type [d] vs hv

-- ===================================================== input and output

/-- Reads what follows `IPAKITA`. -/
def printed (stop keyword : Token) (ts : List Token) : Reply Stmt ts :=
  (expect stop .colon .printColon ts).bind (List.suffix_refl ts)
    fun _ us _ hu =>
    (expression stop us).bind hu.suffix fun e vs _ hv =>
      .parsed (.print keyword e) vs [] hv

/-- Goes on with the names of an input statement; those before are given
last first. -/
def namesRest (stop : Token) (before : List Token) {ts : List Token}
    (us : List Token) (hu : Behind us ts) : Reply Stmt ts :=
  match us, hu with
  | t :: vs, hu =>
      if t.kind = .comma then
        (expect stop .identifier .variableName vs).bind hu.tail.suffix
          fun name ws _hv hw =>
          namesRest stop (name :: before) ws hw
      else .parsed (.input before.reverse) (t :: vs) [] hu
  | [], hu => .parsed (.input before.reverse) [] [] hu
termination_by us.length
decreasing_by exact Nat.lt_succ_of_lt _hv.length_lt

/-- Reads what follows `DAWAT`. -/
def names (stop : Token) (ts : List Token) : Reply Stmt ts :=
  (expect stop .colon .inputColon ts).bind (List.suffix_refl ts)
    fun _ us _ hu =>
    (expect stop .identifier .variableName us).bind hu.suffix
      fun name vs _ hv =>
      namesRest stop [name] vs hv

-- ======================================================== loop clauses

/-- Reads an expression and the token that ends it. -/
def delimited (stop : Token) (delimiter : Token.Kind) (fault : Fault)
    (ts : List Token) :
    Reply Expr ts :=
  (expression stop ts).bind (List.suffix_refl ts) fun e us _ hu =>
    (expect stop delimiter fault us).bind hu.suffix fun _ vs _ hv =>
      .parsed e vs [] hv

/-- Reads a clause that may be left out, and the token that ends it. -/
def clause (stop : Token) (delimiter : Token.Kind) (fault : Fault)
    (ts : List Token) :
    Reply (Option Expr) ts :=
  match ts with
  | t :: us =>
      if t.kind = delimiter then .parsed none us [] (Behind.cons t us)
      else (delimited stop delimiter fault (t :: us)).map some
  | [] => (delimited stop delimiter fault []).map some

/-- Reads the first clause of a loop and the comma that ends it: a
declaration, an expression or nothing. -/
def firstClause (stop : Token) (ts : List Token) : Reply (Option Stmt) ts :=
  match ts with
  | t :: us =>
      if t.kind = .mugna then
        (typeName stop us).bind (List.suffix_cons t us) fun type vs _ hv =>
          (declared stop type vs).bind hv.suffix_cons fun d ws _ hw =>
            (expect stop .comma .firstClauseEnd ws).bind hw.suffix_cons
              fun _ xs _ hx =>
              .parsed (some (.declare d)) xs [] hx
      else (clause stop .comma .firstClauseEnd (t :: us)).map
        (·.map Stmt.expression)
  | [] => (clause stop .comma .firstClauseEnd []).map (·.map Stmt.expression)

/-- The tree of a counting loop. The first clause and the loop share a
block, and each turn runs the body and the last clause in a block of
their own. A condition that was left out always holds. -/
def lowerLoop (first : Option Stmt) (condition last : Option Expr)
    (body : Stmt) : Stmt :=
  .block (first.toList ++
    [ .loop (condition.getD (.literal (.truth true)))
        (.block (body :: (last.map Stmt.expression).toList)) ])

-- ========================================================== statements

/-- A declaration or statement, if it could be read, with the tokens left
for the next one. -/
structure Item (ts : List Token) where
  value : Option Stmt
  rest : List Token
  errors : List Error
  behind : Behind rest ts

/-- The declarations and statements of a list, with the tokens that are
left. -/
structure Items (ts : List Token) where
  body : List Stmt
  rest : List Token
  errors : List Error
  suffix : rest <:+ ts

/-- The item of a reply: a statement that was given up is recovered from. -/
def Item.ofReply {t : Token} {us : List Token} (ht : t.kind ≠ .katapusan)
    (r : Reply Stmt (t :: us)) : Item (t :: us) :=
  match r with
  | .parsed s rest errors h => ⟨some s, rest, errors, h⟩
  | .failed rest errors h => ⟨none, recover rest, errors, recover_behind ht h⟩

mutual

/-- Reads a statement. -/
def statement (stop : Token) (ts : List Token) : Reply Stmt ts :=
  match ts with
  | t :: us =>
      match t.kind with
      | .kung =>
          (conditional stop us).bind (List.suffix_cons t us) fun s vs _ hv =>
          .parsed s vs [] hv
      | .alangSa =>
          (counting stop us).bind (List.suffix_cons t us) fun s vs _ hv =>
          .parsed s vs [] hv
      | .ipakita =>
          (printed stop t us).bind (List.suffix_cons t us) fun s vs _ hv =>
          .parsed s vs [] hv
      | .dawat => (names stop us).bind (List.suffix_cons t us) fun s vs _ hv =>
          .parsed s vs [] hv
      | .leftBrace =>
          let r := items stop true us
          ((expect stop .rightBrace .blockEnd r.rest).bind
            (r.suffix.trans (List.suffix_cons t us)) fun _ vs _ hv =>
              .parsed (.block r.body) vs [] hv).after r.errors
      | _ => (expression stop (t :: us)).map Stmt.expression
  | [] => (expression stop []).map Stmt.expression
termination_by 4 * ts.length

/-- Reads what follows `KUNG` or `KUNG DILI`, further branches included. -/
def conditional (stop : Token) (ts : List Token) : Reply Stmt ts :=
  (expect stop .leftParen .conditionStart ts).bind (List.suffix_refl ts)
    fun _ us _ hu =>
    (expression stop us).bind hu.suffix fun condition vs _ hv =>
      (expect stop .rightParen .conditionEnd vs).bind hv.suffix
        fun _ ws _ hw =>
        (expect stop .pundok .bodyMark ws).bind hw.suffix fun _ xs _ hx =>
          (statement stop xs).bind hx.suffix fun body ys _ hy =>
            match ys, hy with
            | t :: zs, hy =>
                if t.kind = .kungDili then
                  (conditional stop zs).bind hy.tail.suffix
                    fun other rest _ h =>
                    .parsed (.ifElse condition body other) rest [] h
                else if t.kind = .kungWala then
                  (expect stop .pundok .otherBodyMark zs).bind hy.tail.suffix
                    fun _ zs' _ hz =>
                    (statement stop zs').bind hz.suffix fun other rest _ h =>
                      .parsed (.ifElse condition body other) rest [] h
                else .parsed (.ifThen condition body) (t :: zs) [] hy
            | [], hy => .parsed (.ifThen condition body) [] [] hy
termination_by 4 * ts.length
decreasing_by
  · have := hx.length_lt; omega
  · have := hy.tail.length_lt; omega
  · have := hz.length_lt; omega

/-- Reads what follows `ALANG SA`. -/
def counting (stop : Token) (ts : List Token) : Reply Stmt ts :=
  (expect stop .leftParen .clausesStart ts).bind (List.suffix_refl ts)
    fun _ us _ hu =>
    (firstClause stop us).bind hu.suffix fun first vs _ hv =>
      (clause stop .comma .conditionClauseEnd vs).bind hv.suffix
        fun condition ws _ hw =>
        (clause stop .rightParen .clausesEnd ws).bind hw.suffix
          fun last xs _ hx =>
          (expect stop .pundok .bodyMark xs).bind hx.suffix fun _ ys _ hy =>
            (statement stop ys).bind hy.suffix fun body zs _ hz =>
              .parsed (lowerLoop first condition last body) zs [] hz
termination_by 4 * ts.length
decreasing_by have := hy.length_lt; omega

/-- Reads one item of a list. -/
def item (stop t : Token) (us : List Token) (ht : t.kind ≠ .katapusan) :
    Item (t :: us) :=
  Item.ofReply ht <|
    if t.kind = .mugna then
      (declarations stop us).bind (List.suffix_cons t us) fun s vs _ hv =>
        .parsed s vs [] hv
    else statement stop (t :: us)
termination_by 4 * us.length + 5

/-- Reads the items of a block or program, up to `KATAPUSAN` or the end
of the tokens, and in a block up to a closing brace. -/
def items (stop : Token) (inBlock : Bool) (ts : List Token) : Items ts :=
  match ts with
  | t :: us =>
      if ht : t.kind = .katapusan then ⟨[], t :: us, [], List.suffix_refl _⟩
      else if inBlock && t.kind = .rightBrace
        then ⟨[], t :: us, [], List.suffix_refl _⟩
      else
        match item stop t us ht with
        | ⟨value, rest, errors, h⟩ =>
            let more := items stop inBlock rest
            ⟨value.toList ++ more.body, more.rest, errors ++ more.errors,
              more.suffix.trans h.suffix⟩
  | [] => ⟨[], [], [], List.suffix_refl []⟩
termination_by 4 * ts.length + 2
decreasing_by
  · simp only [List.length_cons]; omega
  · have := h.length_lt; omega

end

end BisayaPlus.Parse
