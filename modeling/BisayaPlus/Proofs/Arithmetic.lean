/-
Arithmetic, from the text to the line that is printed.

A `Term` has a value of its own, whatever programs do: it is made of
decimal numerals, of a minus in front and of five operations, each of
which is one on doubles. `Written` says how terms are written down. Every
operand has to bind as strongly as its place asks for, or stand in
parentheses; parentheses that are not needed do no harm. A program that
prints a term written like this, with single spaces between the lexemes,
prints the value of the term and does nothing else (`source_written`).

One induction along `Written` does the work (`Written.read`): whatever
tokens the text comes to have, they are a phrase of the grammar whose
tree computes the value. That the text has such tokens is a matter of
`Proofs/Rescan.lean`, and that the phrase is read as this tree one of
`Proofs/ParseComplete.lean`.
-/
import BisayaPlus.Proofs.Rescan
import BisayaPlus.Proofs.RoundTrip
import BisayaPlus.Proofs.Steps
import BisayaPlus.Run.Stable

namespace BisayaPlus.Arithmetic

open Token Grammar Run

-- =============================================================== terms

/-- An unsigned decimal numeral, with or without a point. -/
structure Numeral where
  whole : List Char
  fraction : List Char
  whole_digits : Digits whole
  fraction_digits : ∀ d ∈ fraction, d.isDigit = true

namespace Numeral

/-- The characters of a numeral; without a fraction it has no point. -/
def chars (n : Numeral) : List Char :=
  if n.fraction = [] then n.whole else n.whole ++ '.' :: n.fraction

/-- The double nearest to a numeral. -/
def value (n : Numeral) : Float := Number.ofDecimal n.whole n.fraction

end Numeral

/-- The operations on two numbers. -/
inductive Operation where
  | add
  | subtract
  | multiply
  | divide
  | remainder
deriving DecidableEq

namespace Operation

/-- What an operation computes. -/
def apply : Operation → Float → Float → Float
  | add, x, y => x + y
  | subtract, x, y => x - y
  | multiply, x, y => x * y
  | divide, x, y => x / y
  | remainder, x, y => Number.remainder x y

/-- The sign of an operation. -/
def sign : Operation → String
  | add => "+"
  | subtract => "-"
  | multiply => "*"
  | divide => "/"
  | remainder => "%"

/-- How strongly an operation binds its operands. -/
def strength : Operation → Nat
  | add | subtract => 1
  | multiply | divide | remainder => 2

end Operation

/-- An arithmetic term. -/
inductive Term where
  | numeral (n : Numeral)
  | negative (a : Term)
  | operation (a : Term) (op : Operation) (b : Term)

/-- The value of a term. -/
def Term.value : Term → Float
  | numeral n => n.value
  | negative a => -a.value
  | operation a op b => op.apply a.value b.value

/-- A minus in front binds more strongly than every operation. -/
def negativeStrength : Nat := 3

/-- The lexemes are the term, written in a place where what binds less
strongly than `p` needs parentheses. Operations of the same strength are
carried out from left to right, so that the right one of two operands
has to bind more strongly than the operation. -/
inductive Written : Nat → Term → List String → Prop where
  | numeral {p : Nat} (n : Numeral) : Written p (.numeral n)
      [String.ofList n.chars]
  | negative {p : Nat} {a : Term} {text : List String}
      (hp : p ≤ negativeStrength)
      (ha : Written negativeStrength a text) :
      Written p (.negative a) ("-" :: text)
  | operation {p : Nat} {a b : Term} {op : Operation}
      {left right : List String}
      (hp : p ≤ op.strength) (ha : Written op.strength a left)
      (hb : Written (op.strength + 1) b right) :
      Written p (.operation a op b) (left ++ op.sign :: right)
  | parentheses {p : Nat} {a : Term} {text : List String}
      (ha : Written 0 a text) :
      Written p a ("(" :: (text ++ [")"]))

/-- Puts parentheses around a text that needs them. -/
def wrapped (needed : Bool) (text : List String) : List String :=
  if needed then "(" :: (text ++ [")"]) else text

/-- A term written with no more parentheses than it needs. -/
def Term.lexemes (p : Nat) : Term → List String
  | numeral n => [String.ofList n.chars]
  | negative a =>
      wrapped (negativeStrength < p) ("-" :: a.lexemes negativeStrength)
  | operation a op b =>
      wrapped (op.strength < p)
        (a.lexemes op.strength ++ op.sign :: b.lexemes (op.strength + 1))

theorem written_wrapped {p strength : Nat} {a : Term} {text : List String}
    (h : ∀ q ≤ strength, Written q a text) :
    Written p a (wrapped (strength < p) text) := by
  unfold wrapped
  by_cases hp : strength < p
  · rw [if_pos (decide_eq_true hp)]
    exact .parentheses (h 0 (Nat.zero_le _))
  · rw [if_neg (by simpa using hp)]
    exact h p (Nat.le_of_not_lt hp)

/-- Every term can be written. -/
theorem written_lexemes (p : Nat) (a : Term) : Written p a (a.lexemes p) := by
  induction a generalizing p with
  | numeral n => exact .numeral n
  | negative a ih => exact written_wrapped fun q hq => .negative hq (ih _)
  | operation a op b iha ihb =>
      exact written_wrapped fun q hq => .operation hq (iha _) (ihb _)

-- ============================================================= lexemes

/-- The kind of token an operation is written as. -/
def Operation.kind : Operation → Kind
  | add => .plus
  | subtract => .minus
  | multiply => .star
  | divide => .slash
  | remainder => .percent

/-- The content of a token that starts no pair of words. -/
def Lone (x : Content) : Prop := Lexical x ∧ startsPair x.lexeme = false

theorem lone_sign {text : String} {kind : Kind}
    (h : (text.toList, kind) ∈ signs) (hpair : startsPair text = false) :
    Lone ⟨kind, text, none⟩ :=
  ⟨⟨[], .sign h fun _ hc => by cases hc⟩, hpair⟩

theorem Operation.lone (op : Operation) : Lone ⟨op.kind, op.sign, none⟩ := by
  cases op <;> exact lone_sign (by decide) (by decide)

theorem Numeral.startsPair (n : Numeral) :
    startsPair (String.ofList n.chars) = false := by
  have hhead : ∃ d ds, n.chars = d :: ds ∧ d.isDigit = true := by
    obtain ⟨whole, fraction, hwhole, -⟩ := n
    cases whole with
    | nil => exact absurd rfl hwhole.1
    | cons d ds =>
        unfold chars
        split
        · exact ⟨d, ds, rfl, hwhole.2 d List.mem_cons_self⟩
        · exact ⟨d, ds ++ '.' :: fraction, rfl, hwhole.2 d List.mem_cons_self⟩
  obtain ⟨d, ds, hchars, hd⟩ := hhead
  rw [Bool.eq_false_iff]
  intro hpair
  simp only [Token.startsPair, Bool.or_eq_true, beq_iff_eq, hchars] at hpair
  rcases hpair with h | h
  all_goals
    have hlist := congrArg String.toList h
    rw [String.toList_ofList] at hlist
    cases hlist
    cases hd

theorem Numeral.lone (n : Numeral) :
    Lone ⟨.number, String.ofList n.chars, some (.number n.value)⟩ := by
  refine ⟨⟨[], ?_⟩, n.startsPair⟩
  obtain ⟨whole, fraction, hwhole, hfraction⟩ := n
  unfold chars value
  rw [String.toList_ofList]
  by_cases h : fraction = []
  · rw [if_pos h]
    subst h
    exact .whole hwhole (apart_nil.stops rfl) fun _ hmore => by cases hmore
  · rw [if_neg h]
    exact .decimal hwhole ⟨h, hfraction⟩ (apart_nil.stops rfl)

-- =========================================================== the phrase

/-- The expression computes a number and does not touch the variables. -/
def Computes (e : Expr) (x : Float) : Prop :=
  ∀ scope env, e.eval scope env = .ok (.number x) env

theorem Computes.negative {op : Token} {e : Expr} {x : Float}
    (hop : op.kind = .minus) (he : Computes e x) :
    Computes (.unary op e) (-x) := by
  intro scope env
  have happly : applyUnary op (.number x) = .ok (.number (-x)) := by
    unfold applyUnary
    rw [hop]
    rfl
  exact (bind_of_ok (he scope env)).trans (by rw [happly]; rfl)

theorem Computes.operation {op : Token} {operation : Operation}
    {left right : Expr} {x y : Float} (hop : op.kind = operation.kind)
    (hleft : Computes left x) (hright : Computes right y) :
    Computes (.binary left op right) (operation.apply x y) := by
  intro scope env
  have happly : applyBinary op (.number x) (.number y)
      = .ok (.number (operation.apply x y)) := by
    unfold applyBinary
    rw [hop]
    cases operation <;> rfl
  refine (bind_of_ok (hleft scope env)).trans
    ((bind_of_ok (hright scope env)).trans ?_)
  rw [happly]
  rfl

/-- The level of the phrases that bind at least so strongly. -/
def level : Nat → Level
  | 0 | 1 => .sum
  | 2 => .product
  | _ => .unary

theorem rank_level {p q : Nat} (h : p ≤ q) :
    (level p).rank ≤ (level q).rank := by
  induction h with
  | refl => exact Nat.le_refl _
  | @step q _ ih =>
      refine Nat.le_trans ih ?_
      unfold level
      split <;> split <;> simp_all [Level.rank]

/-- Tokens with these contents are a phrase that computes the number. -/
def Readable (l : Level) (x : Float) (contents : List Content) : Prop :=
  ∀ ts : List Token, ts.map content = contents → ∃ e, Phrase l ts e
    ∧ Computes e x

theorem Readable.loosen {l l' : Level} {x : Float} {contents : List Content}
    (hl : l.rank ≤ l'.rank) (h : Readable l' x contents) :
    Readable l x contents := by
  intro ts hts
  obtain ⟨e, he, hx⟩ := h ts hts
  exact ⟨e, he.loosen hl, hx⟩

theorem Readable.numeral (n : Numeral) : Readable .primary n.value
    [⟨.number, String.ofList n.chars, some (.number n.value)⟩] := by
  intro ts hts
  obtain ⟨t, rfl, ht⟩ := List.map_eq_singleton_iff.1 hts
  obtain ⟨hkind, -, hliteral⟩ := Content.mk.inj ht
  refine ⟨_, .literal (by rw [hkind]; decide), fun scope env => ?_⟩
  rw [hliteral]
  rfl

theorem Readable.negative {x : Float} {contents : List Content}
    (h : Readable .unary x contents) :
    Readable .unary (-x) (⟨.minus, "-", none⟩ :: contents) := by
  intro ts hts
  obtain ⟨op, us, rfl, hop, hus⟩ := List.map_eq_cons_iff.1 hts
  obtain ⟨hop, -, -⟩ := Content.mk.inj hop
  obtain ⟨e, he, hx⟩ := h us hus
  exact ⟨_, .minus hop he, hx.negative hop⟩

theorem Readable.operation {x y : Float} {left right : List Content}
    (op : Operation) (hleft : Readable (level op.strength) x left)
    (hright : Readable (level (op.strength + 1)) y right) :
    Readable (level op.strength) (op.apply x y)
      (left ++ ⟨op.kind, op.sign, none⟩ :: right) := by
  intro ts hts
  obtain ⟨us, rest, rfl, hus, hrest⟩ := List.map_eq_append_iff.1 hts
  obtain ⟨sign, vs, rfl, hsign, hvs⟩ := List.map_eq_cons_iff.1 hrest
  obtain ⟨hkind, -, -⟩ := Content.mk.inj hsign
  obtain ⟨l, hl, hx⟩ := hleft us hus
  obtain ⟨r, hr, hy⟩ := hright vs hvs
  refine ⟨.binary l sign r, ?_, hx.operation hkind hy⟩
  cases op with
  | add | subtract => exact .sum hl (by rw [hkind]; decide) hr
  | multiply | divide | remainder =>
      exact .product hl (by rw [hkind]; decide) hr

theorem Readable.parentheses {x : Float} {contents : List Content}
    (h : Readable .sum x contents) :
    Readable .primary x
      (⟨.leftParen, "(", none⟩
        :: (contents ++ [⟨.rightParen, ")", none⟩])) := by
  intro ts hts
  obtain ⟨lp, rest, rfl, hlp, hrest⟩ := List.map_eq_cons_iff.1 hts
  obtain ⟨us, close, rfl, hus, hclose⟩ := List.map_eq_append_iff.1 hrest
  obtain ⟨rp, rfl, hrp⟩ := List.map_eq_singleton_iff.1 hclose
  obtain ⟨hlp, -, -⟩ := Content.mk.inj hlp
  obtain ⟨hrp, -, -⟩ := Content.mk.inj hrp
  obtain ⟨e, he, hx⟩ := h us hus
  exact ⟨.grouping e, .grouping hlp (he.loosen (by decide)) hrp, hx⟩

/-- A term that is written down is made of lexemes that are read as a
phrase, and the phrase computes the value of the term. -/
theorem Written.read {p : Nat} {a : Term} {text : List String}
    (h : Written p a text) :
    ∃ contents : List Content, contents.map (·.lexeme) = text
      ∧ (∀ x ∈ contents, Lone x) ∧
      Readable (level p) a.value contents := by
  -- Each rule gives a phrase of the tightest level it can have, which is
  -- loosened to that of the place.
  induction h with
  | @numeral p n =>
      exact ⟨_, rfl, List.forall_mem_singleton.2 n.lone,
        (Readable.numeral n).loosen (by unfold level; split <;> decide)⟩
  | negative hp _ ih =>
      obtain ⟨contents, rfl, hlone, hread⟩ := ih
      exact ⟨⟨.minus, "-", none⟩ :: contents, rfl,
        List.forall_mem_cons.2 ⟨lone_sign (by decide) (by decide), hlone⟩,
        hread.negative.loosen (rank_level hp)⟩
  | @operation p a b op _ _ hp _ _ iha ihb =>
      obtain ⟨left, rfl, hleft, hreadl⟩ := iha
      obtain ⟨right, rfl, hright, hreadr⟩ := ihb
      refine ⟨left ++ ⟨op.kind, op.sign, none⟩ :: right, by simp, ?_,
        (Readable.operation op hreadl hreadr).loosen (rank_level hp)⟩
      exact List.forall_mem_append.2
        ⟨hleft, List.forall_mem_cons.2 ⟨op.lone, hright⟩⟩
  | parentheses _ ih =>
      obtain ⟨contents, rfl, hlone, hread⟩ := ih
      refine ⟨⟨.leftParen, "(", none⟩
        :: (contents ++ [⟨.rightParen, ")", none⟩]), by simp, ?_,
        hread.parentheses.loosen (by unfold level; split <;> decide)⟩
      refine List.forall_mem_cons.2 ⟨lone_sign (by decide) (by decide), ?_⟩
      exact List.forall_mem_append.2
        ⟨hlone, List.forall_mem_singleton.2
          (lone_sign (by decide) (by decide))⟩

-- ============================================================= the text

/-- A program that prints what the lexemes say. -/
def printing (lexemes : List String) : String :=
  "SUGOD IPAKITA: " ++ " ".intercalate lexemes ++ " KATAPUSAN"

/-- Tokens that start no pair are read again from their joined texts. -/
theorem spelled_spaced {contents : List Content} (h : ∀ x ∈ contents, Lone x) :
    Spelled (spaced contents) contents := by
  have hpairs : ∀ p ∈ pairs, startsPair p.1 = true := by decide
  have hunpaired : Unpaired contents := by
    refine (List.pairwise_of_forall_mem_list fun a ha b _ hpair => ?_).isChain
    have hstarts := hpairs _ hpair
    rw [(h a ha).2] at hstarts
    cases hstarts
  have hspelled : Spelled (spaced contents ++ []) (fused contents) :=
    spelled_fused (fun x hx => (h x hx).1) (.inl rfl)
  rw [fused_of_unpaired hunpaired, List.append_nil] at hspelled
  exact hspelled

/-- A keyword that is no pair is cut off where the word ends. -/
theorem cut_keyword {word : String} {kind : Kind} {rest : List Char}
    (hword : IsWord word.toList) (hkind : keyword? word = some kind)
    (hpair : startsPair word = false) (hrest : Stops Slice.isWordChar rest) :
    Cut word.toList rest (.token kind none) := by
  have hcut := Cut.word hword hrest fun gap second more kind' _ hjoined => by
    have hopens := hjoined.opens
    rw [String.ofList_toList, hpair] at hopens
    cases hopens
  rw [String.ofList_toList, hkind] at hcut
  exact hcut

theorem spelled_printing {contents : List Content} (hne : contents ≠ [])
    (h : ∀ x ∈ contents, Lone x) :
    Spelled (printing (contents.map (·.lexeme))).toList
      (⟨.sugod, "SUGOD", none⟩ :: ⟨.ipakita, "IPAKITA", none⟩
        :: ⟨.colon, ":", none⟩ ::
        (contents ++ [⟨.katapusan, "KATAPUSAN", none⟩])) := by
  have hlast : IsWord "KATAPUSAN".toList :=
    ⟨_, _, rfl, rfl, List.all_eq_true.1 rfl⟩
  have hbehind :
      Spelled (spaced (contents ++ [⟨.katapusan, "KATAPUSAN", none⟩]))
      (contents ++ [⟨.katapusan, "KATAPUSAN", none⟩]) :=
    spelled_spaced (List.forall_mem_append.2 ⟨h, List.forall_mem_singleton.2
      ⟨⟨[], cut_keyword hlast rfl rfl (apart_nil.stops rfl)⟩, rfl⟩⟩)
  have htext : (printing (contents.map (·.lexeme))).toList
      = "SUGOD".toList ++ ' '
      :: ("IPAKITA".toList
        ++ (":".toList ++ ' '
          :: spaced (contents ++ [⟨.katapusan, "KATAPUSAN", none⟩]))) := by
    unfold printing
    rw [← toList_intercalate, List.map_append,
      String.intercalate_append_of_ne_nil (by simpa using hne) (by simp)]
    simp
  rw [htext]
  -- The colon stands right behind its keyword, and what follows is made of
  -- joined lexemes.
  refine .lexeme
    (cut_keyword ⟨_, _, rfl, rfl, List.all_eq_true.1 rfl⟩ rfl rfl ?_)
    (.space (.lexeme
      (cut_keyword ⟨_, _, rfl, rfl, List.all_eq_true.1 rfl⟩ rfl rfl ?_)
      (.lexeme (.sign (by decide) ?_) (.space hbehind))))
  · exact (apart_space _).stops rfl
  · intro c hc
    cases hc
    rfl
  · intro c hc
    cases hc
    decide

-- ============================================================== the run

theorem program_printing {sugod ipakita colon katapusan eof : Token}
    {us : List Token} {e : Expr} (hsugod : sugod.kind = .sugod)
    (hipakita : ipakita.kind = .ipakita) (hcolon : colon.kind = .colon)
    (he : Phrase .assignment us e) (hkatapusan : katapusan.kind = .katapusan)
    (heof : eof.kind = .eof) :
    Parse.program (sugod :: ipakita :: colon :: (us ++ [katapusan]) ++ [eof])
      = .ok (.program [.print ipakita e]) := by
  have hnoEnd : NoEnd (sugod :: ipakita :: colon :: (us ++ [katapusan])) := by
    simp [hsugod, hipakita, hcolon, he.noEnd, hkatapusan]
  have hclosed (stop : Token) : (Parse.items stop false [katapusan]).Is []
      [katapusan] := by
    rw [Parse.items_of_closes (by simp [Parse.closesItems, hkatapusan])]
    exact ⟨List.suffix_refl _, rfl⟩
  refine Parse.program_is (Stmt.body_append hnoEnd (by simpa using heof))
    hsugod hkatapusan
    (Parse.items_cons ?_ (fun ht => Parse.item_of_statement ht ?_ ?_)
      (hclosed _))
  · simp [Parse.closesItems, hipakita]
  · rw [hipakita]
    decide
  · simp only [Parse.statement, hipakita]
    exact Parse.opened_is
      (Parse.printed_is hcolon he (.cons (by rw [hkatapusan]; decide) []))

/-- The text of a term is read as a program that prints an expression,
which computes the value of the term. -/
theorem Written.ofSource {a : Term} {lexemes : List String}
    (h : Written 0 a lexemes) :
    ∃ ipakita e, Stmt.ofSource (printing lexemes)
      = .ok (.program [.print ipakita e])
      ∧ Computes e a.value := by
  obtain ⟨contents, rfl, hlone, hread⟩ := h.read
  have hne : contents ≠ [] := by
    rintro rfl
    obtain ⟨e, he, -⟩ := hread [] rfl
    exact he.ne_nil rfl
  obtain ⟨ts, span, hscan, hts⟩ := (spelled_printing hne hlone).scan
  obtain ⟨sugod, ts, rfl, hsugod, hts⟩ := List.map_eq_cons_iff.1 hts
  obtain ⟨ipakita, ts, rfl, hipakita, hts⟩ := List.map_eq_cons_iff.1 hts
  obtain ⟨colon, ts, rfl, hcolon, hts⟩ := List.map_eq_cons_iff.1 hts
  obtain ⟨us, ts, rfl, hus, hts⟩ := List.map_eq_append_iff.1 hts
  obtain ⟨katapusan, rfl, hkatapusan⟩ := List.map_eq_singleton_iff.1 hts
  obtain ⟨e, he, hcomputes⟩ := hread us hus
  refine ⟨ipakita, e, ?_, hcomputes⟩
  have hprogram :=
    program_printing (Content.mk.inj hsugod).1 (Content.mk.inj hipakita).1
      (Content.mk.inj hcolon).1 (he.loosen (by decide))
      (Content.mk.inj hkatapusan).1
      (show (endOfText span).kind = .eof from rfl)
  rw [String.ofList_toList] at hscan
  unfold Stmt.ofSource
  rw [hscan]
  simp only [hprogram]

/-- Every term can be written down, and however it is written, a program
that prints it prints its value: the run asks the console for nothing but
this one line, and with a console that takes it the run succeeds. -/
theorem source_written (a : Term) :
    Written 0 a (a.lexemes 0) ∧ ∀ lexemes, Written 0 a lexemes →
      (∀ {σ : Type} (con : Console (StateM σ)) (limit : Nat) (w w' : σ),
        con.writeLine (Value.display (.number a.value)) w = (.ok (), w') →
          source con limit (printing lexemes) w = (.over (.ok ()), w'))
      ∧ ∀ (limit : Nat) (queue : List String),
        source Scripted.console limit (printing lexemes) { queue := queue }
          = (.over (.ok ()),
            { queue := queue,
              output := #[Value.display (.number a.value)] }) := by
  refine ⟨written_lexemes 0 a, fun lexemes h => ?_⟩
  have hrun : ∀ {σ : Type} (con : Console (StateM σ)) (limit : Nat) (w w' : σ),
      con.writeLine (Value.display (.number a.value)) w = (.ok (), w') →
        source con limit (printing lexemes) w = (.over (.ok ()), w') := by
    intro σ con limit w w' hwrite
    obtain ⟨ipakita, e, hsource, hcomputes⟩ := h.ofSource
    have hprint : (Stmt.print ipakita e).exec con limit Environment.global
          Environment.empty w
        = ((Environment.empty, .done), w') := by
      rw [Stmt.exec_print, afterStep_of_ok (hcomputes _ _)]
      simp only [bind, StateT.bind, hwrite]
      rfl
    have hprogram : (Stmt.program [.print ipakita e]).interpret con limit
          Environment.empty w
        = ((Environment.empty, .done), w') := by
      show andThen ((Stmt.print ipakita e).exec con limit Environment.global
        Environment.empty) (Stmt.execAll con limit [] Environment.global) w = _
      rw [andThen_apply, hprint]
      rfl
    rw [source_apply con limit hsource, hprogram]
    rfl
  exact ⟨hrun, fun limit queue => hrun Scripted.console limit _ _ rfl⟩

/-- A numeral of one digit. -/
def Numeral.digit (d : Char) (hd : d.isDigit = true) : Numeral where
  whole := [d]
  fraction := []
  whole_digits := ⟨List.cons_ne_nil _ _, List.forall_mem_singleton.2 hd⟩
  fraction_digits := List.forall_mem_nil _

/-- The term `8 - (4 - -2.50) % 3`. -/
def difference : Term :=
  let half : Numeral :=
    { Numeral.digit '2' rfl with
      fraction := ['5', '0']
      fraction_digits := List.all_eq_true.1 rfl }
  .operation (.numeral (.digit '8' rfl)) .subtract
    (.operation (.operation (.numeral (.digit '4' rfl)) .subtract
      (.negative (.numeral half))) .remainder (.numeral (.digit '3' rfl)))

/-- The parentheses around the minus are not needed. -/
theorem source_written_difference :
    Written 0 difference ["8", "-", "(", "4", "-", "(", "-", "2.50", ")",
      ")", "%", "3"]
      ∧ source Scripted.console 0
        "SUGOD IPAKITA: 8 - ( 4 - ( - 2.50 ) ) % 3 KATAPUSAN"
          { queue := [] }
        = (.over (.ok ()),
          { queue := [],
            output := #[Value.display (.number difference.value)] }) := by
  have h : Written 0 difference
      ["8", "-", "(", "4", "-", "(", "-", "2.50", ")", ")", "%", "3"] :=
    .operation (by decide) (.numeral _) (.operation (by decide)
      (.parentheses (.operation (by decide) (.numeral _)
        (.parentheses (.negative (by decide) (.numeral _))))) (.numeral _))
  exact ⟨h, ((source_written difference).2 _ h).2 0 []⟩

end BisayaPlus.Arithmetic
