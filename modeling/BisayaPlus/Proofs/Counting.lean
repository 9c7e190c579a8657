/-
Counting a variable is assigning it a sum.

`x++` and `x = x + 1` are checked in different ways. Counting looks at the
value that the variable holds and never at its type. The sum is worked
out first, where a plus joins the texts of what are no numbers, and the
assignment then asks the type whether it admits the outcome. They come to
the same only because variables hold values of their types
(`Environment.Typed`), and so they do in every state that a session comes
to: a variable that holds a number has a type that admits all numbers, and
no type admits a text.

The same goes for `x--` and `x = x - 1`. That a double less one is the
double and minus one added is a fact of their arithmetic (`sub_one`).
-/
import BisayaPlus.Proofs.StoreTyping

namespace BisayaPlus

open Run Environment

-- ============================================ subtraction of doubles

namespace Number

open Float.Model Float.Model.UnpackedFloat

theorem apply_neg (s : Sign) (n : Int) : (-s).apply n = -s.apply n := by
  cases s with
  | negative => exact (Int.neg_neg n).symm
  | positive => rfl

/-- Adding the opposite is subtracting, whatever the format. -/
theorem add_neg (spec : Format) (x y : UnpackedFloat) :
    UnpackedFloat.add spec x y.neg = UnpackedFloat.sub spec x y := by
  cases y with
  | finite s m e hm =>
      cases x with
      | finite s' m' e' hm' =>
          show UnpackedFloat.normalize spec (_ + (-s).apply _) _ _ = _
          rw [apply_neg]
          rfl
      | infinity _ | notANumber | zero _ => rfl
  | infinity _ | notANumber | zero _ => cases x <;> rfl

theorem sub_one (x : Float) : x - 1.0 = x + -1.0 := by
  have hone : (-1.0 : Float).toModel.unpack
      = (1.0 : Float).toModel.unpack.neg := rfl
  show Float.ofModel (pack (UnpackedFloat.sub .binary64 _ _))
    = Float.ofModel (pack (UnpackedFloat.add .binary64 _ _))
  rw [hone, add_neg]

end Number

-- ===================================================== sums with one

/-- The operator gives a number and one their sum with `delta`, and what is
no number and one a fault of typing or a text. -/
structure Token.Offsets (op : Token) (delta : Float) : Prop where
  number : ∀ x, applyBinary op (.number x) (.number 1.0)
    = .ok (.number (x + delta))
  other : ∀ v : Value, v.asNumber? = none →
    (∃ e, applyBinary op v (.number 1.0) = .error e ∧ e.fault.code = .typing)
      ∨ ∃ s, applyBinary op v (.number 1.0) = .ok (.text s)

/-- Adding one is an offset of one. -/
theorem Token.offsets_plus {op : Token} (hop : op.kind = .plus) :
    op.Offsets 1.0 where
  number x := by
    unfold applyBinary
    rw [hop]
  other v hv := by
    unfold applyBinary
    rw [hop]
    cases v with
    | number x => cases hv
    | truth _ | char _ | text _ | null => exact .inr ⟨_, rfl⟩

/-- Subtracting one is an offset of minus one. -/
theorem Token.offsets_minus {op : Token} (hop : op.kind = .minus) :
    op.Offsets (-1.0) where
  number x := by
    unfold applyBinary
    rw [hop, ← Number.sub_one]
    rfl
  other v hv := by
    unfold applyBinary
    rw [hop]
    cases v with
    | number x => cases hv
    | truth _ | char _ | text _ | null => exact .inl ⟨_, rfl, rfl⟩

namespace Expr

/-- The assignment to a name of what a name and one are combined to. -/
def assignOffset (name used op : Token) : Expr :=
  .assign name (.binary (.var used) op (.literal (.number 1.0)))

variable {scope : Nat} {env : Environment} {used : Token}

theorem eval_offset_of_some {b : Binding} (op : Token)
    (h : env.lookup scope used.lexeme = some b) :
    (binary (var used) op (literal (.number 1.0))).eval scope env
      = settle (applyBinary op b.value (.number 1.0)) env := by
  have hvar : (var used).eval scope env = .ok b.value env := by
    rw [eval_var, h]
  show ((var used).eval scope >>= _) env = _
  rw [bind_of_ok hvar]
  rfl

theorem eval_offset_of_none (op : Token)
    (h : env.lookup scope used.lexeme = none) :
    (binary (var used) op (literal (.number 1.0))).eval scope env
      = .error ⟨.undefined used.lexeme, used.span⟩ env := by
  have hvar : (var used).eval scope env
      = .error ⟨.undefined used.lexeme, used.span⟩ env := by
    rw [eval_var, h]
  exact bind_of_error hvar

end Expr

-- ===================================================== the two agree

namespace Run

/-- Two computations that count a variable come to the same: a number that
both leave in the variable, or two faults of one class, of reference if
the name means nothing and of typing if the variable holds no number, and
these change nothing. -/
inductive SameCount (env : Environment) (scope : Nat) (x : String)
    (delta : Float) :
    EStateM.Result Error Environment Value →
    EStateM.Result Error Environment Value → Prop where
  | counted {b : Binding} {n : Float} {env' : Environment}
      (hb : env.lookup scope x = some b) (hn : b.value = .number n)
      (henv' : env.assign? scope x (.number (n + delta)) = some env') :
      SameCount env scope x delta (.ok (.number (n + delta)) env')
        (.ok (.number (n + delta)) env')
  | undefined {e e' : Error} (hnone : env.lookup scope x = none)
      (he : e.fault.code = .reference) (he' : e'.fault.code = .reference) :
      SameCount env scope x delta (.error e env) (.error e' env)
  | notNumber {b : Binding} {e e' : Error} (hb : env.lookup scope x = some b)
      (hv : ∀ n, b.value ≠ .number n)
      (he : e.fault.code = .typing) (he' : e'.fault.code = .typing) :
      SameCount env scope x delta (.error e env) (.error e' env)

/-- In a typed environment counting a variable and assigning it the sum
come to the same. -/
theorem count_assign {env : Environment} (henv : env.Typed) (scope : Nat)
    {name used op : Token} {delta : Float} (hused : used.lexeme = name.lexeme)
    (hop : op.Offsets delta) :
    SameCount env scope name.lexeme delta (count scope name delta env)
      ((Expr.assignOffset name used op).eval scope env) := by
  unfold Expr.assignOffset
  rcases count_cases scope name delta env with
    ⟨hb, h⟩ | ⟨b, hb, hv, h⟩ | ⟨b, x, env', hb, hx, hassign, h⟩
  · rw [h, Expr.eval_assign_of_error
      (Expr.eval_offset_of_none op (hused ▸ hb))]
    exact .undefined hb rfl rfl
  · have hnumber : ∀ n, b.value ≠ .number n := by
      intro n hn
      rw [hn] at hv
      cases hv
    have hvalue := Expr.eval_offset_of_some op (hused ▸ hb)
    rw [h]
    rcases hop.other b.value hv with ⟨e, he, hcode⟩ | ⟨s, hs⟩
    · rw [he] at hvalue
      rw [Expr.eval_assign_of_error hvalue]
      exact .notNumber hb hnumber rfl hcode
    · -- Texts were joined, and no variable can hold the outcome.
      rw [hs] at hvalue
      rcases Expr.eval_assign_cases name hvalue with
        ⟨hnone, -⟩ | ⟨b', -, -, h'⟩ | ⟨b', env', -, haccepts, -, -⟩
      · rw [hb] at hnone
        cases hnone
      · rw [h']
        exact .notNumber hb hnumber rfl rfl
      · exact absurd rfl ((VarType.accepts_ne haccepts).2 s)
  · have hvalue := Expr.eval_offset_of_some op (hused ▸ hb)
    rw [hx, hop.number] at hvalue
    rw [h]
    rcases Expr.eval_assign_cases name hvalue with
      ⟨hnone, -⟩ | ⟨b', hb', hrefuses, -⟩ | ⟨b', env'', -, -, hassign', h'⟩
    · rw [hb] at hnone
      cases hnone
    · -- A type that admits the number before admits the number behind.
      obtain rfl := Option.some.inj (hb.symm.trans hb')
      have hadmits := henv.lookup hb
      rw [hx] at hadmits
      rw [VarType.accepts_number hadmits] at hrefuses
      cases hrefuses
    · obtain rfl := Option.some.inj (hassign.symm.trans hassign')
      rw [h']
      exact .counted hb hx hassign

-- ========================================================= the theorem

variable {σ : Type} (con : Console (StateM σ)) (limit : Nat)

/-- Every state that a session comes to is typed. -/
theorem session_typed {calls : List Stmt} {w : σ} {env : Environment}
    (h : env ∈ Environment.empty
      :: sessionTrail con limit calls Environment.empty w) :
    env.Typed := by
  rcases List.mem_cons.1 h with rfl | hmem
  · exact empty_typed
  · exact (session_path con limit calls w empty_typed).typed_of_mem
      empty_typed env hmem

/-- In every state that a session comes to, counting a variable up and
assigning it the sum with one come to the same, and so do counting it
down and assigning it the difference. They succeed together, exactly if
the name means a variable that holds a number, with the same value and
the same variables behind them; or they fault together, in the same
class, and change nothing. -/
theorem session_counting (calls : List Stmt) (w : σ) (env : Environment)
    (henv : env ∈ Environment.empty
      :: sessionTrail con limit calls Environment.empty w)
    (scope : Nat) (name used plus minus : Token)
    (hused : used.lexeme = name.lexeme) (hplus : plus.kind = .plus)
    (hminus : minus.kind = .minus) :
    SameCount env scope name.lexeme 1.0 ((Expr.increment name).eval scope env)
        ((Expr.assignOffset name used plus).eval scope env)
      ∧ SameCount env scope name.lexeme (-1.0) ((Expr.decrement name).eval
        scope env)
        ((Expr.assignOffset name used minus).eval scope env) := by
  have htyped := session_typed con limit henv
  constructor
  · exact count_assign htyped scope hused (Token.offsets_plus hplus)
  · exact count_assign htyped scope hused (Token.offsets_minus hminus)

/-- Declares a number without a value and a letter with one. -/
def numberAndLetter : Stmt :=
  let name lexeme : Token := ⟨.identifier, lexeme, none, ⟨1, 0⟩⟩
  .declareAll [⟨name "n", none, .numero⟩,
    ⟨name "c", some (.literal (.char 'a')), .letra⟩]

/-- Behind `numberAndLetter` the number can be counted up and the letter
cannot: counting faults at once, and the sum is a text that the variable
does not admit. -/
theorem session_counting_letter :
    let start : Scripted := { queue := [] }
    let env :=
      (session Scripted.console 1 [numberAndLetter] Environment.empty start).1
    let name lexeme column : Token := ⟨.identifier, lexeme, none, ⟨2, column⟩⟩
    let plus : Token := ⟨.plus, "+", none, ⟨2, 6⟩⟩
    env ∈ Environment.empty
        :: sessionTrail Scripted.console 1 [numberAndLetter]
          Environment.empty start
      ∧ SameCount env 0 "n" 1.0 ((Expr.increment (name "n" 0)).eval 0 env)
        ((Expr.assignOffset (name "n" 0) (name "n" 4) plus).eval 0 env)
      ∧ SameCount env 0 "c" 1.0 ((Expr.increment (name "c" 0)).eval 0 env)
        ((Expr.assignOffset (name "c" 0) (name "c" 4) plus).eval 0 env)
      ∧ (Expr.assignOffset (name "c" 0) (name "c" 4) plus).eval 0 env
        = .error ⟨.assignment "c" .letra (.text "a1"), ⟨2, 0⟩⟩ env := by
  intro start env name plus
  have henv : env ∈ Environment.empty
      :: sessionTrail Scripted.console 1 [numberAndLetter] Environment.empty
        start := by
    decide +kernel
  have hcount (lexeme : String) :=
    session_counting Scripted.console 1 [numberAndLetter] start env henv 0
      (name lexeme 0) (name lexeme 4) plus ⟨.minus, "-", none, ⟨2, 6⟩⟩
      rfl rfl rfl
  exact ⟨henv, (hcount "n").1, (hcount "c").1, rfl⟩

end Run

end BisayaPlus
