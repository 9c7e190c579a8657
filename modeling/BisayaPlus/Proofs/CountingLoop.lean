/-
What a counting loop means.

A counting loop is read as a block that holds its first clause and a loop,
whose body is a block with the body of the counting loop and its last
clause. `Counting.exec` says directly what it is to do: it opens one scope
for the loop, runs the first clause there, and as long as the condition
holds in that scope it runs the body in a scope of its own, drops that
scope, and evaluates the last clause in the scope of the loop.

The two differ in their scopes. The tree evaluates the last clause inside
the block that also holds the body, and a body in braces opens a third
scope there. That makes no difference, because a statement that stands as
a body declares nothing in the scope it runs in, and so that block stays
empty and goes unnoticed (`Proofs/EmptyScope.lean`). `Parse.counting_exec`
puts this together for every loop that is read without an error, and adds
what follows from it: no name is left behind by the loop, and once the
body has redeclared a name, the condition and the last clause see the
variable outside as it was then.
-/
import BisayaPlus.Proofs.EmptyScope
import BisayaPlus.Proofs.ParseSound
import BisayaPlus.Proofs.Shadowing

namespace BisayaPlus

open Run Environment Grammar

-- ==================================================== the direct meaning

/-- The parts of a counting loop; clauses may be left out. -/
structure Counting where
  first : Option Stmt
  condition : Option Expr
  last : Option Expr
  body : Stmt

namespace Counting

/-- The tokens are a counting loop with these parts. -/
inductive Spelled : List Token → Counting → Prop where
  | mk {alangSa open' comma comma' close pundok : Token}
      {fs cs ls bs : List Token} {c : Counting} :
      alangSa.kind = .alangSa → open'.kind = .leftParen →
      FirstClause fs c.first → comma.kind = .comma → Clause cs c.condition →
      comma'.kind = .comma → Clause ls c.last → close.kind = .rightParen →
      pundok.kind = .pundok → Sentence .statement bs c.body →
      Spelled (alangSa :: open' :: (fs ++ comma
        :: (cs ++ comma' :: (ls ++ close :: pundok :: bs)))) c

variable {m : Type → Type} [Monad m] (con : Console m) (limit : Nat)
  (c : Counting)

/-- Runs the first clause in the scope of the loop. -/
def enter (loop : Nat) (env : Environment) : m Result :=
  match c.first with
  | none => pure (env, .done)
  | some s => s.exec con limit loop env

/-- The value of the condition; one that was left out is true. -/
def holds (loop : Nat) : Step Value :=
  match c.condition with
  | none => pure (.truth true)
  | some e => e.eval loop

/-- Evaluates the last clause in the scope of the loop. -/
def advance (loop : Nat) (env : Environment) : Result :=
  match c.last with
  | none => (env, .done)
  | some e => Result.ofStep (e.eval loop) env

/-- Takes rounds as long as the condition holds: the body in a scope of its
own, which is dropped, and then the last clause. -/
def rounds (loop : Nat) : Nat → Environment → m Result
  | 0, env => pure (env, .outOfTurns)
  | n + 1, env =>
      match c.holds loop env with
      | .error e env => pure (env, .failed e)
      | .ok v env =>
          if v.isTruthy then
            andThen (ownScope c.body.isBlock loop env (c.body.exec con limit))
              fun env =>
              andThen (pure (c.advance loop env)) (rounds loop n)
          else pure (env, .done)

/-- Runs the loop in a scope that is dropped behind it. -/
def exec (scope : Nat) (env : Environment) : m Result :=
  inScope scope env fun loop env =>
    andThen (c.enter con limit loop env) (c.rounds con limit loop limit)

end Counting

-- ============================================== the tree and the meaning

namespace Counting

variable {σ : Type} (con : Console (StateM σ)) (limit : Nat) (c : Counting)

/-- The tree that the loop is read as. -/
def tree : Stmt := Parse.lowerLoop c.first c.condition c.last c.body

theorem execAll_last (loop : Nat) (env : Environment) (w : σ) :
    Stmt.execAll con limit (c.last.map Stmt.expression).toList loop env w
      = (c.advance loop env, w) := by
  unfold advance
  cases c.last with
  | none => rfl
  | some e => exact Stmt.execAll_singleton con limit (.expression e) loop env w

/-- One round of the tree is one round of the loop. -/
theorem round_eq {loop : Nat} {env : Environment} (w : σ)
    (hbody : c.body.declares = false) (henv : env.Grounded)
    (hloop : loop < env.depth) :
    (Stmt.block (c.body :: (c.last.map Stmt.expression).toList)).exec con limit
      loop env w
      = andThen (ownScope c.body.isBlock loop env (c.body.exec con limit))
          (fun env => pure (c.advance loop env)) w := by
  have hown : ownScope c.body.isBlock loop env (c.body.exec con limit) w
      = c.body.exec con limit loop env w := by
    cases c.body.isBlock with
    | true => rfl
    | false => exact Stmt.inScope_exec con limit c.body hbody henv hloop
  have hdeclares :
      Stmt.declaresAny (c.body :: (c.last.map Stmt.expression).toList)
      = false := by
    rw [Stmt.declaresAny, hbody]
    cases c.last <;> rfl
  show inScope loop env (Stmt.execAll con limit _) w = _
  rw [Stmt.inScope_execAll con limit _ hdeclares henv hloop, Stmt.execAll]
  exact andThen_congr hown.symm fun env' w' _ =>
    c.execAll_last con limit loop env' w'

/-- The loop of the tree takes the rounds of the loop. -/
theorem turns_eq {loop : Nat} {env : Environment} (w : σ)
    (hbody : c.body.declares = false) (henv : env.Grounded)
    (hloop : loop < env.depth) (n : Nat) :
    turns ((c.condition.getD (.literal (.truth true))).eval loop)
        (fun env =>
          (Stmt.block (c.body :: (c.last.map Stmt.expression).toList)).exec
            con limit loop env) n env w
      = c.rounds con limit loop n env w := by
  have hholds : (c.condition.getD (.literal (.truth true))).eval loop
      = c.holds loop := by
    unfold holds
    cases c.condition <;> rfl
  rw [hholds]
  have hkeeps : KeepsOutline (c.holds loop) := by
    rw [← hholds]
    exact Expr.eval_keepsOutline _ loop
  clear hholds
  induction n generalizing env w with
  | zero => rfl
  | succ n ih =>
      rw [turns, rounds]
      have houtline := hkeeps env
      cases hc : c.holds loop env with
      | error e env₁ => rfl
      | ok v env₁ =>
          rw [hc] at houtline
          change env₁.outline = env.outline at houtline
          simp only
          by_cases hv : v.isTruthy
          · simp only [hv, if_true]
            have henv₁ := henv.congr houtline
            have hloop₁ : loop < env₁.depth := by
              rwa [depth_of_outline houtline]
            have hround := c.round_eq con limit w hbody henv₁ hloop₁
            rw [← andThen_assoc
              (ownScope c.body.isBlock loop env₁ (c.body.exec con limit))
              (fun env => pure (c.advance loop env))
              (c.rounds con limit loop n)]
            refine andThen_congr hround fun env₂ w₂ hdone => ?_
            -- A block leaves the scopes as they are, so that the next round
            -- starts like this one.
            have houtline₂ :=
              ((Stmt.block (c.body :: (c.last.map
                Stmt.expression).toList)).exec_outline con limit loop env₁ w
                hloop₁).same rfl
            rw [hround, hdone] at houtline₂
            refine ih w₂ (henv₁.congr houtline₂) ?_
            rwa [depth_of_outline houtline₂]
          · simp only [hv]
            rfl

/-- The tree of a loop whose body declares nothing does what the loop is to
do. -/
theorem tree_exec {scope : Nat} {env : Environment} (w : σ)
    (hbody : c.body.declares = false) (henv : env.Grounded)
    (hscope : scope < env.depth) :
    c.tree.exec con limit scope env w = c.exec con limit scope env w := by
  have hdepth := env.depth_lt_push scope
  have hinner : Stmt.execAll con limit (c.first.toList ++
        [ .loop (c.condition.getD (.literal (.truth true)))
            (.block (c.body :: (c.last.map Stmt.expression).toList)) ])
        env.depth (env.push scope) w
      = andThen (c.enter con limit env.depth (env.push scope))
          (c.rounds con limit env.depth limit) w := by
    have henter : Stmt.execAll con limit c.first.toList env.depth
          (env.push scope) w
        = c.enter con limit env.depth (env.push scope) w := by
      unfold enter
      cases c.first with
      | none => rfl
      | some s =>
          exact Stmt.execAll_singleton con limit s env.depth (env.push scope) w
    have hkept :=
      (Stmt.execAll_outline con limit c.first.toList env.depth (env.push scope)
        w hdepth).differs
    rw [Stmt.execAll_append]
    refine andThen_congr henter fun env₁ w₁ hdone => ?_
    rw [henter, hdone] at hkept
    rw [Stmt.execAll_singleton]
    exact c.turns_eq con limit w₁ hbody (hkept.grounded (henv.push hscope))
      (hkept.depth ▸ hdepth) limit
  show inScope scope env (Stmt.execAll con limit _) w
    = c.exec con limit scope env w
  simp only [Counting.exec, inScope, bind, StateT.bind]
  rw [hinner]

end Counting

-- ================================================= bodies as they are read

namespace Grammar

/-- A statement that is read where one statement is asked for declares
nothing in the scope it runs in. -/
theorem Sentence.declares_false {ts : List Token} {s : Stmt}
    (h : Sentence .statement ts s) :
    s.declares = false := by
  cases h with
  | conditional _ h =>
      cases h with
      | ifThen _ _ => rfl
      | elseIf _ _ _ _ => rfl
      | ifElse _ _ _ _ _ => rfl
  | counting _ _ _ _ _ _ _ _ _ _ => rfl
  | print _ _ _ => rfl
  | input _ _ _ => rfl
  | block _ _ _ => rfl
  | expression _ => rfl

/-- What is read behind `ALANG SA` is a counting loop. -/
theorem Sentence.spelled {alangSa : Token} {ts : List Token} {s : Stmt}
    (halangSa : alangSa.kind = .alangSa)
    (h : Sentence .statement (alangSa :: ts) s) :
    ∃ c : Counting, c.Spelled (alangSa :: ts) ∧ s = c.tree := by
  cases h with
  | conditional hkung _ => rw [halangSa] at hkung; cases hkung
  | counting h hopen hfirst hcomma hcondition hcomma' hlast hclose
    hpundok hbody =>
      exact ⟨⟨_, _, _, _⟩,
        .mk h hopen hfirst hcomma hcondition hcomma' hlast hclose hpundok
        hbody, rfl⟩
  | print hipakita _ _ => rw [halangSa] at hipakita; cases hipakita
  | input hdawat _ _ => rw [halangSa] at hdawat; cases hdawat
  | block hopen _ _ => rw [halangSa] at hopen; cases hopen
  | expression he =>
      obtain ⟨t, us, heq, ht⟩ := he.head
      obtain ⟨rfl, rfl⟩ := List.cons.inj heq
      rw [halangSa] at ht
      exact absurd ht (by decide)

end Grammar

-- ============================================ names that are redeclared

namespace Stmt

variable {σ : Type} (con : Console (StateM σ)) (limit : Nat)

/-- Once a block has redeclared a name, the rest of the block does not
change what the name means outside. -/
theorem block_lookup {before behind : List Stmt} {scope : Nat}
    {env env₁ : Environment} {x : String} {w w₁ : σ} (henv : env.Grounded)
    (hscope : scope < env.depth)
    (hbefore : execAll con limit before env.depth (env.push scope) w
      = ((env₁, .done), w₁)) (hx : (env₁.bindingAt env.depth x).isSome) :
    ((block (before ++ behind)).exec con limit scope env w).1.1.lookup scope x
      = (env₁.pop env.depth).lookup scope x := by
  have hdepth := env.depth_lt_push scope
  have hdiffers :=
    (execAll_outline con limit before env.depth (env.push scope) w
      hdepth).differs
  rw [hbefore] at hdiffers
  have hdepth₁ : env.depth < env₁.depth := by rwa [hdiffers.depth]
  obtain ⟨b, hb⟩ := Option.isSome_iff_exists.1 hx
  have hsame := execAll_hidden con limit behind w₁
    (hdiffers.grounded (henv.push hscope)) hdepth₁ hb
  have hrest :=
    (execAll_outline con limit behind env.depth env₁ w₁ hdepth₁).differs
  have hexec : ((block (before ++ behind)).exec con limit scope env w).1.1
      = (execAll con limit behind env.depth env₁ w₁).1.1.pop env.depth := by
    show (execAll con limit (before ++ behind) env.depth (env.push scope)
      w).1.1.pop env.depth = _
    rw [execAll_append, andThen_apply, hbefore]
  rw [hexec]
  generalize (execAll con limit behind env.depth env₁ w₁).1.1
    = env₂ at hsame hrest
  have houtline : (env₂.pop env.depth).outline
      = (env₁.pop env.depth).outline := by
    have hpos : 0 < env.depth := by omega
    rw [(hdiffers.trans hrest).pop_push hpos, hdiffers.pop_push hpos]
  have hgrounded : (env₁.pop env.depth).Grounded :=
    henv.congr (hdiffers.pop_push (by omega))
  unfold Environment.lookup
  rw [resolve_congr houtline]
  cases howner : (env₁.pop env.depth).resolve scope x with
  | none => rfl
  | some owner =>
      have hle := hgrounded.resolve_le howner
      show (env₂.pop env.depth).bindingAt owner x
        = (env₁.pop env.depth).bindingAt owner x
      rw [bindingAt_pop (by omega), bindingAt_pop (by omega)]
      exact hsame owner (by omega)

end Stmt

-- ============================================================ the theorem

namespace Parse

/-- A counting loop that is read without an error does what its parts say:
for every console, every number of turns and every state, its tree ends
as the direct meaning does, with the same effect on the console and the
same variables, and behind it every scope has the names and types it had
before. If the body has come to a point where it has redeclared a name in
its own scope, then after the body the name means in the scope of the loop
what it meant there at that point. -/
theorem counting_exec {stop alangSa : Token} {ts rest : List Token} {s : Stmt}
    {h : Behind rest (alangSa :: ts)} (halangSa : alangSa.kind = .alangSa)
    (hs : statement stop (alangSa :: ts) = .parsed s rest [] h) :
    ∃ (used : List Token) (c : Counting), used ++ rest = alangSa :: ts
      ∧ c.Spelled used
      ∧ (∀ {σ : Type} (con : Console (StateM σ)) (limit scope : Nat)
        (env : Environment) (w : σ),
          env.Grounded → scope < env.depth →
            s.exec con limit scope env w = c.exec con limit scope env w
              ∧ (s.exec con limit scope env w).1.1.outline = env.outline)
      ∧ ∀ {σ : Type} (con : Console (StateM σ)) (limit loop : Nat)
        (env env₁ : Environment)
          (w w₁ : σ) (before behind : List Stmt) (x : String),
          env.Grounded → loop < env.depth →
          c.body = .block (before ++ behind) →
          Stmt.execAll con limit before env.depth (env.push loop) w
            = ((env₁, .done), w₁) →
          (env₁.bindingAt env.depth x).isSome →
            (ownScope c.body.isBlock loop env (c.body.exec con limit)
              w).1.1.lookup loop x
              = (env₁.pop env.depth).lookup loop x := by
  have hreads := statement_reads stop (alangSa :: ts)
  rw [hs] at hreads
  obtain ⟨used, hused, hsentence⟩ := hreads rfl
  obtain ⟨us, rfl⟩ : ∃ us, used = alangSa :: us := by
    cases used with
    | nil =>
        have hlt := h.length_lt
        rw [← hused] at hlt
        exact absurd hlt (Nat.lt_irrefl _)
    | cons t us =>
        obtain ⟨rfl, -⟩ := List.cons.inj hused
        exact ⟨us, rfl⟩
  obtain ⟨c, hspelled, rfl⟩ := hsentence.spelled halangSa
  have hbody : c.body.declares = false := by
    obtain ⟨-, -, -, -, -, -, -, -, -, hbody⟩ := hspelled
    exact hbody.declares_false
  refine ⟨alangSa :: us, c, hused, hspelled, ?_, ?_⟩
  · intro σ con limit scope env w henv hscope
    exact ⟨c.tree_exec con limit w hbody henv hscope,
      (c.tree.exec_outline con limit scope env w hscope).same rfl⟩
  · intro σ con limit loop env env₁ w w₁ before behind x henv hloop hblock
      hbefore hx
    rw [hblock]
    exact Stmt.block_lookup con limit henv hloop hbefore hx

/-- A loop over a truth value `b` that takes one turn. Its body declares a
letter of the same name, gives it a value and prints it. -/
def oneTurn : List Token :=
  [ bareToken .leftParen "(", bareToken .mugna "MUGNA",
    bareToken .tinuod "TINUOD", bareToken .identifier "b",
    bareToken .assign "=", bareToken .oo "OO", bareToken .comma ",",
    bareToken .identifier "b", bareToken .comma ",", bareToken .identifier "b",
    bareToken .assign "=", bareToken .dili "DILI", bareToken .rightParen ")",
    bareToken .pundok "PUNDOK", bareToken .leftBrace "\x7b",
    bareToken .mugna "MUGNA", bareToken .letra "LETRA",
    bareToken .identifier "b", bareToken .identifier "b",
    bareToken .assign "=", ⟨.character, "'c'", some (.char 'c'), ⟨1, 1⟩⟩,
    bareToken .ipakita "IPAKITA", bareToken .colon ":",
    bareToken .identifier "b", bareToken .rightBrace "\x7d" ]

/-- The tree of `oneTurn`. -/
def oneTurnTree : Stmt :=
  let b := bareToken .identifier "b"
  .block
    [ .declare ⟨b, some (.literal (.truth true)), .tinuod⟩,
      .loop (.var b) (.block
        [ .block
            [ .declareAll [⟨b, none, .letra⟩],
              .expression (.assign b (.literal (.char 'c'))),
              .print (bareToken .ipakita "IPAKITA") (.var b) ],
          .expression (.assign b (.literal (.truth false))) ]) ]

theorem counting_exec_oneTurn :
    let start : Scripted := { queue := [] }
    let r :=
      oneTurnTree.exec Scripted.console 2 Environment.global
        Environment.empty start
    ∃ (used : List Token) (c : Counting),
      used ++ [] = bareToken .alangSa "ALANG SA" :: oneTurn ∧ c.Spelled used
        ∧ r = c.exec Scripted.console 2 Environment.global
          Environment.empty start
        ∧ r = ((Environment.empty, .done),
          { queue := [], output := #["c"] }) := by
  intro start r
  have hparse : statement (bareToken .eof "")
        (bareToken .alangSa "ALANG SA" :: oneTurn)
      = .parsed oneTurnTree [] [] ⟨List.nil_suffix, by decide⟩ := by
    with_unfolding_all rfl
  obtain ⟨used, c, hused, hspelled, hexec, -⟩ := counting_exec rfl hparse
  refine ⟨used, c, hused, hspelled, ?_, ?_⟩
  · exact (hexec Scripted.console 2 Environment.global Environment.empty start
      empty_grounded Nat.zero_lt_one).1
  · rfl

end Parse

end BisayaPlus
