/-
An input statement reads its lines one name at a time.

For each name a prompt is shown and a line is taken, and the line is read
as a value of the type of the variable that the name means. The first
name for which that fails ends the statement. Then the names before it
have been given their values as if they had stood alone, the failing one
and those behind it have not, and of these only the failing one was
prompted for and had a line taken, if there was one
(`Stmt.input_in_order`). That the lines are used up is noticed before the
name is looked up.

`Filled` says that lines were read for names in turn. It is one
assignment after another, so that of several lines for one name the last
one counts (`Filled.last`), and no variable is touched but those that the
names mean (`Filled.touched`).
-/
import BisayaPlus.Proofs.Faults
import BisayaPlus.Proofs.Locality

namespace BisayaPlus

open Run Environment

namespace Run

variable {scope : Nat} {env env' : Environment} {names : List Token}
  {lines : List String}

-- ================================================== lines read in turn

/-- Each name in turn was given the value of its line, which leads from
one environment to another. -/
inductive Filled (scope : Nat) :
    Environment → List Token → List String → Environment → Prop where
  | nil (env : Environment) : Filled scope env [] [] env
  | cons {env env₁ env₂ : Environment} {name : Token} {line : String}
      {names : List Token}
      {lines : List String} {b : Binding} {v : Value}
      (hb : env.lookup scope name.lexeme = some b)
      (hv : ofInput line b.type name = .ok v)
      (hassign : env.assign? scope name.lexeme v = some env₁)
      (hrest : Filled scope env₁ names lines env₂) :
      Filled scope env (name :: names) (line :: lines) env₂

namespace Filled

theorem length_eq (h : Filled scope env names lines env') :
    names.length = lines.length := by
  induction h with
  | nil env => rfl
  | cons _ _ _ _ ih => exact congrArg Nat.succ ih

theorem touched (h : Filled scope env names lines env') :
    Touched (names.map Token.lexeme) scope env env' := by
  induction h with
  | nil env => exact .refl _ scope env
  | @cons _ _ _ name _ names _ _ _ _ _ hassign _ ih =>
      have hmem : name.lexeme ∈ (name :: names).map Token.lexeme :=
        List.mem_cons_self
      exact (Touched.assign hassign hmem).trans
        (ih.mono (List.subset_cons_self _ _))

/-- A variable holds what the last line for its name was read as. -/
theorem last (h : Filled scope env names lines env') {x : String}
    {name : Token} {line : String}
    (hlast : (names.zip lines).reverse.find? (·.1.lexeme == x)
      = some (name, line)) :
    ∃ b v, env.lookup scope x = some b ∧ ofInput line b.type name = .ok v
      ∧ env'.lookup scope x = some { b with value := v } := by
  induction h with
  | nil env => cases hlast
  | @cons env env₁ env₂ name₁ line₁ names lines b₁ v₁ hb hv hassign hrest ih =>
      have hstep := lookup_assign?_same hassign x
      rw [List.zip_cons_cons, List.reverse_cons, List.find?_append] at hlast
      cases hlater : (names.zip lines).reverse.find? (·.1.lexeme == x) with
      | some pair =>
          -- A later line for the name: the first one has left the type as it
          -- was.
          rw [hlater, Option.some_or] at hlast
          obtain ⟨b, v, hb', hv', hafter⟩ := ih (hlater.trans hlast)
          by_cases hx : x = name₁.lexeme
          · subst hx
            rw [if_pos rfl, hb, hb'] at hstep
            obtain rfl := Option.some.inj hstep
            exact ⟨b₁, v, hb, hv', hafter⟩
          · rw [if_neg hx, hb'] at hstep
            exact ⟨b, v, hstep.symm, hv', hafter⟩
      | none =>
          rw [hlater, Option.none_or, List.find?_singleton] at hlast
          split at hlast
          · next hname =>
            obtain ⟨rfl, rfl⟩ := Prod.mk.inj (Option.some.inj hlast)
            obtain rfl : name₁.lexeme = x := eq_of_beq hname
            have hother : name₁.lexeme ∉ names.map Token.lexeme := by
              rw [← List.map_fst_zip (Nat.le_of_eq hrest.length_eq)]
              intro hmem
              obtain ⟨name, hname, heq⟩ := List.mem_map.1 hmem
              obtain ⟨pair, hpair, rfl⟩ := List.mem_map.1 hname
              exact List.find?_eq_none.1 hlater pair (List.mem_reverse.2 hpair)
                (beq_iff_eq.2 heq)
            rw [if_pos rfl, hb] at hstep
            exact ⟨b₁, v₁, hb, hv,
              (hrest.touched.lookup hother scope).trans hstep⟩
          · cases hlast

end Filled

-- ============================================== one name after another

/-- Why reading a line for a name failed, with the lines there were: none
was left, or the name means nothing, or the line is no value of its type. -/
inductive InputFault (scope : Nat) (env : Environment) (name : Token) :
    List String → Error → Prop where
  | exhausted : InputFault scope env name [] ⟨.noInput name.lexeme, name.span⟩
  | undefined {line : String} {rest : List String}
      (hnone : env.lookup scope name.lexeme = none) :
      InputFault scope env name (line :: rest) ⟨.undefinedType name.lexeme,
        name.span⟩
  | refused {line : String} {rest : List String} {b : Binding} {e : Error}
      (hb : env.lookup scope name.lexeme = some b)
      (he : ofInput line b.type name = .error e) :
      InputFault scope env name (line :: rest) e

/-- The fault is at the name, and its class is that of reference exactly if
there was a line and the name means nothing. -/
theorem InputFault.code {name : Token} {rest : List String} {e : Error}
    (h : InputFault scope env name rest e) : e.span = name.span
      ∧ e.fault.code = if rest ≠ [] ∧ env.lookup scope name.lexeme = none
        then .reference
        else .input := by
  cases h with
  | exhausted => exact ⟨rfl, rfl⟩
  | undefined hnone => exact ⟨rfl, by simp [hnone, Fault.code]⟩
  | refused hb he =>
      refine ⟨?_, ?_⟩
      · rcases ofInput_error he with ⟨text, rfl⟩ | ⟨text, rfl⟩ | rfl <;> rfl
      · rw [ofInput_code he, if_neg fun h => ?_]
        rw [hb] at h
        cases h.2

/-- A script behind the prompts for some names, with the lines that are
left. -/
def asked (start : Scripted) (names : List Token) (queue : List String) :
    Scripted :=
  { start with
    queue := queue
    prompts := start.prompts ++ (names.map promptFor).toArray }

theorem asked_nil (start : Scripted) : asked start [] start.queue = start := by
  simp [asked]

theorem asked_cons (start : Scripted) (name : Token) (names : List Token)
    (queue queue' : List String) :
    asked (asked start [name] queue) names queue'
      = asked start (name :: names) queue' := by
  simp [asked]

/-- Reading a line for one name from a script: it fails and changes no
variable, or it gives the variable the value of the first line. -/
theorem inputOne_scripted {start : Scripted} (hreads : start.readsLeft = none)
    (scope : Nat) (name : Token) (env : Environment) :
    (∃ e, InputFault scope env name start.queue e
        ∧ inputOne Scripted.console scope name env start
          = ((env, .failed e), asked start [name] start.queue.tail))
      ∨ ∃ line rest b v env₁, start.queue = line :: rest
        ∧ env.lookup scope name.lexeme = some b
          ∧ ofInput line b.type name = .ok v
        ∧ env.assign? scope name.lexeme v = some env₁
        ∧ inputOne Scripted.console scope name env start
          = ((env₁, .done), asked start [name] rest) := by
  have hread : Scripted.console.readLine (promptFor name) start
      = (.ok start.queue.head?, asked start [name] start.queue.tail) := by
    rw [Scripted.console_readLine (by rw [hreads]; simp)]
    simp [asked, hreads]
  rcases inputOne_cases Scripted.console scope name env start with
    ⟨failure, w, hline, -⟩ | ⟨w, hline, h⟩ | ⟨line, w, hline, h⟩
  · rw [hread] at hline
    cases (Prod.mk.inj hline).1
  · obtain ⟨hhead, rfl⟩ := Prod.mk.inj (hread.symm.trans hline)
    have hqueue : start.queue = [] :=
      List.head?_eq_none_iff.1 (Except.ok.inj hhead)
    refine .inl ⟨_, ?_, h⟩
    rw [hqueue]
    exact .exhausted
  · obtain ⟨hhead, rfl⟩ := Prod.mk.inj (hread.symm.trans hline)
    obtain ⟨rest, hqueue⟩ := List.head?_eq_some_iff.1 (Except.ok.inj hhead)
    rw [h, hqueue]
    unfold Result.ofStep
    rcases storeLine_cases scope name line env with
      ⟨hnone, hstore⟩ | ⟨b, e, hb, he, hstore⟩
        | ⟨b, v, env₁, hb, hv, hassign, hstore⟩
    · rw [hstore]
      exact .inl ⟨_, .undefined hnone, rfl⟩
    · rw [hstore]
      exact .inl ⟨e, .refused hb he, rfl⟩
    · rw [hstore]
      exact .inr ⟨line, rest, b, v, env₁, rfl, hb, hv, hassign, rfl⟩

/-- Reading lines for names from a script comes to the first name that
fails, or to the end. -/
theorem inputEach_scripted (start : Scripted) (hreads : start.readsLeft = none)
    (scope : Nat) (names : List Token) (env : Environment) :
    ∃ before behind lines rest env', names = before ++ behind
      ∧ start.queue = lines ++ rest
      ∧ Filled scope env before lines env'
      ∧ inputEach Scripted.console scope before env start
        = ((env', .done), asked start before rest)
      ∧ ∀ name after, behind = name :: after → ∃ e,
        InputFault scope env' name rest e
        ∧ inputEach Scripted.console scope names env start
          = ((env', .failed e), asked start (before ++ [name]) rest.tail) := by
  induction names generalizing env start with
  | nil =>
      refine ⟨[], [], [], start.queue, env, rfl, rfl, .nil env, ?_, ?_⟩
      · rw [asked_nil]
        rfl
      · intro name after hbehind
        cases hbehind
  | cons name names ih =>
      rcases inputOne_scripted hreads scope name env with
        ⟨e, hfault, hone⟩ | ⟨line, queue, b, v, env₁, hqueue, hb, hv,
          hassign, hone⟩
      · refine ⟨[], name :: names, [], start.queue, env, rfl, rfl,
          .nil env, ?_, ?_⟩
        · rw [asked_nil]
          rfl
        · intro name' after hbehind
          obtain ⟨rfl, rfl⟩ := List.cons.inj hbehind
          refine ⟨e, hfault, ?_⟩
          rw [inputEach, andThen_apply, hone]
          rfl
      · -- The names behind are read from a script that is one prompt and one
        -- line further.
        obtain ⟨before, behind, lines, rest, env', rfl, hrest, hfilled, hdone,
          hfails⟩ :=
          ih (asked start [name] queue) hreads env₁
        change queue = lines ++ rest at hrest
        refine ⟨name :: before, behind, line :: lines, rest, env', rfl, ?_,
          .cons hb hv hassign hfilled, ?_, ?_⟩
        · rw [hqueue, hrest]
          rfl
        · rw [inputEach, andThen_apply, hone]
          exact hdone.trans (by rw [asked_cons])
        · intro name' after hbehind
          obtain ⟨e, hfault, hfailed⟩ := hfails name' after hbehind
          refine ⟨e, hfault, ?_⟩
          rw [inputEach, andThen_apply, hone]
          exact hfailed.trans (by rw [asked_cons]; rfl)

end Run

-- ========================================================= the theorem

/-- An input statement on a script gives some names at the front of its
list their values, one line each, and does so as it would if these were
all its names: the lines are the first of the script, each variable holds
what the last line for its name was read as, no other binding has
changed, and there was one prompt for each name. If these are not all its
names it fails at the next one. Nothing more is assigned then; there is
one prompt more, for that name, and one line less, if one was left. The
fault is at the name. Its class is that of reference if there was a line
and the name means nothing, and that of input if no line was left or the
line is no value of the declared type. -/
theorem Stmt.input_in_order (names : List Token) (limit scope : Nat)
    (env : Environment) (queue : List String) (output prompts : Array String) :
    let start : Scripted :=
      { queue := queue, output := output, prompts := prompts }
    let run (names : List Token) :=
      (Stmt.input names).exec Scripted.console limit scope env start
    ∃ before behind lines rest env', names = before ++ behind
      ∧ queue = lines ++ rest
      ∧ Filled scope env before lines env'
      ∧ (∀ x name line,
          (before.zip lines).reverse.find? (·.1.lexeme == x) = some (name,
            line) → ∃ b v, env.lookup scope x = some b
          ∧ ofInput line b.type name = .ok v
              ∧ env'.lookup scope x = some { b with value := v })
      ∧ (∀ i x, env'.bindingAt i x ≠ env.bindingAt i x →
          x ∈ before.map Token.lexeme ∧ env.resolve scope x = some i)
      ∧ run before = ((env', .done), asked start before rest)
      ∧ ∀ name after, behind = name :: after →
          ∃ e, run names
            = ((env', .failed e), asked start (before ++ [name]) rest.tail)
            ∧ InputFault scope env' name rest e
            ∧ e.span = name.span
            ∧ e.fault.code = if rest ≠ [] ∧ env'.lookup scope name.lexeme
              = none then .reference
              else .input := by
  intro start run
  obtain ⟨before, behind, lines, rest, env', hnames, hqueue, hfilled, hdone,
    hfails⟩ :=
    inputEach_scripted start rfl scope names env
  refine ⟨before, behind, lines, rest, env', hnames, hqueue, hfilled,
    fun x name line hlast => ?_, hfilled.touched.only, hdone,
    fun name after hbehind => ?_⟩
  · exact hfilled.last hlast
  · obtain ⟨e, hfault, hfailed⟩ := hfails name after hbehind
    exact ⟨e, hfailed, hfault, hfault.code⟩

end BisayaPlus
