/-
The scopes of a run are a stack.

An environment is a stack if every scope but the first has the one made
right before it as its parent. Statements run in the innermost scope of a
stack, and each block, branch and loop body opens a scope on top of it.
`Stmt.exec_stacked` says what such a run leaves: the same scopes with the
same parents, whether it is done, has faulted or has run out of turns,
and in each of them the same names with the same declared types, except
that a declaration adds to the scope it stands in.

The argument is the one on outlines (`Stmt.exec_outline`); here it is read
scope by scope. Between two calls of a session only the first scope is
left, however the calls before ended.
-/
import BisayaPlus.Proofs.Scopes
import BisayaPlus.Proofs.Trail

namespace BisayaPlus

open Run

namespace Environment

variable {env env' : Environment} {scope i : Nat} {x : String}

-- ============================================================== stacks

/-- The parent of a scope, if there is such a scope and it has one. -/
def parentAt (env : Environment) (i : Nat) : Option Nat :=
  env.scopes[i]?.bind Scope.parent

/-- The declared type of a name in one scope. -/
def typeAt (env : Environment) (i : Nat) (x : String) : Option VarType :=
  (env.bindingAt i x).map Binding.type

/-- The scope that was made last. -/
def innermost (env : Environment) : Nat := env.depth - 1

/-- The first scope has no parent, and the parent of every other one is
the scope made right before it. -/
structure Stacked (env : Environment) : Prop where
  depth_pos : 0 < env.depth
  first : env.parentAt 0 = none
  next : ∀ i, i + 1 < env.depth → env.parentAt (i + 1) = some i

/-- The innermost scope is one of those there are. -/
theorem Stacked.innermost_lt (h : env.Stacked) :
    env.innermost < env.depth := by
  have := h.depth_pos
  unfold innermost
  omega

-- ================================================== reading an outline

theorem parentAt_outline (env : Environment) (i : Nat) :
    env.parentAt i = env.outline[i]?.bind Outline.parent := by
  unfold parentAt outline
  rw [List.getElem?_map]
  cases env.scopes[i]? <;> rfl

theorem typeAt_outline (env : Environment) (i : Nat) (x : String) :
    env.typeAt i x = env.outline[i]?.bind (·.types x) := bindingAt_type env i x

/-- A change in one scope changes no parent. -/
theorem Differs.parentAt (h : Differs scope env env') (i : Nat) :
    env'.parentAt i = env.parentAt i := by
  obtain ⟨types, h⟩ := h
  rw [parentAt_outline, parentAt_outline, h, List.getElem?_modify]
  cases env.outline[i]? with
  | none => rfl
  | some o =>
      by_cases hi : scope = i
      · simp [hi]
      · simp [hi]

/-- It changes no type in another scope. -/
theorem Differs.typeAt (h : Differs scope env env') (hi : i ≠ scope)
    (x : String) :
    env'.typeAt i x = env.typeAt i x := by
  obtain ⟨types, h⟩ := h
  rw [typeAt_outline, typeAt_outline, h,
    List.getElem?_modify_ne _ _ (Ne.symm hi)]

/-- Scopes that are stacked stay so. -/
theorem Differs.stacked (h : Differs scope env env') (henv : env.Stacked) :
    env'.Stacked where
  depth_pos := by rw [h.depth]; exact henv.depth_pos
  first := by rw [h.parentAt]; exact henv.first
  next i hi := by
    rw [h.depth] at hi
    rw [h.parentAt]
    exact henv.next i hi

end Environment

open Environment

-- ============================================================ sessions

namespace Run

variable {σ : Type} (con : Console (StateM σ)) (limit : Nat)

/-- After a session there are as many scopes as before it. -/
theorem session_depth (calls : List Stmt) {env : Environment} (w : σ)
    (henv : Environment.global < env.depth) :
    (session con limit calls env w).1.depth = env.depth := by
  induction calls generalizing env w with
  | nil => rfl
  | cons s calls ih =>
      have hdepth :=
        (s.exec_outline con limit Environment.global env w henv).differs.depth
      have hrest := ih (s.interpret con limit env w).2 (hdepth ▸ henv)
      exact hrest.trans hdepth

end Run

-- ======================================================== single runs

namespace Stmt

variable {σ : Type} (con : Console (StateM σ)) (limit : Nat)

/-- A statement that runs in the innermost scope of a stack leaves a stack
of the same depth with the same parents, however the run ends. In every
other scope the names and their declared types are as before. In the
innermost scope they are too, unless the statement is a declaration or a
program that holds one by itself or in a program of its own; so nothing
that a block, branch or loop declares has a meaning behind it. After any
calls of a session only the first scope is left. -/
theorem exec_stacked (s : Stmt) {env : Environment} (w : σ)
    (henv : env.Stacked) :
    let after := (s.exec con limit env.innermost env w).1.1
    after.Stacked
      ∧ after.depth = env.depth
      ∧ (∀ i, after.parentAt i = env.parentAt i)
      ∧ (∀ i x, i ≠ env.innermost → after.typeAt i x = env.typeAt i x)
      ∧ (s.declares = false →
          (∀ x, after.typeAt env.innermost x = env.typeAt env.innermost x)
            ∧ ∀ i x, (after.lookup i x).map Binding.type
            = (env.lookup i x).map Binding.type)
      ∧ ∀ calls : List Stmt,
        (session con limit calls Environment.empty w).1.depth = 1 := by
  intro after
  have hkept := s.exec_outline con limit env.innermost env w henv.innermost_lt
  have hdiffers : Differs env.innermost env after := hkept.differs
  refine ⟨hdiffers.stacked henv, hdiffers.depth, hdiffers.parentAt,
    fun i x hi => ?_, fun hs => ⟨fun x => ?_, fun i x => ?_⟩, fun calls => ?_⟩
  · exact hdiffers.typeAt hi x
  · rw [typeAt_outline, typeAt_outline, hkept.same hs]
  · exact lookup_type (hkept.same hs) i x
  · exact session_depth con limit calls w Nat.zero_lt_one

/-- Two scopes, with a number in the outer one. -/
def twoScopes : Environment :=
  (Environment.empty.define Environment.global "x" ⟨.number 1.0, .numero⟩).push
    Environment.global

/-- A branch that declares `y` in a block and then faults in a block
inside it, which has declared another `x`. -/
def faultyBranch : Stmt :=
  let name lexeme : Token := ⟨.identifier, lexeme, none, ⟨1, 0⟩⟩
  .ifThen (.literal (.truth true)) (.block
    [ .declareAll [⟨name "y", none, .tinuod⟩],
      .block [.declareAll [⟨name "x", none, .letra⟩],
        .expression (.var (name "z"))] ])

/-- The fault of `faultyBranch` leaves both scopes, and neither `y` nor
the inner `x` in them. -/
theorem exec_stacked_faultyBranch :
    let start : Scripted := { queue := [] }
    let r :=
      (faultyBranch.exec Scripted.console 1 twoScopes.innermost
        twoScopes start).1
    twoScopes.Stacked
      ∧ r.2 = .failed ⟨.undefined "z", ⟨1, 0⟩⟩
      ∧ r.1.depth = 2 ∧ r.1.typeAt 1 "y" = none
        ∧ r.1.typeAt 0 "x" = some .numero := by
  intro start r
  have hstacked : twoScopes.Stacked := by
    refine ⟨by decide, by decide, fun i hi => ?_⟩
    obtain rfl : i = 0 := by
      have hdepth : twoScopes.depth = 2 := by decide
      omega
    decide
  obtain ⟨-, hdepth, -, houter, hsame, -⟩ :=
    exec_stacked Scripted.console 1 faultyBranch start hstacked
  refine ⟨hstacked, by decide, hdepth, ?_, ?_⟩
  · exact (hsame rfl).1 "y"
  · exact houter 0 "x" (by decide)

end Stmt

end BisayaPlus
