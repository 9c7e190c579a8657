/-
A run that has come to its end is not changed by more turns.

The number of turns bounds each loop of a run; it is not part of what a
program means. `Stmt.exec_stable` says so: if a run with some number of
turns is done or has faulted, then with any larger number it leaves the
same variables, the same state of the console and the same ending.

The loop is the one place that counts. Its lemma `turns_stable` compares
two bodies of which the second agrees with the first wherever the first
has come to its end (`Agrees`), because the body of the larger run has
more turns for its own loops.
-/
import BisayaPlus.Run.Exec

namespace BisayaPlus

open Run

variable {σ : Type}

namespace Run

/-- The run came to an end within its turns. -/
def Ended (r : Result × σ) : Prop := r.1.2 ≠ .outOfTurns

/-- The second run is like the first wherever the first comes to its end. -/
def Agrees (run run' : Environment → StateM σ Result) : Prop :=
  ∀ env w, Ended (run env w) → run' env w = run env w

/-- One run after another, as a function on the state of the console. -/
theorem andThen_apply (first : StateM σ Result)
    (second : Environment → StateM σ Result) (w : σ) :
    andThen first second w =
      match (first w).1.2 with
      | .done => second (first w).1.1 (first w).2
      | _ => first w := by
  rcases hfirst : first w with ⟨⟨env, ending⟩, w'⟩
  simp only [andThen, bind, StateT.bind, hfirst]
  cases ending <;> rfl

/-- If two runs in a row end, so does the first of them. -/
theorem ended_of_andThen {first : StateM σ Result}
    {second : Environment → StateM σ Result} {w : σ}
    (h : Ended (andThen first second w)) : Ended (first w) := by
  intro hout
  apply h
  rw [andThen_apply, hout]
  exact hout

theorem andThen_agrees {first first' : StateM σ Result}
    {second second' : Environment → StateM σ Result} {w : σ}
    (hfirst : Ended (first w) → first' w = first w)
    (hsecond : Agrees second second') (h : Ended (andThen first second w)) :
    andThen first' second' w = andThen first second w := by
  have heq := hfirst (ended_of_andThen h)
  rw [andThen_apply] at h
  rw [andThen_apply, andThen_apply, heq]
  cases hending : (first w).1.2 with
  | done =>
      simp only [hending] at h
      exact hsecond _ _ h
  | failed e => rfl
  | outOfTurns => rfl

theorem inScope_agrees {run run' : Nat → Environment → StateM σ Result}
    {scope : Nat} (h : ∀ inner, Agrees (run inner) (run' inner)) :
    Agrees (fun env => inScope scope env run)
      (fun env => inScope scope env run') := by
  intro env w hend
  have heq := h env.depth (env.push scope) w hend
  simp only [inScope, bind, StateT.bind]
  rw [heq]

theorem ownScope_agrees {run run' : Nat → Environment → StateM σ Result}
    {isBlock : Bool} {scope : Nat}
    (h : ∀ inner, Agrees (run inner) (run' inner)) :
    Agrees (fun env => ownScope isBlock scope env run)
      (fun env => ownScope isBlock scope env run') := by
  cases isBlock with
  | true => exact h scope
  | false => exact inScope_agrees h

-- ============================================================ the loop

theorem turns_stable {condition : Step Value}
    {body body' : Environment → StateM σ Result} (hbody : Agrees body body')
    (n k : Nat) :
    Agrees (turns condition body n) (turns condition body' (n + k)) := by
  induction n with
  | zero =>
      intro env w h
      exact absurd rfl h
  | succ n ih =>
      intro env w h
      rw [show n + 1 + k = (n + k) + 1 by omega]
      simp only [turns] at h ⊢
      cases hc : condition env with
      | error e env' => rfl
      | ok v env' =>
          simp only [hc] at h ⊢
          by_cases hv : v.isTruthy
          · simp only [hv, if_true] at h ⊢
            exact andThen_agrees (hbody env' w) ih h
          · simp only [hv]
            rfl

end Run

-- ========================================================== statements

namespace Stmt

variable (con : Console (StateM σ)) (limit more : Nat)

mutual

/-- With more turns a statement that comes to its end does the same. -/
theorem exec_stable (s : Stmt) (scope : Nat) :
    Agrees (s.exec con limit scope) (s.exec con (limit + more) scope) := by
  intro env w h
  match s with
  | .expression _ | .print _ _ | .declare _ | .declareAll _ | .input _ => rfl
  | .block body =>
      exact inScope_agrees (fun inner => execAll_stable body inner) env w h
  | .ifThen condition body =>
      simp only [exec] at h ⊢
      cases hc : condition.eval scope env with
      | error e env' => rfl
      | ok v env' =>
          simp only [hc] at h ⊢
          by_cases hv : v.isTruthy
          · simp only [hv, if_true] at h ⊢
            exact ownScope_agrees
              (fun inner => exec_stable body inner) env' w h
          · simp only [hv]
            rfl
  | .ifElse condition body other =>
      simp only [exec] at h ⊢
      cases hc : condition.eval scope env with
      | error e env' => rfl
      | ok v env' =>
          simp only [hc] at h ⊢
          by_cases hv : v.isTruthy
          · simp only [hv, if_true] at h ⊢
            exact ownScope_agrees
              (fun inner => exec_stable body inner) env' w h
          · simp only [hv] at h ⊢
            exact ownScope_agrees
              (fun inner => exec_stable other inner) env' w h
  | .loop condition body =>
      exact turns_stable (ownScope_agrees fun inner => exec_stable body inner)
        limit more env w h
  | .program body => exact execAll_stable body scope env w h

/-- With more turns statements that come to their end do the same. -/
theorem execAll_stable (ss : List Stmt) (scope : Nat) :
    Agrees (execAll con limit ss scope)
      (execAll con (limit + more) ss scope) := by
  intro env w h
  match ss with
  | [] => rfl
  | s :: ss =>
      exact andThen_agrees (exec_stable s scope env w)
        (execAll_stable ss scope) h

end

end Stmt

end BisayaPlus
