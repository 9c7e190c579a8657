/-
What the steps of the scanner with a cursor do.

The characters ahead of the cursor are what the row has behind it, and a
state of the machine is told by the cursor and the place it stands for
(`moved`): the start of the line is as far behind the cursor as the column
says. `Runs` says all that a step does: its answer and the scanner it
leaves, and with that, that it does not crash.

A loop passes a run of characters of one class up to the character that
stops it (`repeatWhile_runs`), so the length of the row bounds its turns.
-/
import BisayaPlus.Proofs.Numerals
import BisayaPlus.Proofs.Rows
import BisayaPlus.Token.Scanner

namespace BisayaPlus

theorem Span.right_right (p : Span) (a b : Nat) :
    (p.right a).right b = p.right (a + b) := by
  simp only [Span.right, Nat.add_assoc]

namespace Token

/-- What does not start with a class has no first character of it. -/
theorem Stops.any_eq_false {p : Char → Bool} {rest : List Char}
    (h : Stops p rest) :
    rest.head?.any p = false := by
  cases rest with
  | nil => rfl
  | cons c rest => exact h c rfl

namespace Scanner

open Row

variable {α β : Type} {row cs run rest text body : List Char} {c d : Char}
  {i n : Nat} {p q : Span}
  {s s' s'' : Scanner}

-- =============================================================== steps

/-- The step answers `a` and leaves the scanner `s'`. -/
def Runs (m : Step α) (s : Scanner) (a : α) (s' : Scanner) : Prop :=
  m s = .ok (a, s')

/-- Answering at once changes nothing. -/
theorem Runs.ret {a : α} : Runs (pure a : Step α) s a s := rfl

/-- One step runs behind the other. -/
theorem Runs.bind {m : Step α} {f : α → Step β} {a : α} {b : β}
    (h : Runs m s a s') (hf : Runs (f a) s' b s'') :
    Runs (m >>= f) s b s'' := by
  change Except.bind (m s) _ = _
  rw [h]
  exact hf

/-- The scanner with the cursor at `i`, where the place is `p`. -/
def moved (s : Scanner) (i : Nat) (p : Span) : Scanner :=
  { s with current := i, line := p.line, lineStart := i - p.column }

/-- The place of the cursor. -/
def place (s : Scanner) : Span := ⟨s.line, s.current - s.lineStart⟩

/-- A scanner is where its cursor and its place say. -/
theorem moved_self (h : s.lineStart ≤ s.current) :
    s.moved s.current s.place = s := by
  have hstart : s.current - (s.current - s.lineStart) = s.lineStart :=
    Nat.sub_sub_self h
  simp only [moved, place, hstart]

@[simp] theorem current_moved : (s.moved i p).current = i := rfl

/-- On one line only the cursor moves. -/
theorem moved_right (k : Nat) :
    { s.moved i p with current := i + k } = s.moved (i + k) (p.right k) := by
  simp only [moved, Span.right, Nat.add_sub_add_right]

/-- With a character ahead the row is not at its end. -/
theorem not_end (h : row.drop i = c :: cs) : ¬ row.length ≤ i :=
  Nat.not_le.2 (lt_length h (List.cons_ne_nil c cs))

/-- The machine is at its end where nothing is ahead. -/
theorem atEnd_runs (h : row.drop i = cs) :
    Runs (atEnd row) (s.moved i p) cs.isEmpty (s.moved i p) := by
  have hend : decide (row.length ≤ i) = cs.isEmpty := by
    rw [← h, Bool.eq_iff_iff, decide_eq_true_iff, List.isEmpty_iff,
      List.drop_eq_nil_iff]
  rw [← hend]
  rfl

/-- The character at a place is the first one ahead of it. -/
theorem look_runs (h : row.drop i = c :: cs) : Runs (look row i) s c s := by
  rw [look, getElem?_of_drop h]
  rfl

/-- To advance is to take the first character ahead. -/
theorem advance_runs (h : row.drop i = c :: cs) :
    Runs (advance row) (s.moved i p) c (s.moved (i + 1) (p.right 1)) := by
  rw [← moved_right]
  exact Runs.bind rfl (.bind (look_runs h) (.bind rfl .ret))

/-- The first character ahead is seen, or the zero character at the end. -/
theorem peek_runs (h : row.drop i = cs) :
    Runs (peek row) (s.moved i p) (cs.headD '\x00') (s.moved i p) := by
  refine .bind (atEnd_runs h) ?_
  cases cs with
  | nil => exact .ret
  | cons c cs => exact .bind rfl (look_runs h)

/-- So is the second one. -/
theorem peekNext_runs (h : row.drop i = c :: cs) :
    Runs (peekNext row) (s.moved i p) (cs.headD '\x00') (s.moved i p) := by
  have hnext := drop_succ h
  refine Runs.bind rfl ?_
  show Runs (if row.length ≤ i + 1 then pure '\x00'
    else look row (i + 1)) _ _ _
  cases cs with
  | nil =>
      rw [if_pos (List.drop_eq_nil_iff.1 hnext)]
      exact .ret
  | cons d cs =>
      rw [if_neg (not_end hnext)]
      exact look_runs hnext

/-- The character that is asked for is passed. -/
theorem pass_yes (h : row.drop i = c :: cs) :
    Runs (pass row c) (s.moved i p) true (s.moved (i + 1) (p.right 1)) := by
  refine .bind (atEnd_runs h) (.bind rfl (.bind (look_runs h) ?_))
  rw [if_pos rfl, ← moved_right]
  exact Runs.bind rfl .ret

/-- Any other is not. -/
theorem pass_no (h : row.drop i = cs) (hne : cs.head? ≠ some d) :
    Runs (pass row d) (s.moved i p) false (s.moved i p) := by
  refine .bind (atEnd_runs h) ?_
  cases cs with
  | nil => exact .ret
  | cons c cs =>
      refine Runs.bind rfl (.bind (look_runs h) ?_)
      rw [if_neg]
      · exact .ret
      · rintro rfl
        exact hne rfl

/-- A smaller number may be subtracted. -/
theorem minus_runs {a b : Nat} (h : b ≤ a) : Runs (minus a b) s (a - b) s := by
  rw [minus, if_pos h]
  exact .ret

/-- A run of characters is cut out by its two ends. -/
theorem slice_runs (h : row.drop i = run ++ rest) (hi : i ≤ row.length) :
    Runs (slice row i (i + run.length)) s run s := by
  have hlength := congrArg List.length h
  rw [List.length_drop, List.length_append] at hlength
  rw [slice, if_pos (by omega), take_drop h]
  exact .ret

-- =============================================================== loops

section

variable {cls : Char → Bool}

/-- A loop that passes one character of a class in each turn passes a run of
them, up to what stops it. -/
theorem repeatWhile_runs {test : Step Bool} {turn : Step Unit}
    {next : Span → Char → Span}
    (htest : ∀ i p cs,
      row.drop i = cs →
      Runs test (s.moved i p) (cs.head?.any cls) (s.moved i p))
    (hturn : ∀ i p c cs, row.drop i = c :: cs →
      Runs turn (s.moved i p) () (s.moved (i + 1) (next p c)))
    (hrow : row.drop i = run ++ rest) (hrun : ∀ c ∈ run, cls c = true)
    (hrest : Stops cls rest) (hn : run.length < n) :
    Runs (repeatWhile test turn n) (s.moved i p) ()
      (s.moved (i + run.length) (run.foldl next p)) := by
  induction run generalizing i p n with
  | nil =>
      have hstop := htest i p rest hrow
      rw [hrest.any_eq_false] at hstop
      cases n with
      | zero => cases hn
      | succ n => exact .bind hstop .ret
  | cons c run ih =>
      have hgo := htest i p _ hrow
      rw [List.cons_append, List.head?_cons, Option.any_some,
        hrun c List.mem_cons_self] at hgo
      cases n with
      | zero => cases hn
      | succ n =>
          have hrest :=
            ih (drop_succ hrow)
              (fun d hd => hrun d (List.mem_cons_of_mem c hd))
              (Nat.lt_of_succ_lt_succ hn) (p := next p c)
          rw [List.length_cons, Nat.add_comm run.length, ← Nat.add_assoc]
          exact .bind hgo (.bind (hturn i p c _ hrow) hrest)

/-- Each character of a run takes the place one column to the right. -/
theorem foldl_right (run : List Char) (p : Span) :
    run.foldl (fun p _ => p.right 1) p = p.right run.length := by
  induction run generalizing p with
  | nil => rfl
  | cons c run ih =>
      rw [List.foldl_cons, ih, Span.right_right, Nat.add_comm,
        List.length_cons]

/-- A run of a class is passed on one line. The zero character must not be
of the class, or the loop would not stop at the end. -/
theorem passWhile_runs (hzero : cls '\x00' = false) (hn : row.length < n)
    (hrow : row.drop i = run ++ rest) (hrun : ∀ c ∈ run, cls c = true)
    (hrest : Stops cls rest) :
    Runs (passWhile row cls n) (s.moved i p) ()
      (s.moved (i + run.length) (p.right run.length)) := by
  rw [← foldl_right]
  refine repeatWhile_runs (fun j q cs h => ?_)
    (fun j q c cs h => .bind (advance_runs h) .ret) hrow hrun hrest
    (length_lt hn hrow)
  have hhead : cls (cs.headD '\x00') = cs.head?.any cls := by
    cases cs with
    | nil => exact hzero
    | cons c cs => rfl
  rw [← hhead]
  exact .bind (peek_runs h) .ret

/-- Behind the first character of a run the others are passed. -/
theorem passWhile_tail (hzero : cls '\x00' = false) (hn : row.length < n)
    (hrow : row.drop i = run ++ rest) (hne : run ≠ [])
    (hrun : ∀ c ∈ run, cls c = true) (hrest : Stops cls rest) :
    Runs (passWhile row cls n) (s.moved (i + 1) (p.right 1)) ()
      (s.moved (i + run.length) (p.right run.length)) := by
  obtain ⟨c, tail, rfl⟩ := List.exists_cons_of_ne_nil hne
  have hpass :=
    passWhile_runs (s := s) (p := p.right 1) hzero hn (drop_succ hrow)
      (fun d hd => hrun d (List.mem_cons_of_mem c hd)) hrest
  rw [Span.right_right, Nat.add_assoc, Nat.add_comm 1] at hpass
  exact hpass

/-- What stands before a character is passed, turn by turn. -/
theorem passUntil_runs {turn : Step Unit} {next : Span → Char → Span}
    {stop : Char} (hturn : ∀ i p c cs, row.drop i = c :: cs →
      Runs turn (s.moved i p) () (s.moved (i + 1) (next p c)))
    (hn : row.length < n) (hrow : row.drop i = run ++ rest) (hrun : stop ∉ run)
    (hrest : Stops (· ≠ stop) rest) :
    Runs (passUntil row stop turn n) (s.moved i p) ()
      (s.moved (i + run.length) (run.foldl next p)) := by
  refine repeatWhile_runs (fun j q cs h => ?_) hturn hrow
    (fun c hc => ?_) hrest (length_lt hn hrow)
  · have hhead : (decide (cs.headD '\x00' ≠ stop) && !cs.isEmpty) =
        cs.head?.any (fun c => decide (c ≠ stop)) := by
      cases cs with
      | nil => simp
      | cons c cs => simp
    rw [← hhead]
    exact .bind (peek_runs h) (.bind (atEnd_runs h) .ret)
  · exact decide_eq_true fun heq => hrun (heq ▸ hc)

/-- A run is measured without moving the cursor. -/
theorem probeWhile_runs (hrow : row.drop i = run ++ rest)
    (hrun : ∀ c ∈ run, cls c = true) (hrest : Stops cls rest)
    (hn : run.length < n) :
    Runs (probeWhile row cls n i) s (i + run.length) s := by
  induction run generalizing i n with
  | nil =>
      cases n with
      | zero => cases hn
      | succ n =>
          rw [probeWhile]
          cases rest with
          | nil =>
              rw [if_pos (List.drop_eq_nil_iff.1 hrow)]
              exact .ret
          | cons c rest =>
              rw [if_neg (not_end hrow)]
              refine .bind (look_runs hrow) ?_
              rw [hrest c rfl]
              exact .ret
  | cons c run ih =>
      cases n with
      | zero => cases hn
      | succ n =>
          rw [probeWhile, if_neg (not_end hrow)]
          refine .bind (look_runs hrow) ?_
          rw [hrun c List.mem_cons_self, List.length_cons,
            Nat.add_comm run.length, ← Nat.add_assoc]
          exact ih (drop_succ hrow)
            (fun d hd => hrun d (List.mem_cons_of_mem c hd))
            (Nat.lt_of_succ_lt_succ hn)

end

end Scanner

end Token

end BisayaPlus
