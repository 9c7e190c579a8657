/-
A console that stops writing cuts a run short, and does nothing else.

Take a run on a console that never fails, and run the same statement on
the same console when it writes only so many lines and then fails. If
there are enough of them, nothing changes. If not, both runs do the same
up to the print statement whose line is one too many, and there the
second one stops: it has written and read what the first one had at that
place, its scopes are closed, and the fault stands at the keyword of that
statement (`Stmt.interpret_cutOff`).

Both runs are answers to one dialogue, so that they are compared by
induction on it (`Dialogue.answer_cutOff_of_le`, `answer_cutOff_of_lt`).
Which statement writes which line is told by `Dialogue.prints`.
-/
import BisayaPlus.Proofs.Dialogue
import BisayaPlus.Proofs.Scopes

namespace BisayaPlus

open Run

variable {σ : Type}

-- ======================================== consoles that stop writing

namespace Console

/-- The console that writes so many lines more; every later write fails
and leaves things as they are. -/
def cutOff (con : Console (StateM σ)) (failure : Failure) :
    Console (StateM (σ × Nat)) where
  writeLine line w :=
    match w.2 with
    | 0 => (.error failure, w)
    | n + 1 => ((con.writeLine line w.1).1, ((con.writeLine line w.1).2, n))
  readLine prompt w :=
    ((con.readLine prompt w.1).1, ((con.readLine prompt w.1).2, w.2))

variable {con : Console (StateM σ)} {w w' : σ} (failure : Failure)

theorem cutOff_writeLine_zero (line : String) (w : σ) :
    (con.cutOff failure).writeLine line (w, 0) = (.error failure, (w, 0)) :=
      rfl

theorem cutOff_writeLine_succ {line : String} {r : Except Failure Unit}
    (n : Nat) (h : con.writeLine line w = (r, w')) :
    (con.cutOff failure).writeLine line (w, n + 1) = (r, (w', n)) := by
  simp only [cutOff, h]

theorem cutOff_readLine {prompt : String} {r : Except Failure (Option String)}
    (n : Nat) (h : con.readLine prompt w = (r, w')) :
    (con.cutOff failure).readLine prompt (w, n) = (r, (w', n)) := by
  simp only [cutOff, h]

end Console

-- ==================================================== the lines written

namespace Run

/-- A line that a run writes, with the keyword of its print statement and
the console as it is right before. -/
structure Printed (σ : Type) where
  keyword : Token
  line : String
  before : σ

namespace Dialogue

/-- The lines that a dialogue writes on a console, in order. -/
def prints (con : Console (StateM σ)) : Dialogue → σ → List (Printed σ)
  | ended _, _ => []
  | write keyword line _ next, w =>
      ⟨keyword, line, w⟩ ::
        match con.writeLine line w with
        | (.ok (), w') => next.prints con w'
        | (.error _, _) => []
  | read name _ next, w =>
      match con.readLine (promptFor name) w with
      | (.ok (some line), w') => (next line).prints con w'
      | _ => []

variable {con : Console (StateM σ)} {keyword name : Token} {line : String}
  {left : Environment}
  {w w' : σ} {n : Nat}

theorem prints_write_ok {next : Dialogue}
    (h : con.writeLine line w = (.ok (), w')) :
    (write keyword line left next).prints con w
      = ⟨keyword, line, w⟩ :: next.prints con w' := by
  simp only [prints, h]

theorem prints_write_error {next : Dialogue} {failure : Console.Failure}
    (h : con.writeLine line w = (.error failure, w')) :
    (write keyword line left next).prints con w = [⟨keyword, line, w⟩] := by
  simp only [prints, h]

theorem prints_read_some {next : String → Dialogue}
    (h : con.readLine (promptFor name) w = (.ok (some line), w')) :
    (read name left next).prints con w = (next line).prints con w' := by
  simp only [prints, h]

/-- Without a line a dialogue ends, and writes nothing more. -/
theorem prints_read_end {next : String → Dialogue}
    {r : Except Console.Failure (Option String)}
    (h : con.readLine (promptFor name) w = (r, w'))
    (hr : ∀ line, r ≠ .ok (some line)) :
    (read name left next).prints con w = [] := by
  simp only [prints, h]
  split
  next heq =>
    cases heq
    exact absurd rfl (hr _)
  next => rfl

/-- What a regular dialogue writes is what it may write. -/
theorem Regular.of_mem_prints {K : Token → String → Prop} {d : Dialogue}
    (hd : Regular K d) {p : Printed σ} (hp : p ∈ d.prints con w) :
    K p.keyword p.line := by
  induction hd generalizing w with
  | ended => cases hp
  | @write keyword line left next hline _ ih =>
      rcases hw : con.writeLine line w with ⟨failure | _, w'⟩
      · rw [prints_write_error hw] at hp
        obtain rfl := List.mem_singleton.1 hp
        exact hline
      · rw [prints_write_ok hw] at hp
        rcases List.mem_cons.1 hp with rfl | hp
        · exact hline
        · exact ih hp
  | @read name left next _ _ ih =>
      rcases hw : con.readLine (promptFor name) w with
        ⟨failure | (_ | line), w'⟩
      · rw [prints_read_end hw (by simp)] at hp
        cases hp
      · rw [prints_read_end hw (by simp)] at hp
        cases hp
      · rw [prints_read_some hw] at hp
        exact ih line hp

-- ====================================================== the two runs

section

variable (con) (failure : Console.Failure)

/-- A console that can write enough lines is as good as one without
bound. -/
theorem answer_cutOff_of_le (d : Dialogue) (w : σ)
    (h : (d.prints con w).length ≤ n) :
    d.answer (con.cutOff failure) (w, n)
      = ((d.answer con w).1,
        ((d.answer con w).2, n - (d.prints con w).length)) := by
  induction d generalizing w n with
  | ended r => rfl
  | write keyword line left next ih =>
      cases n with
      | zero => simp [prints] at h
      | succ n =>
          rcases hw : con.writeLine line w with ⟨reason | _, w'⟩
          · rw [prints_write_error hw, answer_write_error hw,
              answer_write_error (Console.cutOff_writeLine_succ failure n hw)]
            rfl
          · rw [prints_write_ok hw, List.length_cons] at h ⊢
            rw [answer_write_ok hw,
              answer_write_ok (Console.cutOff_writeLine_succ failure n hw),
              ih w' (Nat.le_of_succ_le_succ h), Nat.add_sub_add_right]
  | read name left next ih =>
      rcases hw : con.readLine (promptFor name) w with
        ⟨reason | (_ | line), w'⟩
      · rw [prints_read_end hw (by simp), answer_read_error hw,
          answer_read_error (Console.cutOff_readLine failure n hw)]
        rfl
      · rw [prints_read_end hw (by simp), answer_read_none hw,
          answer_read_none (Console.cutOff_readLine failure n hw)]
        rfl
      · rw [prints_read_some hw] at h ⊢
        rw [answer_read_some hw,
          answer_read_some (Console.cutOff_readLine failure n hw)]
        exact ih line w' h

/-- A console that cannot write the line of a print statement stops the
run there. -/
theorem answer_cutOff_of_lt (d : Dialogue) (w : σ) {p : Printed σ}
    (h : (d.prints con w)[n]? = some p) :
    ∃ left, d.answer (con.cutOff failure) (w, n)
      = ((left, .failed ⟨.console failure.reason, p.keyword.span⟩),
        (p.before, 0)) := by
  induction d generalizing w n with
  | ended r => cases h
  | write keyword line left next ih =>
      cases n with
      | zero =>
          obtain rfl := Option.some.inj h
          exact ⟨left, answer_write_error
            (Console.cutOff_writeLine_zero failure line w)⟩
      | succ n =>
          rcases hw : con.writeLine line w with ⟨reason | _, w'⟩
          · rw [prints_write_error hw] at h
            cases h
          · rw [prints_write_ok hw] at h
            rw [answer_write_ok (Console.cutOff_writeLine_succ failure n hw)]
            exact ih w' h
  | read name left next ih =>
      rcases hw : con.readLine (promptFor name) w with
        ⟨reason | (_ | line), w'⟩
      · rw [prints_read_end hw (by simp)] at h
        cases h
      · rw [prints_read_end hw (by simp)] at h
        cases h
      · rw [prints_read_some hw] at h
        rw [answer_read_some (Console.cutOff_readLine failure n hw)]
        exact ih line w' h

end

-- ================================================= on scripted consoles

/-- A scripted console without bound records every line. -/
theorem scripted_write {w : Scripted} (hw : w.writesLeft = none)
    (line : String) :
    ∃ w', Scripted.console.writeLine line w = (.ok (), w')
      ∧ w'.output = w.output.push line ∧ w'.writesLeft = none := by
  have hopen : w.writesLeft ≠ some 0 := by simp [hw]
  exact ⟨_, Scripted.console_writeLine hopen line, rfl, by simp [hw]⟩

theorem scripted_read {w w' : Scripted} {prompt : String}
    {r : Except Console.Failure (Option String)}
    (h : Scripted.console.readLine prompt w = (r, w')) :
    w'.output = w.output ∧ w'.writesLeft = w.writesLeft := by
  by_cases hclosed : w.readsLeft = some 0
  · rw [Scripted.console_readLine_closed hclosed] at h
    cases h
    exact ⟨rfl, rfl⟩
  · rw [Scripted.console_readLine hclosed] at h
    cases h
    exact ⟨rfl, rfl⟩

/-- On such a console the output grows by the lines that are written. -/
theorem answer_output (d : Dialogue) {w : Scripted}
    (hw : w.writesLeft = none) :
    (d.answer Scripted.console w).2.output.toList
      = w.output.toList ++ (d.prints Scripted.console w).map Printed.line := by
  induction d generalizing w with
  | ended r => exact (List.append_nil _).symm
  | write keyword line left next ih =>
      obtain ⟨w', hline, houtput, hwrites⟩ := scripted_write hw line
      rw [answer_write_ok hline, prints_write_ok hline, ih hwrites, houtput]
      simp
  | read name left next ih =>
      rcases hread : Scripted.console.readLine (promptFor name) w with
        ⟨reason | (_ | line), w'⟩
      · rw [answer_read_error hread, prints_read_end hread (by simp)]
        simp [scripted_read hread]
      · rw [answer_read_none hread, prints_read_end hread (by simp)]
        simp [scripted_read hread]
      · obtain ⟨houtput, hwrites⟩ := scripted_read hread
        rw [answer_read_some hread, prints_read_some hread,
          ih line (hwrites.trans hw), houtput]

/-- Before a line is written, the console has recorded those before it. -/
theorem output_before (d : Dialogue) {w : Scripted} (hw : w.writesLeft = none)
    {n : Nat} {p : Printed Scripted}
    (hp : (d.prints Scripted.console w)[n]? = some p) :
    p.before.output.toList
      = w.output.toList
        ++ ((d.prints Scripted.console w).map Printed.line).take n := by
  induction d generalizing w n with
  | ended r => cases hp
  | write keyword line left next ih =>
      obtain ⟨w', hline, houtput, hwrites⟩ := scripted_write hw line
      rw [prints_write_ok hline] at hp ⊢
      cases n with
      | zero =>
          obtain rfl := Option.some.inj hp
          simp
      | succ n =>
          rw [ih hwrites hp, houtput]
          simp
  | read name left next ih =>
      rcases hread : Scripted.console.readLine (promptFor name) w with
        ⟨reason | (_ | line), w'⟩
      · rw [prints_read_end hread (by simp)] at hp
        cases hp
      · rw [prints_read_end hread (by simp)] at hp
        cases hp
      · obtain ⟨houtput, hwrites⟩ := scripted_read hread
        rw [prints_read_some hread] at hp ⊢
        rw [ih line (hwrites.trans hw) hp, houtput]

end Dialogue

end Run

-- ========================================================= the theorem

namespace Stmt

/-- Runs a statement twice from the same variables and input lines: on a
console that never fails, and on one that fails after writing `n` lines.
If the first run writes no more than that, the second one is the same. If
it does, the second one has written the first `n` of its lines and then
failed, at the keyword of the print statement that wrote the next one. It
has closed its scopes, and the console is as it was before that
statement wrote: what was asked and read up to there, and no more. -/
theorem interpret_cutOff (s : Stmt) (limit : Nat) {env : Environment}
    (henv : Environment.global < env.depth) (queue : List String) (n : Nat)
    (failure : Console.Failure) :
    let start : Scripted := { queue := queue }
    let full := s.interpret Scripted.console limit env start
    let cut := s.interpret (Scripted.console.cutOff failure) limit env
      (start, n)
    let lines := full.2.output.toList
    let prints :=
      (s.dialogue limit Environment.global env).prints Scripted.console start
    prints.map Printed.line = lines
      ∧ (lines.length ≤ n → cut.1 = full.1 ∧ cut.2.1 = full.2)
      ∧ (n < lines.length → ∃ p, prints[n]? = some p
        ∧ s.Prints p.keyword p.line
          ∧ (∃ err, cut.1.2 = .failed err ∧ err.diagnostic =
              { code := .runtime
                message := "Console failure: " ++ failure.reason
                span := p.keyword.span })
          ∧ cut.1.1.depth = env.depth
          ∧ cut.2.1 = p.before
          ∧ p.before.output.toList = lines.take n) := by
  intro start full cut lines prints
  have hfull : full
      = (s.dialogue limit Environment.global
        env).answer Scripted.console start :=
    congrFun (s.interpret_answer Scripted.console limit env) start
  have hcut : cut = (s.dialogue limit Environment.global env).answer
      (Scripted.console.cutOff failure) (start, n) :=
    congrFun (s.interpret_answer (Scripted.console.cutOff failure) limit env)
      (start, n)
  have hlines : prints.map Printed.line = lines := by
    have houtput :=
      Dialogue.answer_output (s.dialogue limit Environment.global env)
        (show start.writesLeft = none from rfl)
    rw [← hfull] at houtput
    exact houtput.symm
  have hlength : prints.length = lines.length := by
    rw [← hlines, List.length_map]
  refine ⟨hlines, fun hle => ?_, fun hlt => ?_⟩
  · rw [← hlength] at hle
    rw [hcut, Dialogue.answer_cutOff_of_le Scripted.console failure _ start
      hle, ← hfull]
    exact ⟨rfl, rfl⟩
  · rw [← hlength] at hlt
    have hp : prints[n]? = some prints[n] := List.getElem?_eq_getElem hlt
    have hprints : s.Prints prints[n].keyword prints[n].line :=
      (s.dialogue_regular limit Environment.global env).of_mem_prints
        (List.getElem_mem hlt)
    obtain ⟨left, hleft⟩ :=
      Dialogue.answer_cutOff_of_lt Scripted.console failure _ start hp
    -- What a run keeps of the scopes does not depend on how it ends.
    have hdepth : cut.1.1.depth = env.depth :=
      (s.exec_outline (Scripted.console.cutOff failure) limit
        Environment.global env (start, n) henv).differs.depth
    have hbefore :=
      Dialogue.output_before _ (show start.writesLeft = none from rfl) hp
    rw [hlines] at hbefore
    rw [← hcut] at hleft
    refine ⟨prints[n], hp, hprints, ?_, hdepth, by rw [hleft], hbefore⟩
    exact ⟨_, by rw [hleft], rfl⟩

/-- Reads a letter and prints it, and says goodbye in a block of its own. -/
def letterAndBye : Stmt :=
  let letter : Token := ⟨.identifier, "c", none, ⟨1, 12⟩⟩
  let keyword line : Token := ⟨.ipakita, "IPAKITA", none, ⟨line, 0⟩⟩
  .program
    [ .declareAll [⟨letter, none, .letra⟩], .input [letter],
      .print (keyword 3) (.var letter),
      .block [.print (keyword 4) (.literal (.text "bye")), .input [letter]] ]

/-- The console takes the letter and not the goodbye, so that the second
input statement is never reached. -/
theorem interpret_cutOff_letterAndBye :
    let start : Scripted := { queue := ["q", "r"] }
    let full :=
      letterAndBye.interpret Scripted.console 0 Environment.empty start
    let cut := letterAndBye.interpret (Scripted.console.cutOff ⟨"disk full"⟩) 0
      Environment.empty (start, 1)
    Environment.global < Environment.empty.depth
      ∧ full.2.output.toList = ["q", "bye"] ∧ full.2.queue = []
      ∧ (∃ err, cut.1.2 = .failed err ∧ err.diagnostic.message
        = "Console failure: disk full"
          ∧ err.diagnostic.span = ⟨4, 0⟩)
      ∧ cut.1.1.depth = 1 ∧ cut.2.1.output.toList = ["q"]
        ∧ cut.2.1.queue = ["r"] := by
  intro start full cut
  have henv : Environment.global < Environment.empty.depth := Nat.zero_lt_one
  have hlines : full.2.output.toList = ["q", "bye"] := by decide +kernel
  obtain ⟨-, -, hcut⟩ :=
    interpret_cutOff letterAndBye 0 henv ["q", "r"] 1 ⟨"disk full"⟩
  obtain ⟨p, hp, -, ⟨err, herr, hshown⟩, hdepth, hbefore, houtput⟩ :=
    hcut (hlines ▸ by decide)
  have hspan : p.keyword.span = ⟨4, 0⟩ ∧ p.before.queue = ["r"] := by
    obtain rfl := Option.some.inj hp
    decide +kernel
  refine ⟨henv, hlines, by decide +kernel, ⟨err, herr, ?_, ?_⟩, hdepth, ?_, ?_⟩
  · rw [hshown]
    rfl
  · rw [hshown]
    exact hspan.1
  · change p.before.output.toList = full.2.output.toList.take 1 at houtput
    rw [hlines] at houtput
    exact (congrArg (·.output.toList) hbefore).trans houtput
  · exact (congrArg Scripted.queue hbefore).trans hspan.2

end Stmt

end BisayaPlus
