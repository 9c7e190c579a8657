/-
What a run does with the lines of a script.

A scripted console keeps the lines still to be read, the lines written
and the prompts shown. A run takes lines off the front of the first and
adds to the two others, and every prompt it shows is for a line that it
takes, except for a last one if the lines are used up. What it does
depends on no line that it does not take: on another script that starts
with the same lines it does the same, and leaves the others
(`Stmt.interpret_accounts`).

`Accounts` is the account of one run, with one lemma for each thing that
can happen to a scripted console; the account of a whole run is put
together along its dialogue.
-/
import BisayaPlus.Proofs.Dialogue

namespace BisayaPlus

open Run

namespace Run

/-- The account of a run from a scripted console `start`: the lines it
takes, the lines it writes and the prompts it shows. -/
structure Accounts (run : Scripted → Result × Scripted) (start : Scripted)
    (taken written shown : List String) : Prop where
  /-- Lines are taken from the front. -/
  queue : start.queue = taken ++ (run start).2.queue
  output : (run start).2.output.toList = start.output.toList ++ written
  prompts : (run start).2.prompts.toList = start.prompts.toList ++ shown
  /-- There is a prompt for each line, and one more if a line was missing. -/
  count : shown.length
    = taken.length + if (run start).1.2.starved then 1 else 0
  exhausted : (run start).1.2.starved = true → (run start).2.queue = []
  /-- If no line was missing, the lines that were not taken do not matter. -/
  others : (run start).1.2.starved = false → ∀ rest,
    run { start with queue := taken ++ rest }
      = ((run start).1, { (run start).2 with queue := rest })

namespace Accounts

variable {run next : Scripted → Result × Scripted} {start : Scripted}
  {line prompt : String}
  {taken written shown : List String} {left : Option Nat}

/-- A run that does not touch the console. -/
theorem stop (r : Result) (hr : r.2.starved = false)
    (hrun : ∀ queue,
      run { start with queue := queue } = (r, { start with queue := queue })) :
    Accounts run start [] [] [] := by
  have hstart : run start = (r, start) := hrun start.queue
  refine ⟨?_, ?_, ?_, ?_, ?_, fun _ rest => ?_⟩
  · rw [hstart]
    rfl
  · rw [hstart, List.append_nil]
  · rw [hstart, List.append_nil]
  · rw [hstart, hr]
    rfl
  · rw [hstart, hr]
    exact fun h => by cases h
  · rw [hstart]
    exact hrun rest

/-- A run that writes a line first. -/
theorem wrote
    (hrun : ∀ queue, run { start with queue := queue }
      = next { start with
          queue := queue, output := start.output.push line,
          writesLeft := left })
    (h : Accounts next
      { start with output := start.output.push line, writesLeft := left }
      taken written shown) :
    Accounts run start taken (line :: written) shown := by
  have hstart := hrun start.queue
  change run start = _ at hstart
  obtain ⟨hqueue, houtput, hprompts, hcount, hexhausted, hothers⟩ := h
  rw [← hstart] at hqueue houtput hprompts hcount hexhausted hothers
  refine ⟨hqueue, ?_, hprompts, hcount, hexhausted, fun hfed rest => ?_⟩
  · rw [houtput]
    simp
  · rw [hrun]
    exact hothers hfed rest

/-- A run that reads a line first. -/
theorem took {queue : List String} (hqueue : start.queue = line :: queue)
    (hrun : ∀ queue, run { start with queue := line :: queue }
      = next { start with
          queue := queue, prompts := start.prompts.push prompt,
          readsLeft := left })
    (h : Accounts next
      { start with
        queue := queue, prompts := start.prompts.push prompt,
        readsLeft := left }
      taken written shown) :
    Accounts run start (line :: taken) written (prompt :: shown) := by
  have hstart := hrun queue
  rw [← hqueue] at hstart
  change run start = _ at hstart
  obtain ⟨hrest, houtput, hprompts, hcount, hexhausted, hothers⟩ := h
  rw [← hstart] at hrest houtput hprompts hcount hexhausted hothers
  refine ⟨?_, houtput, ?_, ?_, hexhausted, fun hfed rest => ?_⟩
  · rw [hqueue, List.cons_append, ← hrest]
  · rw [hprompts]
    simp
  · rw [List.length_cons, List.length_cons, hcount]
    omega
  · rw [List.cons_append, hrun]
    exact hothers hfed rest

/-- A run that is left without a line. -/
theorem missed (r : Result) (hr : r.2.starved = true)
    (hqueue : start.queue = [])
    (hrun : run start
      = (r, { start with
          queue := [], prompts := start.prompts.push prompt,
          readsLeft := left })) :
    Accounts run start [] [] [prompt] := by
  refine ⟨?_, ?_, ?_, ?_, fun _ => ?_, fun hfed => ?_⟩
  · rw [hrun, hqueue]
    rfl
  · rw [hrun, List.append_nil]
  · rw [hrun, Array.toList_push]
  · rw [hrun, hr]
    rfl
  · rw [hrun]
  · rw [hrun, hr] at hfed
    cases hfed

end Accounts

/-- The account of a dialogue. -/
theorem Dialogue.Regular.accounts {K : Token → String → Prop} {d : Dialogue}
    (hd : Regular K d) (start : Scripted) :
    ∃ taken written shown, Accounts (d.answer Scripted.console) start taken
      written shown := by
  induction hd generalizing start with
  | @ended r h => exact ⟨[], [], [], .stop r h fun _ => rfl⟩
  | @write keyword line left next _ _ ih =>
      by_cases hclosed : start.writesLeft = some 0
      · have hline (queue : List String) :=
          Scripted.console_writeLine_closed
            (s := { start with queue := queue }) hclosed line
        refine ⟨[], [], [],
          .stop (left, .failed ⟨.console "output closed", keyword.span⟩) rfl
            ?_⟩
        exact fun queue => answer_write_error (hline queue)
      · have hline (queue : List String) :=
          Scripted.console_writeLine (s := { start with queue := queue })
            hclosed line
        obtain ⟨taken, written, shown, h⟩ := ih { start with
          output := start.output.push line
          writesLeft := start.writesLeft.map (· - 1) }
        exact ⟨taken, line :: written, shown,
          h.wrote fun queue => answer_write_ok (hline queue)⟩
  | @read name left next _ _ ih =>
      by_cases hclosed : start.readsLeft = some 0
      · have hline (queue : List String) := Scripted.console_readLine_closed
          (s := { start with queue := queue }) hclosed (promptFor name)
        refine ⟨[], [], [],
          .stop (left, .failed ⟨.console "input closed", name.span⟩) rfl ?_⟩
        exact fun queue => answer_read_error (hline queue)
      · have hline (queue : List String) := Scripted.console_readLine
          (s := { start with queue := queue }) hclosed (promptFor name)
        cases hqueue : start.queue with
        | nil =>
            have hnone : Scripted.console.readLine (promptFor name) start
                = (.ok none, { start with
                    queue := []
                    prompts := start.prompts.push (promptFor name)
                    readsLeft := start.readsLeft.map (· - 1) }) := by
              rw [Scripted.console_readLine hclosed, hqueue]
              rfl
            exact ⟨[], [], [promptFor name], .missed
              (left, .failed ⟨.noInput name.lexeme, name.span⟩) rfl hqueue
              (answer_read_none hnone)⟩
        | cons line queue =>
            obtain ⟨taken, written, shown, h⟩ := ih line { start with
              queue := queue
              prompts := start.prompts.push (promptFor name)
              readsLeft := start.readsLeft.map (· - 1) }
            refine ⟨line :: taken, written, promptFor name :: shown,
              h.took hqueue fun rest => ?_⟩
            exact answer_read_some (hline (line :: rest))

end Run

-- ========================================================= the theorem

/-- Every run on a scripted console has an account, however it ends: it
takes lines from the front, adds to the output and to the prompts, and
shows one prompt for each line it takes and one more exactly if it fails
for want of a line, when all lines are used up. A run that does not fail
that way does the same on every script that starts with the lines it
takes, and leaves the rest of that script. -/
theorem Stmt.interpret_accounts (s : Stmt) (limit : Nat) (env : Environment)
    (start : Scripted) :
    ∃ taken written shown,
      Accounts (s.interpret Scripted.console limit env) start taken written
        shown := by
  have hrun : s.interpret Scripted.console limit env
      = (s.dialogue limit Environment.global env).answer Scripted.console :=
    s.interpret_answer Scripted.console limit env
  rw [hrun]
  exact (s.dialogue_regular limit Environment.global env).accounts start

end BisayaPlus
