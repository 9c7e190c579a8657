/-
The command does on its streams what a scripted run does.

A scripted console hands out its lines as they are and is at its end when
none is left. The console of the command cuts its lines out of a stream
of bytes, hands them out with their line feeds and is at its end when no
byte is left. If the bytes are those of the scripted lines, a program
cannot tell the two apart: a line feed behind a line makes no difference
to it (`Dialogue.Regular`). So the command writes what the scripted run
records, shows the errors that it ends with, and has the exit code that
goes with them (`Command.transcript_scripted`).

The command takes its reader of arguments and its log from elsewhere. Of
the reader it is assumed that it knows the flag against prompts
(`TakesNoPrompt`), of the log that it is quiet: events that are less severe
than a warning would stand between the errors. The executable meets both
(`readArgs_takesNoPrompt`, `standard_quiet`).

The lines first have to come out of the stream as they went in. The byte
of the line feed is no part of the code of any other character
(`ten_notMem_encodeChar`), and the bytes of a text are read as that text
(`Streams.decode_bytes`).
-/
import BisayaPlus.Command.Execute
import BisayaPlus.Proofs.Dialogue

namespace BisayaPlus

open Run

-- ================================================== lines as bytes

namespace Text

/-- The bytes of a text in UTF-8. -/
def bytes (s : String) : List UInt8 := s.toUTF8.data.toList

/-- The bytes of lines, each with its line feed. -/
def lineBytes (lines : List String) : List UInt8 :=
  lines.flatMap fun line => bytes (line ++ "\n")

theorem bytes_eq (s : String) :
    bytes s = s.toList.flatMap String.utf8EncodeChar := by
  unfold bytes
  rw [String.toUTF8_eq_toByteArray, ← String.utf8Encode_toList]
  exact List.toList_data_toByteArray

theorem ten_eq_ofNat {n : Nat} : 10 = UInt8.ofNat n ↔ n % 256 = 10 := by
  rw [← UInt8.toNat_inj, UInt8.toNat_ofNat']
  exact eq_comm

/-- The byte of a line feed stands for nothing else. -/
theorem ten_notMem_encodeChar {c : Char} (hc : c ≠ '\n') :
    10 ∉ String.utf8EncodeChar c := by
  have hv : c.val.toNat ≠ 10 := fun h => hc (Char.toNat_inj.1 h)
  unfold String.utf8EncodeChar
  dsimp only
  generalize c.val.toNat = v at hv
  -- One to four bytes: a byte alone is the character itself, and each of
  -- several is at least 128.
  repeat' split
  all_goals
    simp only [List.mem_cons, List.not_mem_nil, or_false, not_or, ten_eq_ofNat]
    omega

theorem ten_notMem_bytes {s : String} (hs : '\n' ∉ s.toList) :
    10 ∉ bytes s := by
  rw [bytes_eq, List.mem_flatMap]
  rintro ⟨c, hc, hten⟩
  exact ten_notMem_encodeChar (fun heq => hs (heq ▸ hc)) hten

theorem bytes_feed (s : String) : bytes (s ++ "\n") = bytes s ++ [10] := by
  rw [bytes_eq, bytes_eq, String.toList_append, List.flatMap_append]
  rfl

end Text

namespace Streams

theorem decode_bytes (s : String) : decode (Text.bytes s) = .ok s := by
  have hbytes : ByteArray.mk (Text.bytes s).toArray = s.toByteArray := by
    unfold Text.bytes
    rw [Array.toArray_toList]
    rfl
  unfold decode String.fromUTF8?
  rw [hbytes, dif_pos s.isValidUTF8]
  rfl

theorem splitLine_append {line : List UInt8} (h : 10 ∉ line)
    (rest : List UInt8) :
    splitLine (line ++ 10 :: rest) = (line ++ [10], rest) := by
  induction line with
  | nil => rfl
  | cons b line ih =>
      have hb : b ≠ 10 := fun heq => h (heq ▸ List.mem_cons_self)
      have hline : 10 ∉ line := fun hmem => h (List.mem_cons_of_mem b hmem)
      rw [List.cons_append, splitLine, if_neg hb, ih hline]
      rfl

/-- The first of some lines is taken off the stream as it is, with its
line feed. -/
theorem takeLine_lineBytes {line : String} (lines : List String)
    (h : '\n' ∉ line.toList) (output : String) :
    takeLine ⟨Text.lineBytes (line :: lines), output⟩
      = (.ok (some (line ++ "\n")), ⟨Text.lineBytes lines, output⟩) := by
  have hbytes : Text.lineBytes (line :: lines)
      = Text.bytes line ++ 10 :: Text.lineBytes lines := by
    unfold Text.lineBytes
    rw [List.flatMap_cons, Text.bytes_feed, List.append_assoc]
    rfl
  unfold takeLine
  rw [hbytes, if_neg (by simp), splitLine_append (Text.ten_notMem_bytes h),
    ← Text.bytes_feed]
  dsimp only
  rw [decode_bytes]
  rfl

end Streams

-- ======================================================= the same answers

namespace Scripted

/-- The script limits neither writes nor reads, and none of its lines
holds a line feed. -/
structure Plain (w : Scripted) : Prop where
  writes : w.writesLeft = none
  reads : w.readsLeft = none
  lines : ∀ line ∈ w.queue, '\n' ∉ line.toList

theorem text_writeLine (w : Scripted) (line : String) (left : Option Nat) :
    text { w with output := w.output.push line, writesLeft := left }
      = w.text ++ (line ++ "\n") := by
  unfold text
  rw [Array.foldl_push, String.append_assoc]

end Scripted

namespace Command.Transcript

/-- The streams of a command that has done what the script records: the
lines still to be read are its input. -/
def ofScript (w : Scripted) : Transcript :=
  ⟨⟨Text.lineBytes w.queue, w.text⟩, ""⟩

theorem writeLine_ofScript {w : Scripted} (h : w.Plain) (line : String) :
    ∃ w', w'.Plain ∧ Scripted.console.writeLine line w = (.ok (), w')
      ∧ (console false).writeLine line (ofScript w)
        = (.ok (), ofScript w') := by
  have hwrites : w.writesLeft ≠ some 0 := by simp [h.writes]
  refine ⟨_, ?_, Scripted.console_writeLine hwrites line, ?_⟩
  · exact ⟨by rw [h.writes]; rfl, h.reads, h.lines⟩
  · unfold ofScript
    rw [Scripted.text_writeLine]
    rfl

/-- Where the script is at its end so is the stream, and otherwise the two
lines differ by the line feed. -/
theorem readLine_ofScript {w : Scripted} (h : w.Plain) (prompt : String) :
    ∃ w', w'.Plain ∧ Scripted.console.readLine prompt w
      = (.ok w.queue.head?, w')
      ∧ (console false).readLine prompt (ofScript w)
        = (.ok (w.queue.head?.map (· ++ "\n")), ofScript w') := by
  have hreads : w.readsLeft ≠ some 0 := by simp [h.reads]
  refine ⟨_, ?_, Scripted.console_readLine hreads prompt, ?_⟩
  · refine ⟨h.writes, by rw [h.reads]; rfl, fun line hline => ?_⟩
    exact h.lines line (List.mem_of_mem_tail hline)
  · have htake : (console false).readLine prompt (ofScript w)
        = ((Streams.takeLine (ofScript w).streams).1,
          { ofScript w with
            streams := (Streams.takeLine (ofScript w).streams).2 }) := rfl
    rw [htake]
    unfold ofScript
    cases hqueue : w.queue with
    | nil => rfl
    | cons line lines =>
        have hline : '\n' ∉ line.toList :=
          h.lines line (hqueue ▸ List.mem_cons_self)
        rw [Streams.takeLine_lineBytes lines hline]
        rfl

end Command.Transcript

open Command

/-- A dialogue that does not mind line feeds goes the same way on the
streams as it does on the script. -/
theorem Run.Dialogue.Regular.answer_ofScript {prints : Token → String → Prop}
    {d : Dialogue} (hd : d.Regular prints) {w : Scripted} (hw : w.Plain) :
    d.answer (Transcript.console false) (Transcript.ofScript w)
      = ((d.answer Scripted.console w).1,
        Transcript.ofScript (d.answer Scripted.console w).2) := by
  induction hd generalizing w with
  | ended h => rfl
  | write h _ ih =>
      obtain ⟨w', hw', hscript, hstreams⟩ := Transcript.writeLine_ofScript hw _
      rw [answer_write_ok hstreams, answer_write_ok hscript]
      exact ih hw'
  | @read name left next h _ ih =>
      obtain ⟨w', hw', hscript, hstreams⟩ :=
        Transcript.readLine_ofScript hw (promptFor name)
      cases hqueue : w.queue.head? with
      | none =>
          rw [hqueue] at hscript hstreams
          rw [answer_read_none hstreams, answer_read_none hscript]
      | some line =>
          rw [hqueue] at hscript hstreams
          rw [answer_read_some hstreams, answer_read_some hscript, h line]
          exact ih line hw'

-- ========================================================= source texts

namespace Run

variable {text : String} {result : Except RunError Unit}

/-- A run of a text that is over is the same with more turns. -/
theorem source_stable {σ : Type} {con : Console (StateM σ)} {limit turns : Nat}
    {w w' : σ} (h : source con limit text w = (.over result, w'))
    (hturns : limit ≤ turns) :
    source con turns text w = (.over result, w') := by
  obtain ⟨more, rfl⟩ := Nat.exists_eq_add_of_le hturns
  cases hp : Stmt.ofSource text with
  | error e =>
      rw [source_apply_error con _ hp] at h ⊢
      exact h
  | ok p =>
      rw [source_apply con limit hp] at h
      have hended : Ended (p.interpret con limit Environment.empty w) := by
        intro hout
        rw [hout] at h
        cases h
      rw [source_apply con _ hp, ← h]
      have hstable : p.interpret con (limit + more) Environment.empty w
          = p.interpret con limit Environment.empty w :=
        p.exec_stable con limit more Environment.global
          Environment.empty w hended
      rw [hstable]

theorem source_ofScript (limit : Nat) (text : String) {w : Scripted}
    (hw : w.Plain) :
    source (Transcript.console false) limit text (Transcript.ofScript w)
      = ((source Scripted.console limit text w).1,
        Transcript.ofScript (source Scripted.console limit text w).2) := by
  cases hp : Stmt.ofSource text with
  | error e =>
      rw [source_apply_error _ limit hp, source_apply_error _ limit hp]
  | ok p =>
      have hregular :=
        p.dialogue_regular limit Environment.global Environment.empty
      rw [source_apply _ limit hp, source_apply _ limit hp, p.interpret_answer,
        p.interpret_answer, hregular.answer_ofScript hw]

end Run

-- ========================================================= the command

namespace Command

theorem complainAll_host (s : Setting) (file source : String)
    (ds : List Diagnostic) (p : Transcript) :
    complainAll (Transcript.host s) file source ds p
      = ((), { p with
          errors := p.errors
            ++ String.join (ds.map (·.render file source)) }) := by
  induction ds generalizing p with
  | nil =>
      rw [List.map_nil, String.join_nil, String.append_empty]
      rfl
  | cons d ds ih =>
      rw [List.map_cons, String.join_cons, ← String.append_assoc]
      exact ih _

/-- The errors of a result as they are shown, in order. -/
def shownErrors (file source : String) : Except RunError Unit → String
  | .ok () => ""
  | .error e => String.join (e.diagnostics.map (·.render file source))

/-- The exit code for a result. -/
def exitFor : Except RunError Unit → Nat
  | .ok () => 0
  | .error (.source _) => 65
  | .error (.runtime _) => 70

/-- The errors are all that a failed run adds to the streams. -/
theorem fail_host (s : Setting) (file source : String) (e : RunError)
    (p : Transcript) :
    (fail (Transcript.host s) file source e p).1.code = exitFor (.error e)
      ∧ (fail (Transcript.host s) file source e p).2
        = { p with
            errors := p.errors ++ shownErrors file source (.error e) } := by
  unfold fail
  simp only [bind, StateT.bind, complainAll_host]
  cases e with
  | source e => exact ⟨rfl, rfl⟩
  | runtime e => exact ⟨rfl, rfl⟩

/-- What the command adds to a run of a text that is over: the errors on
its second stream and the exit code. -/
theorem perform_host {limit : Nat} {source : String}
    {result : Except RunError Unit} {p p' : Transcript}
    (h : Run.source (Transcript.console false) limit source p
      = (.over result, p'))
    (s : Setting) (file : String) :
    let run := perform (Transcript.host s) limit file source false .run p
    run.1.code = exitFor result
      ∧ run.2 = { p' with
          errors := p'.errors ++ shownErrors file source result } := by
  have hcon : (Transcript.host s).console false = Transcript.console false :=
    rfl
  simp only [perform, bind, StateT.bind, hcon, h]
  cases result with
  | error e => exact fail_host s file source e p'
  | ok u => exact ⟨rfl, by rw [shownErrors, String.append_empty]; rfl⟩

section Logs

variable {m : Type → Type} [Monad m]

/-- A quiet filter keeps everything from the log that is less severe than
a warning. -/
theorem Host.report_quiet (host : Host m) {shown : LogFilter}
    (hquiet : shown.Quiet) {event : LogEvent}
    (hlevel : event.level ∉ [.error, .warn]) :
    host.report shown event = pure () := by
  unfold Host.report
  rw [hquiet event hlevel]
  rfl

/-- If the log is quiet, the command does what it is asked to do and
nothing else. -/
theorem execute_quiet [LawfulMonad m] {host : Host m} {o : Options}
    (hquiet : (host.filter o.verbose).Quiet) (limit : Nat) (source : String) :
    execute host limit source o
      = perform host limit o.file source (!o.noPrompt) o.emit := by
  have hstart : host.report (host.filter o.verbose) (.starting o) = pure () :=
    host.report_quiet hquiet (by simp [LogEvent.starting])
  have hend : host.report (host.filter o.verbose) .finished = pure () :=
    host.report_quiet hquiet (by simp [LogEvent.finished])
  unfold execute
  simp only [hstart, hend, pure_bind, ite_self, bind_pure]

end Logs

/-- A file that can be read is executed as the options say. -/
theorem transcriptWithin_options {s : Setting} {args : List String}
    {o : Options} {source : String} (hargs : s.readArgs args = .options o)
    (hfile : s.files o.file = .ok (Text.bytes source)) (turns : Nat)
    (input : List UInt8) :
    transcriptWithin s turns args input
      = execute (Transcript.host s) turns source o ⟨⟨input, ""⟩, ""⟩ := by
  have hread (p : Transcript) :
      (Transcript.host s).readFile o.file p = (.ok source, p) := by
    simp only [Transcript.host, hfile, Streams.decode_bytes]
    rfl
  have hargs' : (Transcript.host s).readArgs args = .options o := hargs
  unfold transcriptWithin runWithin
  rw [hargs']
  simp only [StateT.run, bind, StateT.bind, hread]

/-- The reader takes the flag `--no-prompt` and the name of a file, in
either order, for a run of the file without prompts and details. A name
must not be empty or have the form of an option. -/
def TakesNoPrompt (read : List String → Reading) : Prop :=
  ∀ file args, file ≠ "" → isOption file = false →
    args = ["--no-prompt", file] ∨ args = [file, "--no-prompt"] →
      read args = .options { file, noPrompt := true }

/-- Executing a file without prompts, on an input of the bytes of some
lines, does what a run on a script of these lines does: if that comes to
its end, the command with as many turns or more writes what the script
records, ends with the same result, shows its errors and has its exit
code. The arguments must be read as usual, and the log must be quiet. -/
theorem transcript_scripted (s : Setting) (hreader : TakesNoPrompt s.readArgs)
    (hquiet : ((Transcript.host s).filter false).Quiet)
    {source file : String} {lines args : List String} {limit turns : Nat}
    {result : Except RunError Unit} {w : Scripted}
    (hlines : ∀ line ∈ lines, '\n' ∉ line.toList)
    (hrun : Run.source Scripted.console limit source { queue := lines }
      = (.over result, w))
    (hturns : limit ≤ turns)
    (hname : file ≠ "") (hoption : isOption file = false)
    (hfile : s.files file = .ok (Text.bytes source))
    (hargs : args = ["--no-prompt", file] ∨ args = [file, "--no-prompt"]) :
    let input := Text.lineBytes lines
    let run := transcriptWithin s turns args input
    run.2.streams.output = w.text
      ∧ run.1.code = exitFor result
      ∧ run.2.errors = shownErrors file source result
      ∧ (Run.source (Transcript.console false) turns source
          ⟨⟨input, ""⟩, ""⟩).1
        = .over result := by
  intro input run
  have hread : s.readArgs args = .options { file, noPrompt := true } :=
    hreader file args hname hoption hargs
  have hsource : Run.source (Transcript.console false) turns source
      ⟨⟨input, ""⟩, ""⟩ = (.over result, Transcript.ofScript w) := by
    have hplain : Scripted.Plain { queue := lines } := ⟨rfl, rfl, hlines⟩
    have hsame := source_ofScript turns source hplain
    rw [source_stable hrun hturns] at hsame
    exact hsame
  have hperform : run
      = perform (Transcript.host s) turns file source false .run
        ⟨⟨input, ""⟩, ""⟩ := by
    show transcriptWithin s turns args input = _
    rw [transcriptWithin_options hread hfile, execute_quiet hquiet]
    rfl
  obtain ⟨hexit, hafter⟩ := perform_host hsource s file
  rw [← hperform] at hexit hafter
  refine ⟨?_, hexit, ?_, by rw [hsource]⟩
  · exact congrArg (·.streams.output) hafter
  · exact (congrArg (·.errors) hafter).trans (String.empty_append)

-- ====================================================== the executable

/-- A name that is no option has nothing behind a dash. -/
theorem toList_ne_of_isOption {file : String} (h : isOption file = false)
    (c : Char) (cs : List Char) : file.toList ≠ '-' :: c :: cs := by
  intro heq
  have hstart : file.startsWith "-" = true :=
    String.startsWith_string_iff.2 ⟨c :: cs, heq.symm⟩
  have hne : file ≠ "-" := by
    rintro rfl
    cases heq
  simp [isOption, hstart, hne] at h

/-- The first name that is neither empty nor an option is the file. -/
theorem readMore_file {file : String} (hname : file ≠ "")
    (hoption : isOption file = false) {d : Draft} (hd : d.file = none)
    (args : List String) :
    readMore d (file :: args)
      = readMore { d with file := some file } args := by
  have hdash := toList_ne_of_isOption hoption
  have hset : d.setFile file = some { d with file := some file } := by
    simp [Draft.setFile, hd, hname]
  have hlong {arg : String} {c : Char} {cs : List Char}
      (harg : arg.toList = '-' :: c :: cs) : file ≠ arg :=
    fun heq => hdash c cs (heq ▸ harg)
  rw [readMore]
  · split
    case h_4 => rw [hset]
    all_goals exact absurd (by assumption) (hdash _ _)
  -- It is none of the long options.
  · exact hlong rfl
  · exact hlong rfl
  · exact hlong rfl
  · exact hlong rfl
  · exact fun heq _ => hlong rfl heq
  · exact fun _ _ heq _ => hlong rfl heq

/-- The executable's own reader knows the flag against prompts. -/
theorem readArgs_takesNoPrompt : TakesNoPrompt readArgs := by
  rintro file args hname hoption (rfl | rfl)
  · exact readMore_file hname hoption rfl []
  · exact readMore_file hname hoption rfl ["--no-prompt"]

/-- The executable logs no details unless it is told to. -/
theorem standard_quiet (files : String → Except String (List UInt8)) :
    ((Transcript.host (.standard files)).filter false).Quiet := by
  have hname : Level.ofName? "warn" = some .warn := by decide
  have hfilter : (Transcript.host (.standard files)).filter false
      = Level.warn.filter := by
    show levelFilter "warn" = _
    unfold levelFilter
    rw [hname]
  rw [hfilter]
  rintro ⟨level, message, fields⟩ hlevel
  cases level with
  | error => exact absurd List.mem_cons_self hlevel
  | warn => exact absurd (List.mem_cons_of_mem _ List.mem_cons_self) hlevel
  | info => rfl
  | debug => rfl
  | trace => rfl

/-- Reads a letter and prints it, and reads another one. -/
def twoLetters : String :=
  "SUGOD\nMUGNA LETRA a, b\nDAWAT: a\nIPAKITA: a\nDAWAT: b\nKATAPUSAN"

/-- The program of the text. -/
def twoLettersTree : Stmt :=
  let letter name span : Token := ⟨.identifier, name, none, span⟩
  .program
    [ .declareAll
        [ ⟨letter "a" ⟨2, 12⟩, none, .letra⟩,
          ⟨letter "b" ⟨2, 15⟩, none, .letra⟩ ],
      .input [letter "a" ⟨3, 7⟩],
      .print ⟨.ipakita, "IPAKITA", none, ⟨4, 0⟩⟩ (.var (letter "a" ⟨4, 9⟩)),
      .input [letter "b" ⟨5, 7⟩] ]

/-- The only line holds a letter of two bytes, and the second letter is
missing. -/
theorem transcript_scripted_oneLetter :
    let script := Run.source Scripted.console 0 twoLetters { queue := ["ñ"] }
    let setting := Setting.standard fun _ => .ok (Text.bytes twoLetters)
    let run := transcriptWithin setting 3 ["letters.bpp", "--no-prompt"]
      (Text.lineBytes ["ñ"])
    TakesNoPrompt setting.readArgs
      ∧ ((Transcript.host setting).filter false).Quiet
      ∧ script.1 = .over (.error (.runtime ⟨.noInput "b", ⟨5, 7⟩⟩))
      ∧ '\n' ∉ "ñ".toList ∧ isOption "letters.bpp" = false
      ∧ run.2.streams.output = "ñ\n" ∧ run.1.code = 70
      ∧ run.2.errors
        = "error[E_INPUT]: No input left for 'b'.\n"
          ++ "  --> letters.bpp:5:8\n   |\n"
          ++ "  5 | DAWAT: b\n   |        ^\n" := by
  intro script setting run
  have htree : Stmt.ofSource twoLetters = .ok twoLettersTree := by
    with_unfolding_all rfl
  have hscript : script = _ := source_apply Scripted.console 0 htree _
  have hending : (twoLettersTree.interpret Scripted.console 0 Environment.empty
      { queue := ["ñ"] }).1.2 = .failed ⟨.noInput "b", ⟨5, 7⟩⟩ := by
    decide +kernel
  have hresult : script.1
      = .over (.error (.runtime ⟨.noInput "b", ⟨5, 7⟩⟩)) := by
    rw [hscript]
    exact congrArg Ending.outcome hending
  have htext : script.2.text = "ñ\n" := by
    rw [hscript]
    decide +kernel
  have hlines : ∀ line ∈ ["ñ"], '\n' ∉ line.toList := by decide
  have hoption : isOption "letters.bpp" = false := by decide +kernel
  have hquiet : ((Transcript.host setting).filter false).Quiet :=
    standard_quiet _
  obtain ⟨houtput, hexit, herrors, -⟩ := transcript_scripted setting
    readArgs_takesNoPrompt hquiet hlines (Prod.ext hresult rfl)
    (Nat.zero_le 3) (by decide) hoption rfl (.inr rfl)
  refine ⟨readArgs_takesNoPrompt, hquiet, hresult,
    hlines _ List.mem_cons_self, hoption, houtput.trans htext, hexit,
    herrors.trans ?_⟩
  decide +kernel

end Command

end BisayaPlus
