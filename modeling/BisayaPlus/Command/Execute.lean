/-
The command: read a file, and run it or show its tokens or tree.

The command works on a `Host`, which gives it files, a console, two text
outputs and what it takes from libraries: a reader of its arguments and a
log. `Main.lean` has the host of a real process; the one here is plain
data, so that a whole run of the command is a value.

Only the command's own log events are modelled. Scanning, parsing and
running a program log as well, never above the level `debug`.
-/
import BisayaPlus.Command.Standard
import BisayaPlus.Diagnostic.Render
import BisayaPlus.Run.Source
import BisayaPlus.Tree.Dump

namespace BisayaPlus.Command

/-- What the command needs of its surroundings. -/
structure Host (m : Type → Type) where
  /-- What the arguments mean. -/
  readArgs : List String → Reading
  /-- The text of a file, or why it cannot be read. -/
  readFile : String → m (Except String String)
  /-- Writes to the standard output. -/
  put : String → m Unit
  /-- Writes to the standard error output. -/
  complain : String → m Unit
  /-- The console of a running program, with or without prompts. -/
  console : Bool → Console m
  /-- The filter that the variable `BISAYA_LOG` of the environment asks
  for, if it is set and makes sense. -/
  requestedFilter : Option LogFilter
  /-- The filter that is asked for by the name of a level. -/
  levelFilter : String → LogFilter
  /-- Writes an event to the log, on the standard error output. -/
  log : LogEvent → m Unit

/-- The turns granted to a loop: more than any run can take. -/
def turnLimit : Nat := Nat.pow 10 18

variable {m : Type → Type} [Monad m]

/-- The events that are shown. What the environment asks for comes first;
without it, warnings are shown, and details if they are wanted. -/
def Host.filter (host : Host m) (verbose : Bool) : LogFilter :=
  host.requestedFilter.getD
    (host.levelFilter (if verbose then "debug" else "warn"))

/-- Logs an event if it is shown. -/
def Host.report (host : Host m) (shown : LogFilter) (event : LogEvent) :
    m Unit :=
  if shown event then host.log event else pure ()

/-- Shows diagnostics in order. -/
def complainAll (host : Host m) (file source : String) :
    List Diagnostic → m Unit
  | [] => pure ()
  | d :: ds => do
      host.complain (d.render file source)
      complainAll host file source ds

/-- Shows the errors of a run; the exit code tells whether the program was
run at all. -/
def fail (host : Host m) (file source : String) (e : RunError) : m Exit := do
  complainAll host file source e.diagnostics
  match e with
  | .source _ => pure .dataError
  | .runtime _ => pure .software

/-- Does what was asked with the text of a file, with so many turns for
each loop. -/
def perform (host : Host m) (limit : Nat) (file source : String)
    (prompting : Bool) : Emit → m Exit
  | .tokens =>
      match Token.scan source with
      | .error es => fail host file source (.source (.lexical es))
      | .ok tokens => do
          host.put ((Json.array (tokens.map Token.toJson)).pretty 0 ++ "\n")
          pure .success
  | .ast =>
      match Stmt.ofSource source with
      | .error e => fail host file source (.source e)
      | .ok program => do
          host.put (program.toJson.pretty 0 ++ "\n")
          pure .success
  | .run => do
      match ← Run.source (host.console prompting) limit source with
      | .outOfTurns => pure .outOfTurns
      | .over (.ok ()) => pure .success
      | .over (.error e) => fail host file source e

/-- Does with the text of the file what the options ask for, with so many
turns for each loop. The log has the start, and the end if all went well. -/
def execute (host : Host m) (limit : Nat) (source : String) (o : Options) :
    m Exit := do
  let shown := host.filter o.verbose
  host.report shown (.starting o)
  let exit ← perform host limit o.file source (!o.noPrompt) o.emit
  if exit = .success then host.report shown .finished
  pure exit

/-- Runs the command with so many turns for each loop. -/
def runWithin (host : Host m) (limit : Nat) (args : List String) : m Exit :=
  match host.readArgs args with
  | .answer exit output errors => do
      host.put output
      host.complain errors
      pure exit
  | .options o => do
      match ← host.readFile o.file with
      | .error reason =>
          host.complain s!"error: failed to read '{o.file}': {reason}\n"
          pure .noInput
      | .ok source => execute host limit source o

/-- Runs the command. -/
def run (host : Host m) (args : List String) : m Exit :=
  runWithin host turnLimit args

-- ============================================ a run of the command as data

/-- What a run of the command is given besides its arguments and its
standard input. -/
structure Setting where
  /-- What the arguments mean. -/
  readArgs : List String → Reading
  /-- The bytes of a file, or why it cannot be read. -/
  files : String → Except String (List UInt8)
  /-- The filter that the environment asks for, if any. -/
  requestedFilter : Option LogFilter
  /-- The filter of a level's name. -/
  levelFilter : String → LogFilter
  /-- An event as a line of the log. -/
  logLine : LogEvent → String

/-- The setting of the executable, with nothing asked for by the
environment. -/
def Setting.standard (files : String → Except String (List UInt8)) :
    Setting where
  readArgs := Command.readArgs
  files := files
  requestedFilter := none
  levelFilter := Command.levelFilter
  logLine := LogEvent.line

/-- The streams of one run of the command, standard error included. -/
structure Transcript where
  streams : Streams
  errors : String := ""
deriving DecidableEq

namespace Transcript

/-- A console over the streams of the run. -/
def console (prompting : Bool) : Console (StateM Transcript) where
  writeLine line p :=
    let (r, s) := (Streams.console prompting).writeLine line p.streams
    (r, { p with streams := s })
  readLine prompt p :=
    let (r, s) := (Streams.console prompting).readLine prompt p.streams
    (r, { p with streams := s })

/-- The host of a setting. The bytes of a file must be valid UTF-8. -/
def host (s : Setting) : Host (StateM Transcript) where
  readArgs := s.readArgs
  readFile name p := (match s.files name with
    | .error reason => .error reason
    | .ok bytes => (Streams.decode bytes).mapError (·.reason), p)
  put text p := ((), { p with streams := p.streams.write text })
  complain text p := ((), { p with errors := p.errors ++ text })
  console := console
  requestedFilter := s.requestedFilter
  levelFilter := s.levelFilter
  log event p := ((), { p with errors := p.errors ++ s.logLine event })

end Transcript

/-- Runs the command in a setting, with the given turns, arguments and
standard input: the exit code and what was written. -/
def transcriptWithin (s : Setting) (limit : Nat) (args : List String)
    (input : List UInt8) : Exit × Transcript :=
  (runWithin (Transcript.host s) limit args).run ⟨⟨input, ""⟩, ""⟩

/-- Runs the executable with the given files, arguments and standard
input. -/
def transcript (files : String → Except String (List UInt8))
    (args : List String) (input : List UInt8) : Exit × Transcript :=
  transcriptWithin (.standard files) turnLimit args input

end BisayaPlus.Command
