/-
A reader of arguments and a log for the executable. The command works
with any others as well: no decision of its own is taken here.

Options may stand before and behind the file, each at most once; short
ones may share a dash, and a double dash ends them. Asking for the version
(`-V`, `--version`) is answered as soon as it is met.
-/
import BisayaPlus.Command.Options

namespace BisayaPlus.Command

-- =========================================================== arguments

/-- The name and version of the command. -/
def versionLine : String := "bisaya 0.1.0\n"

/-- The options as far as they have been read. -/
structure Draft where
  file : Option String := none
  emit : Option Emit := none
  noPrompt : Bool := false
  verbose : Bool := false
deriving DecidableEq, Repr

/-- The answer to arguments that make no sense. -/
def Reading.invalid : Reading := .answer .usage "" ""

/-- The answer to the question for the version. -/
def Reading.version : Reading := .answer .success versionLine ""

namespace Draft

/-- The file, which must be named once and not be empty. -/
def setFile (d : Draft) (name : String) : Option Draft :=
  if d.file.isSome || name.isEmpty then none
  else some { d with file := some name }

/-- The action, which must be a known one and given once. -/
def setEmit (d : Draft) (name : String) : Option Draft :=
  if d.emit.isSome then none
  else (Emit.ofName? name).map fun e => { d with emit := some e }

/-- The flag against prompts, given once. -/
def setNoPrompt (d : Draft) : Option Draft :=
  if d.noPrompt then none else some { d with noPrompt := true }

/-- The flag for logs, given once. -/
def setVerbose (d : Draft) : Option Draft :=
  if d.verbose then none else some { d with verbose := true }

/-- The options once all arguments are read: a file is needed. -/
def reading (d : Draft) : Reading :=
  match d.file with
  | none => .invalid
  | some file =>
      .options ⟨file, d.emit.getD .run, d.noPrompt, d.verbose⟩

end Draft

/-- Reads the short options behind one dash: the answer they call for, or
the options they leave. -/
def readShorts (d : Draft) : List Char → Except Reading Draft
  | [] => .ok d
  | 'v' :: cs =>
      match d.setVerbose with
      | some d => readShorts d cs
      | none => .error .invalid
  | 'V' :: _ => .error .version
  | _ :: _ => .error .invalid

/-- Reads arguments behind a double dash: only files. -/
def readFiles (d : Draft) : List String → Reading
  | [] => d.reading
  | name :: args =>
      match d.setFile name with
      | some d => readFiles d args
      | none => .invalid

/-- The argument has the form of an option. A dash alone is a file. -/
def isOption (arg : String) : Bool := arg.startsWith "-" && arg != "-"

/-- Reads arguments in order. -/
def readMore (d : Draft) : List String → Reading
  | [] => d.reading
  | "--" :: args => readFiles d args
  | "--version" :: _ => .version
  | "--no-prompt" :: args =>
      match d.setNoPrompt with
      | some d => readMore d args
      | none => .invalid
  | "--verbose" :: args =>
      match d.setVerbose with
      | some d => readMore d args
      | none => .invalid
  | ["--emit"] => .invalid
  | "--emit" :: name :: args =>
      if isOption name then .invalid
      else
        match d.setEmit name with
        | some d => readMore d args
        | none => .invalid
  | arg :: args =>
      match arg.toList with
      | '-' :: '-' :: 'e' :: 'm' :: 'i' :: 't' :: '=' :: name =>
          match d.setEmit (String.ofList name) with
          | some d => readMore d args
          | none => .invalid
      | '-' :: '-' :: _ => .invalid
      | '-' :: c :: cs =>
          match readShorts d (c :: cs) with
          | .ok d => readMore d args
          | .error reading => reading
      | _ =>
          match d.setFile arg with
          | some d => readMore d args
          | none => .invalid

/-- What a list of arguments means. -/
def readArgs (args : List String) : Reading := readMore {} args

-- ================================================================ logs

namespace Level

/-- The name of a level. -/
def name : Level → String
  | error => "error"
  | warn => "warn"
  | info => "info"
  | debug => "debug"
  | trace => "trace"

/-- The place of a level, the most severe first. -/
def rank : Level → Nat
  | error => 0
  | warn => 1
  | info => 2
  | debug => 3
  | trace => 4

/-- The level of a name. -/
def ofName? (s : String) : Option Level :=
  [error, warn, info, debug, trace].find? (·.name = s)

/-- Shows the events of a level and of the more severe ones. -/
def filter (level : Level) : LogFilter := fun event =>
  event.level.rank ≤ level.rank

end Level

/-- The filter of a level's name; any other text shows nothing. -/
def levelFilter (name : String) : LogFilter :=
  match Level.ofName? name with
  | some level => level.filter
  | none => fun _ => false

/-- An event as a line of the log. -/
def LogEvent.line (event : LogEvent) : String :=
  let fields := event.fields.map fun (key, value) => s!" {key}={value}"
  s!"{event.level.name.toUpper} {event.message}{String.join fields}\n"

end BisayaPlus.Command
