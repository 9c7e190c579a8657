/-
What the command is told and what it tells: options, exit codes and log
events.

    bisaya [--emit run|tokens|ast] [--no-prompt] [-v | --verbose] FILE

How arguments become options, which log events are shown and how an event
looks are matters of libraries. The command takes them as they come, as a
`Reading` of its arguments and as filters (`Command/Execute.lean`).
-/
namespace BisayaPlus.Command

/-- What to do with the file. -/
inductive Emit where
  | run
  | tokens
  | ast
deriving DecidableEq, Repr

namespace Emit

/-- The name of an action in the log. -/
def name : Emit → String
  | run => "Run"
  | tokens => "Tokens"
  | ast => "Ast"

/-- The action of an argument. -/
def ofName? : String → Option Emit
  | "run" => some .run
  | "tokens" => some .tokens
  | "ast" => some .ast
  | _ => none

end Emit

/-- What the command is asked to do. -/
structure Options where
  file : String
  emit : Emit := .run
  /-- Nothing is shown before a line is read. -/
  noPrompt : Bool := false
  /-- More is logged. -/
  verbose : Bool := false
deriving DecidableEq, Repr

/-- Exit codes. -/
inductive Exit where
  | success
  /-- The arguments are wrong. -/
  | usage
  /-- The file is no program. -/
  | dataError
  /-- The file cannot be read. -/
  | noInput
  /-- The program faulted. -/
  | software
  /-- The program took more turns in a loop than were granted. -/
  | outOfTurns
deriving DecidableEq, Repr

/-- The number of an exit code. -/
def Exit.code : Exit → Nat
  | success => 0
  | usage => 2
  | dataError => 65
  | noInput => 66
  | software => 70
  | outOfTurns => 75

/-- What a reader makes of arguments. -/
inductive Reading where
  | options (o : Options)
  /-- An answer of the reader's own, to a wrong argument or a question
  about the command. The command is over with it. -/
  | answer (exit : Exit) (output errors : String)
deriving DecidableEq, Repr

-- ================================================================ logs

/-- How severe a log event is. -/
inductive Level where
  | error
  | warn
  | info
  | debug
  | trace
deriving DecidableEq, Repr

/-- An event of the log. -/
structure LogEvent where
  level : Level
  message : String
  fields : List (String × String) := []
deriving DecidableEq, Repr

namespace LogEvent

/-- The command has read its file. -/
def starting (o : Options) : LogEvent where
  level := .info
  message := "starting"
  fields := [("file", o.file), ("emit", o.emit.name)]

/-- The command has done what it was asked to do. -/
def finished : LogEvent where
  level := .debug
  message := "done"

end LogEvent

/-- A choice of the events that are shown. -/
abbrev LogFilter := LogEvent → Bool

/-- The filter shows no event that is less severe than a warning. -/
def LogFilter.Quiet (shown : LogFilter) : Prop :=
  ∀ event, event.level ∉ [.error, .warn] → shown event = false

end BisayaPlus.Command
