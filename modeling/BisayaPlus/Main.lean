/-
The command line. All decisions are taken by `Command.run`; this file
gives it the files and streams of the process.
-/
import BisayaPlus.Command.Execute

namespace BisayaPlus.Command

/-- Why the system could not give a file or line. -/
def reasonOf (e : IO.Error) : String :=
  match e with
  | .noFileOrDirectory .. => "No such file or directory (os error 2)"
  | .inappropriateType .. => "Is a directory (os error 21)"
  | .permissionDenied .. => "Permission denied (os error 13)"
  | e => toString e

/-- The result of an action, with the reason if the system refused it. -/
def attempt {α : Type} (action : IO α) : IO (Except String α) := do
  try
    pure (.ok (← action))
  catch e =>
    pure (.error (reasonOf e))

/-- The bytes of the next line of a stream, up to and including its line
feed. -/
partial def readLineBytes (stream : IO.FS.Stream) (line : ByteArray) :
  IO ByteArray := do
  let bytes ← stream.read 1
  if bytes.isEmpty then pure line
  else
    let line := line ++ bytes
    if bytes.data.contains 10 then pure line else readLineBytes stream line

/-- The console of the process. -/
def processConsole (prompting : Bool) : Console IO where
  writeLine line := do
    let result ← attempt do
      let out ← IO.getStdout
      out.putStrLn line
      out.flush
    pure (result.mapError Console.Failure.mk)
  readLine prompt := do
    let result ← attempt do
      if prompting then
        let out ← IO.getStdout
        out.putStr prompt
        out.flush
      readLineBytes (← IO.getStdin) .empty
    pure <|
      match result with
      | .error reason => .error ⟨reason⟩
      | .ok bytes =>
          if bytes.isEmpty then .ok none
            else (Streams.decode bytes.toList).map some

/-- The files and streams of the process. Of the filters that the
environment can ask for, those by the name of a level are known. -/
def processHost : IO (Host IO) := do
  let requested ← IO.getEnv "BISAYA_LOG"
  pure
    { readArgs := readArgs
      readFile := fun name => do
        let bytes ← attempt (IO.FS.readBinFile name)
        pure <|
          match bytes with
          | .error reason => .error reason
          | .ok bytes => (Streams.decode bytes.toList).mapError (·.reason)
      put := IO.print
      complain := IO.eprint
      console := processConsole
      requestedFilter := (requested.bind Level.ofName?).map Level.filter
      levelFilter := levelFilter
      log := fun event => IO.eprint event.line }

end BisayaPlus.Command

open BisayaPlus in
/-- Runs the command and ends with its exit code. -/
def main (args : List String) : IO UInt32 := do
  let exit ← Command.run (← Command.processHost) args
  pure (UInt32.ofNat exit.code)
