/-
Consoles: where a running program writes and reads lines. Running is
defined for consoles of any kind of effect, so that the same definition
serves the command line and the consoles below that are plain data.
-/
namespace BisayaPlus

/-- Why a console failed. -/
structure Console.Failure where
  reason : String
deriving DecidableEq, Repr

/-- The two things a program asks of a console: to write a line, and to
read one after showing a prompt, where no line means that the input is
exhausted. -/
structure Console (m : Type → Type) where
  writeLine : String → m (Except Console.Failure Unit)
  readLine : String → m (Except Console.Failure (Option String))

-- =================================================== a scripted console

/-- A console whose input lines are given beforehand and which records
what is written and asked. It can be limited to a number of writes or
reads that succeed. -/
structure Scripted where
  /-- The lines still to be read. -/
  queue : List String
  /-- The lines written. -/
  output : Array String := #[]
  /-- The prompts shown. -/
  prompts : Array String := #[]
  /-- How many more writes succeed, if not all. -/
  writesLeft : Option Nat := none
  /-- How many more reads succeed, if not all. -/
  readsLeft : Option Nat := none
deriving DecidableEq, Repr

namespace Scripted

/-- Records a line. -/
def writeLine (line : String) (s : Scripted) :
    Except Console.Failure Unit × Scripted :=
  if s.writesLeft = some 0 then (.error ⟨"output closed"⟩, s)
  else (.ok (), { s with
    output := s.output.push line
    writesLeft := s.writesLeft.map (· - 1) })

/-- Records the prompt and takes the next line. A read that fails records
no prompt; one of the exhausted input does. -/
def readLine (prompt : String) (s : Scripted) :
    Except Console.Failure (Option String) × Scripted :=
  if s.readsLeft = some 0 then (.error ⟨"input closed"⟩, s)
  else (.ok s.queue.head?, { s with
    queue := s.queue.tail
    prompts := s.prompts.push prompt
    readsLeft := s.readsLeft.map (· - 1) })

/-- The console whose state is the script. -/
def console : Console (StateM Scripted) := ⟨writeLine, readLine⟩

theorem console_writeLine {s : Scripted} (h : s.writesLeft ≠ some 0)
    (line : String) :
    console.writeLine line s = (.ok (), { s with
      output := s.output.push line
      writesLeft := s.writesLeft.map (· - 1) }) := if_neg h

theorem console_writeLine_closed {s : Scripted} (h : s.writesLeft = some 0)
    (line : String) :
    console.writeLine line s = (.error ⟨"output closed"⟩, s) := if_pos h

theorem console_readLine {s : Scripted} (h : s.readsLeft ≠ some 0)
    (prompt : String) :
    console.readLine prompt s = (.ok s.queue.head?, { s with
      queue := s.queue.tail
      prompts := s.prompts.push prompt
      readsLeft := s.readsLeft.map (· - 1) }) := if_neg h

theorem console_readLine_closed {s : Scripted} (h : s.readsLeft = some 0)
    (prompt : String) :
    console.readLine prompt s = (.error ⟨"input closed"⟩, s) := if_pos h

/-- The lines written, each with its line feed. -/
def text (s : Scripted) : String :=
  s.output.foldl (fun acc line => acc ++ line ++ "\n") ""

end Scripted

-- ============================================= a console over two streams

/-- An input stream of bytes and an output stream of text. -/
structure Streams where
  input : List UInt8
  output : String := ""
deriving DecidableEq

namespace Streams

/-- Writes a text as it is. -/
def write (s : Streams) (text : String) : Streams :=
  { s with output := s.output ++ text }

/-- Splits the bytes behind the first line feed. -/
def splitLine : List UInt8 → List UInt8 × List UInt8
  | [] => ([], [])
  | b :: bs =>
      if b = 10 then ([b], bs)
      else
        let (line, rest) := splitLine bs
        (b :: line, rest)

/-- The text of some bytes, if they are valid UTF-8. -/
def decode (bytes : List UInt8) : Except Console.Failure String :=
  match String.fromUTF8? (ByteArray.mk bytes.toArray) with
  | some s => .ok s
  | none => .error ⟨"stream did not contain valid UTF-8"⟩

/-- Takes a line with its line feed off the input; the last one may lack
it. An empty input has no line. -/
def takeLine (s : Streams) :
    Except Console.Failure (Option String) × Streams :=
  if s.input.isEmpty then (.ok none, s)
  else
    let (line, rest) := splitLine s.input
    ((decode line).map some, { s with input := rest })

/-- The console over the two streams, which shows prompts only if asked
to. -/
def console (prompting : Bool) : Console (StateM Streams) where
  writeLine line s := (.ok (), s.write (line ++ "\n"))
  readLine prompt s := (if prompting then s.write prompt else s).takeLine

end Streams

end BisayaPlus
