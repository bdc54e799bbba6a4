import Scriptlet.CommandLine
import Std.Time.DateTime.Timestamp

/-!
# The program

Connects the command line with the clock, the files, standard input and the two outputs. What is written and
with which code the program ends is decided elsewhere.
-/

namespace Scriptlet.CommandLine

/-- A clock that shows the present time at its first look, and a microsecond more at each further one. It does not
go on by itself: a timeout bounds how often a run looks at the clock, and not how long it takes. -/
def presentClock : IO Clock := do
  let now ← Std.Time.Timestamp.now
  let start := now.toNanosecondsSinceUnixEpoch.val.toNat
  return ⟨fun looks => start + 1000 * looks, 0⟩

/-- More rounds than a loop can take. -/
def unlimited : Nat := Number.tenTo 18

def readSource (file : String) : IO (Except FileError String) := do
  try
    return .ok (← IO.FS.readFile file)
  catch
    | .noFileOrDirectory .. => return .error .missing
    | .inappropriateType _ code _ => return .error (if code = 20 then .notDirectory else .directory)
    | e => return .error (.other (toString e))

def Command.file? : Command → Option String
  | .run file _ _ _ => some file
  | .tokens file => some file
  | .eval _ => none
  | .repl => none

/-- The exit code in place of one that is missing: what a shell shows of a program that is aborted. -/
def abortCode : UInt32 := 134

/-- Reads and answers lines until there is none left or one breaks the program down, and gives the exit code. -/
partial def interact (input output : IO.FS.Stream) : IO UInt32 := do
  output.putStr prompt
  output.flush
  let line ← input.getLine
  if line.isEmpty then return 0
  let r := answer (← presentClock) unlimited line
  output.putStr r.output
  if r.ending = .brokenDown then return abortCode
  interact input output

/-- Carries out a command that needs no conversation, and writes what it leaves behind. -/
def perform (arguments : List String) (file : Option String) : IO UInt32 := do
  let content ← match file with
    | some file => readSource file
    | none => pure (.error .missing)
  let o := outcome (fun _ => content) "" (← presentClock) unlimited arguments
  IO.print o.stdout
  IO.eprint o.stderr
  return o.exit.elim abortCode UInt32.ofNat

def runProgram (arguments : List String) : IO UInt32 := do
  match parse arguments with
  | .ok .repl =>
    IO.print greeting
    interact (← IO.getStdin) (← IO.getStdout)
  | .ok command => perform arguments command.file?
  | .error _ => perform arguments none

end Scriptlet.CommandLine

def main (arguments : List String) : IO UInt32 :=
  Scriptlet.CommandLine.runProgram arguments
