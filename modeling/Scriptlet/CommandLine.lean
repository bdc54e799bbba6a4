import Scriptlet.Formula

/-!
# The command line

What the program does with its arguments, the files it can see and the lines of its input: it runs a script,
evaluates an expression, lists the tokens of a file, or evaluates expressions line by line. The result is an
exit code and the two outputs; nothing here touches the outside. A text without end breaks the program down,
and what it wrote before is all there is.
-/

namespace Scriptlet.CommandLine

/-- Why a file cannot be read. -/
inductive FileError
  | missing
  | directory
  | notDirectory
  | other (reason : String)
deriving DecidableEq, Repr

def FileError.message : FileError → String
  | .missing => "No such file or directory (os error 2)"
  | .directory => "Is a directory (os error 21)"
  | .notDirectory => "Not a directory (os error 20)"
  | .other reason => reason

/-- What is asked for. The timeout is in milliseconds. -/
inductive Command
  | run (file entry : String) (maxSteps timeout : Option Nat)
  | eval (expression : String)
  | tokens (file : String)
  | repl
deriving DecidableEq, Repr

/-- Why arguments are no command: they are wrong, or they ask for help. -/
inductive Usage
  | invalid
  | help
deriving DecidableEq, Repr

/-- What an operand is. The name of a file is not empty. -/
inductive Operand
  | file
  | expression
deriving DecidableEq, Repr

/-- What one level of the command line takes: options with a text, options with a number, and at most one
operand. -/
structure Level where
  texts : List String
  numbers : List String
  operand : Option Operand

/-- The arguments of one level, sorted: whether to be quiet, the options that are given, the operand, and
the arguments that are left to the level below. -/
structure Sorted where
  quiet : Bool
  texts : List (String × String)
  numbers : List (String × Nat)
  operand : Option String
  rest : List String

namespace Sorted

def empty : Sorted := ⟨false, [], [], none, []⟩

def addQuiet (s : Sorted) : Except Usage Sorted :=
  if s.quiet then .error .invalid else .ok { s with quiet := true }

def addFlags (s : Sorted) : List Char → Except Usage Sorted
  | [] => .ok s
  | 'v' :: rest => s.addFlags rest
  | 'q' :: rest => s.addQuiet.bind fun s => s.addFlags rest
  | 'h' :: _ => .error .help
  | _ => .error .invalid

def addLongFlag (s : Sorted) (name : String) : Except Usage Sorted :=
  match name with
  | "verbose" => .ok s
  | "quiet" => s.addQuiet
  | "help" => .error .help
  | _ => .error .invalid

/-- Reads an option and its value. Each option may be given once. -/
def addOption (s : Sorted) (level : Level) (name value : String) : Except Usage Sorted :=
  if (s.texts.lookup name).isSome || (s.numbers.lookup name).isSome then .error .invalid
  else if level.texts.contains name then .ok { s with texts := (name, value) :: s.texts }
  else if level.numbers.contains name then
    match Number.readNat (Number.twoTo 64) value.toList with
    | some n => .ok { s with numbers := (name, n) :: s.numbers }
    | none => .error .invalid
  else .error .invalid

def addOperand (s : Sorted) (level : Level) (value : String) : Except Usage Sorted :=
  match level.operand, s.operand with
  | some kind, none =>
    if kind = .file ∧ value.isEmpty then .error .invalid else .ok { s with operand := some value }
  | _, _ => .error .invalid

end Sorted

/-- Whether an argument is an option or a group of flags. -/
def isFlag (argument : String) : Bool :=
  argument.startsWith "-" && argument ≠ "-"

/-- The name of a long option, and the value behind its equals sign. -/
def splitOption (argument : String) : String × Option String :=
  let cs := argument.toList.drop 2
  match cs.dropWhile (· ≠ '=') with
  | _ :: value => (String.ofList (cs.takeWhile (· ≠ '=')), some (String.ofList value))
  | [] => (String.ofList cs, none)

/-- Sorts the arguments of a level from left to right: the first one that is wrong, or that asks for help,
decides. Behind two dashes everything is an operand. With `above`, the first argument that is no flag names
the level below, and the rest is left to it. -/
def sortArguments (level : Level) (above : Bool) (s : Sorted) : List String → Except Usage Sorted
  | [] => .ok s
  | argument :: rest =>
    if argument = "--" then rest.foldlM (·.addOperand level ·) s
    else if argument.startsWith "--" then
      match splitOption argument with
      | (name, some value) => (s.addOption level name value).bind fun s => sortArguments level above s rest
      | (name, none) =>
        if level.texts.contains name || level.numbers.contains name then
          match rest with
          | [] => .error .invalid
          | value :: rest =>
            if isFlag value then .error .invalid
            else (s.addOption level name value).bind fun s => sortArguments level above s rest
        else (s.addLongFlag name).bind fun s => sortArguments level above s rest
    else if isFlag argument then
      (s.addFlags (argument.toList.drop 1)).bind fun s => sortArguments level above s rest
    else if above then .ok { s with rest := argument :: rest }
    else (s.addOperand level argument).bind fun s => sortArguments level above s rest

def Sorted.needOperand (s : Sorted) : Except Usage String :=
  match s.operand with
  | some value => .ok value
  | none => .error .invalid

def commandNames : List String := ["run", "eval", "tokens", "repl", "help"]

/-- The command of a name and the arguments behind it. Help is about the program or about one command. -/
def command (name : String) (arguments : List String) : Except Usage Command := do
  match name with
  | "run" =>
    let s ← sortArguments ⟨["entry"], ["max-steps", "timeout-ms"], some .file⟩ false .empty arguments
    return .run (← s.needOperand) ((s.texts.lookup "entry").getD "Main") (s.numbers.lookup "max-steps")
      (s.numbers.lookup "timeout-ms")
  | "eval" =>
    let s ← sortArguments ⟨[], [], some .expression⟩ false .empty arguments
    return .eval (← s.needOperand)
  | "tokens" =>
    let s ← sortArguments ⟨[], [], some .file⟩ false .empty arguments
    return .tokens (← s.needOperand)
  | "repl" =>
    let _ ← sortArguments ⟨[], [], none⟩ false .empty arguments
    return .repl
  | "help" =>
    match arguments with
    | [] => throw .help
    | [topic] => throw (if commandNames.contains topic then .help else .invalid)
    | _ => throw .invalid
  | _ => throw .invalid

/-- The command that arguments ask for; without one, expressions are read line by line. -/
def parse (arguments : List String) : Except Usage Command := do
  match (← sortArguments ⟨[], [], none⟩ true .empty arguments).rest with
  | [] => return .repl
  | name :: rest => command name rest

/-- What the outside sees of the program. There is no exit code if it broke down. -/
structure Outcome where
  exit : Option Nat
  stdout : String
  stderr : String
deriving DecidableEq, Repr

/-- How a command ends. -/
inductive Ending
  | done
  | failed (message : String)
  | brokenDown
deriving DecidableEq, Repr

/-- What a command wrote, and how it ended. -/
structure Report where
  output : String
  ending : Ending
deriving DecidableEq, Repr

def Report.outcome (r : Report) : Outcome :=
  match r.ending with
  | .done => ⟨some 0, r.output, ""⟩
  | .failed message => ⟨some 1, r.output, message ++ "\n"⟩
  | .brokenDown => ⟨none, r.output, ""⟩

def Ending.ofInterruption : Interruption → Ending
  | .fault e => .failed e.message
  | .outOfRounds => .failed "Too many rounds of a loop"
  | .endlessText => .brokenDown

def machine (clock : Clock) (limits : Limits) : Machine :=
  let (monitor, clock) := limits.monitor clock
  { world := ⟨.empty, ⟨"", none⟩, clock⟩, globals := [], members := [], frames := [], monitor, limits }

/-- Runs something and reports the output, with the text of the value behind it. -/
def report (m : Machine) (action : Run (Option Value)) : Report :=
  match action m with
  | .ok none m => ⟨m.world.output.text, .done⟩
  | .ok (some v) m =>
    match m.world.heap.text v with
    | some text => ⟨m.world.output.text ++ text ++ "\n", .done⟩
    | none => ⟨m.world.output.text, .brokenDown⟩
  | .error e m => ⟨m.world.output.text, .ofInterruption e⟩

/-- Runs a script from its entry point, which takes no arguments. -/
def runScript (clock : Clock) (rounds : Nat) (source entry : String) (limits : Limits) : Report :=
  match Script.compile .standard source with
  | .error e => ⟨"", .failed e.message⟩
  | .ok script =>
    if (script.overloads entry).any (·.parameters.isEmpty) then
      report (machine clock limits) do
        script.prepare rounds
        script.call rounds entry []
    else
      let e : CompileError := ⟨.missingFunction (entry ++ "()"), .start, []⟩
      ⟨"", .failed e.message⟩

def evalExpression (clock : Clock) (rounds : Nat) (source : String) : Report :=
  match Formula.compile .standard source [] with
  | .error e => ⟨"", .failed e.message⟩
  | .ok formula => report (machine clock .standard) do return some (← formula.evaluate rounds)

def category : TokenKind → String
  | .keyword _ => "Keyword"
  | .type _ _ => "Type"
  | .identifier _ => "Identifier"
  | .operator _ => "Operator"
  | .separator _ => "Separator"
  | .literal _ => "Literal"
  | .interpolated _ _ => "Interpolated"
  | .endOfInput => "Eof"

def padLeft (width : Nat) (s : String) : String :=
  String.ofList (List.replicate (width - s.length) ' ') ++ s

def padRight (width : Nat) (s : String) : String :=
  s ++ String.ofList (List.replicate (width - s.length) ' ')

/-- A line for each token; the number of a source line stands before its first token. -/
def tokenLines (line : Nat) : List Token → String
  | [] => ""
  | token :: rest =>
    let lead := if token.position.line = line then "   | " else padLeft 4 (toString token.position.line) ++ " "
    lead ++ padRight 12 (category token.kind) ++ " " ++ token.kind.text ++ "\n" ++
      tokenLines token.position.line rest

def listTokens (source : String) : Report :=
  match Lexer.tokenize Registry.standard.resolveAlias source with
  | .error e => ⟨"", .failed e.message⟩
  | .ok tokens => ⟨tokenLines 0 tokens, .done⟩

def greeting : String :=
  "Welcome to the hostscript REPL!\n" ++
    "Enter an expression. EOF to exit. (Ctrl+D on *nix, Ctrl+Z on Windows)\n"

/-- What the interactive loop shows when it waits for a line. -/
def prompt : String := "> "

/-- What the interactive loop writes for a line. A line that fails is no reason to stop. -/
def answer (clock : Clock) (rounds : Nat) (line : String) : Report :=
  let source := Text.trimString line
  if source.isEmpty then ⟨"", .done⟩
  else
    let r := evalExpression clock rounds source
    match r.ending with
    | .failed message => ⟨r.output ++ "Error: " ++ message ++ "\n", .done⟩
    | _ => r

/-- The lines of a text; a line feed at the end begins no further line. -/
def linesOf (text : String) : List String :=
  let lines := text.splitOn "\n"
  if lines.getLast? = some "" then lines.dropLast else lines

/-- Everything that the interactive loop writes for some lines behind what it has written. -/
def converse (clock : Clock) (rounds : Nat) (written : String) : List String → Report
  | [] => ⟨written ++ prompt, .done⟩
  | line :: rest =>
    let r := answer clock rounds line
    if r.ending = .brokenDown then ⟨written ++ prompt ++ r.output, .brokenDown⟩
    else converse clock rounds (written ++ prompt ++ r.output) rest

def withFile (read : String → Except FileError String) (file : String) (use : String → Report) : Report :=
  match read file with
  | .ok source => use source
  | .error e => ⟨"", .failed ("Cannot read " ++ file ++ ": " ++ e.message)⟩

def execute (read : String → Except FileError String) (input : String) (clock : Clock) (rounds : Nat) :
    Command → Report
  | .run file entry maxSteps timeout =>
    withFile read file fun source =>
      runScript clock rounds source entry
        { Limits.standard with maxSteps := maxSteps.map UInt64.ofNat, timeout := timeout.map (· * 1000000) }
  | .eval expression => evalExpression clock rounds expression
  | .tokens file => withFile read file listTokens
  | .repl => converse clock rounds greeting (linesOf input)

def usage : String :=
  "Usage: [-v] [-q] run <file> [--entry NAME] [--max-steps N] [--timeout-ms N]\n" ++
    "       [-v] [-q] eval <expression>\n" ++
    "       [-v] [-q] tokens <file>\n" ++
    "       [-v] [-q] repl\n"

/-- The whole program: arguments, files and input to exit code and outputs. -/
def outcome (read : String → Except FileError String) (input : String) (clock : Clock) (rounds : Nat)
    (arguments : List String) : Outcome :=
  match parse arguments with
  | .ok command => (execute read input clock rounds command).outcome
  | .error .help => ⟨some 0, usage, ""⟩
  | .error .invalid => ⟨some 2, "", usage⟩

end Scriptlet.CommandLine
