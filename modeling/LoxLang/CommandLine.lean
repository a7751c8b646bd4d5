import LoxLang.Session.Stage
import LoxLang.Text.Blank

/-!
# The command line

A file is run, a stage of a program is written out, or, without either, programs are read from standard input line by
line. What a command writes is a function of its arguments, the files and the input, given as a `Transcript`.
-/

namespace LoxLang

/-- What a command writes, and how it exits. -/
structure Transcript where
  stdout : String
  stderr : String
  exit : Nat

namespace CommandLine

/-! ## Arguments -/

inductive Command
  /-- Write out a stage of the program in a file, or on standard input. -/
  | dump (stage : Stage) (format : Data.Format) (file : Option String)
  | script (file : String)
  | interactive

def usage : String := "Usage: lox.py [--tokens | --ast | --locals] [--json] [file]"

def stageFlags : List (String × Stage) := [("--tokens", .tokens), ("--ast", .tree), ("--locals", .uses)]

def isFlag (argument : String) : Bool := argument.startsWith "-"

def isKnownFlag (flag : String) : Bool := flag == "--json" || stageFlags.any (·.1 == flag)

/-- What the arguments ask for; there is no answer for an unknown flag, two stages or two files. -/
def Command.ofArguments? (arguments : List String) : Option Command :=
  let flags := arguments.filter isFlag
  let stages := (stageFlags.filter fun (flag, _) => flag ∈ flags).map (·.2)
  let format : Data.Format := if "--json" ∈ flags then .json else .yaml
  if !flags.all isKnownFlag then none
  else match stages, arguments.filter (!isFlag ·) with
    | [], [] => some .interactive
    | [], [file] => some (.script file)
    | [stage], [] => some (.dump stage format none)
    | [stage], [file] => some (.dump stage format (some file))
    | _, _ => none

/-! ## Files -/

/-- A text in which every line ends with a line feed. -/
def unifyLineEnds : List Char → List Char
  | '\r' :: '\n' :: rest => '\n' :: unifyLineEnds rest
  | c :: rest => (if c = '\r' then '\n' else c) :: unifyLineEnds rest
  | [] => []

def fileNotFound (file : String) : String := "Error: file not found: " ++ file

/-! ## Dumps and scripts -/

/-- A stage of a program, or its diagnostics. -/
def dump (stage : Stage) (format : Data.Format) (source : String) : Transcript :=
  match stage.data source with
  | .ok d => ⟨d.write format true, "", 0⟩
  | .error diagnostics => ⟨"", String.join (diagnostics.map fun d => d.report ++ "\n"), 1⟩

/-- What a command runs programs in: standard output takes every line, and no calls are logged. -/
def surroundings (e : Surroundings) (output : Output) : Surroundings :=
  { e with output, refuses := fun _ => false, log := .off }

/-- The effect of a program whose output goes to standard output while it runs. -/
def script (e : Surroundings) (source : String) : Transcript :=
  match (Session.start (surroundings e (.live ""))).run source with
  | (.ok result, s) =>
    match result.outcome with
    | .success _ => ⟨s.machine.written, "", 0⟩
    | .failure .. => ⟨s.machine.written, result.errorText ++ "\n", 1⟩
  | (.error _, s) => ⟨s.machine.written, "", 1⟩

/-! ## Line by line -/

def greeting : String := "Lox REPL v0.1\nType 'exit' or press Ctrl+D to quit.\n"

def prompt : String := ">> "

/-- What is written when the input ends. -/
def farewell : String := "\nExiting.\n"

/-- What a line of input leads to: texts on standard output and standard error, and the session for the next line
unless the line ends it. -/
structure Turn where
  stdout : String
  stderr : String
  next : Option Session

/-- The output of a run that succeeded: the printed lines, and the value if the program returned one. -/
def shownResult (result : RunResult) (value : Value) : String :=
  String.join (result.printed.map (· ++ "\n")) ++ match value with
    | .nil => ""
    | v => v.inMessage ++ "\n"

/-- Run a line. Blanks around it do not count, an empty line does nothing, and `exit` ends the session. -/
def turn (s : Session) (line : String) : Turn :=
  let source := Text.trimmed line
  if source = "" then ⟨"", "", some s⟩
  else if source = "exit" then ⟨"", "", none⟩
  else match s.run source with
    | (.ok result, s) =>
      match result.outcome with
      | .success value => ⟨shownResult result value, "", some s⟩
      | .failure .. => ⟨"", result.errorText ++ "\n", some s⟩
    | (.error _, s) => ⟨"", "", some s⟩

/-- The lines of an input, each with the line feed that ends it. -/
def inputLines : List Char → List (List Char)
  | [] => []
  | c :: rest =>
    if c = '\n' then [c] :: inputLines rest
    else match inputLines rest with
      | [] => [[c]]
      | first :: others => (c :: first) :: others

/-- Run the lines of an input until it ends or one of them ends the session. -/
def turns (s : Session) : List String → Transcript
  | [] => ⟨prompt ++ farewell, "", 0⟩
  | line :: rest =>
    let t := turn s line
    match t.next with
    | none => ⟨prompt ++ t.stdout, t.stderr, 0⟩
    | some s =>
      let more := turns s rest
      ⟨prompt ++ t.stdout ++ more.stdout, t.stderr ++ more.stderr, more.exit⟩

/-- The session that line-by-line input starts with. -/
def firstSession (e : Surroundings) : Session := .start (surroundings e .none)

def interactive (e : Surroundings) (stdin : String) : Transcript :=
  let t := turns (firstSession e) ((inputLines stdin.toList).map String.ofList)
  { t with stdout := greeting ++ t.stdout }

/-! ## Commands -/

def misused : Transcript := ⟨"", usage ++ "\n", 2⟩

/-- Do something with the text of a file. -/
def withFile (contents? : String → Option String) (file : String) (action : String → Transcript) : Transcript :=
  match contents? file with
  | some text => action (String.ofList (unifyLineEnds text.toList))
  | none => ⟨"", fileNotFound file ++ "\n", 1⟩

/-- What the command with these arguments writes, given the files and standard input. -/
def runIn (e : Surroundings) (arguments : List String) (contents? : String → Option String) (stdin : String) :
    Transcript :=
  match Command.ofArguments? arguments with
  | none => misused
  | some (.dump stage format none) => dump stage format stdin
  | some (.dump stage format (some file)) => withFile contents? file (dump stage format)
  | some (.script file) => withFile contents? file (script e)
  | some .interactive => interactive e stdin

/-- What the command writes in the usual surroundings. -/
def run : (arguments : List String) → (contents? : String → Option String) → (stdin : String) → Transcript := runIn {}

end CommandLine

end LoxLang
