import LoxLang.CommandLine

/-!
# The program

Reads arguments, files and standard input, and writes what `LoxLang.CommandLine` answers.
-/

namespace LoxLang.Program

open CommandLine

/-- Write a transcript. -/
def write (t : Transcript) : IO UInt32 := do
  (← IO.getStdout).putStr t.stdout
  (← IO.getStderr).putStr t.stderr
  return UInt32.ofNat t.exit

/-- The text of a file, if there is such a file. -/
def read? (file : String) : IO (Option String) := do
  try return some (← IO.FS.readFile file)
  catch _ => return none

/-- Read lines and run them until the input or the session ends. -/
partial def converse (s : Session) : IO UInt32 := do
  let stdout ← IO.getStdout
  stdout.putStr prompt
  stdout.flush
  let line ← (← IO.getStdin).getLine
  if line = "" then
    stdout.putStr farewell
    return 0
  let t := turn s line
  stdout.putStr t.stdout
  (← IO.getStderr).putStr t.stderr
  match t.next with
  | some s => converse s
  | none => return 0

end LoxLang.Program

open LoxLang CommandLine Program in
def main (arguments : List String) : IO UInt32 := do
  match Command.ofArguments? arguments with
  | none => write misused
  | some (.dump stage format none) => do
    let source ← (← IO.getStdin).readToEnd
    write (dump stage format source)
  | some (.dump stage format (some file)) => do
    let contents ← read? file
    write (withFile (fun _ => contents) file (dump stage format))
  | some (.script file) => do
    let contents ← read? file
    write (withFile (fun _ => contents) file (script {}))
  | some .interactive => do
    (← IO.getStdout).putStr greeting
    converse (firstSession {})
