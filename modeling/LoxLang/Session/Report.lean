import LoxLang.Machine
import LoxLang.Text.Lines

/-!
# How failures are reported

A diagnostic is shown with the lines of the program around it, and a failure of a running program with the calls that
were active.
-/

namespace LoxLang.Report

/-- How many lines an excerpt shows on either side of the line in question. -/
def radius : Nat := 2

/-- A text with spaces in front, up to a width. -/
def padLeft (width : Nat) (s : String) : String := String.ofList (List.replicate (width - s.length) ' ') ++ s

/-- A numbered line of an excerpt; the line in question is marked. -/
def excerptLine (marked : Line) (width number : Nat) (text : String) : String :=
  (if marked = number then ">" else " ") ++ " " ++ padLeft width (toString number) ++ " | " ++ text

/-- The lines around a line of a program, if the program has that line. -/
def excerpt? (source : String) (line : Line) : Option String :=
  let lines := Text.lines source
  if line < 1 ∨ lines.length < line then none
  else
    let first := max 1 (line - radius).toNat
    let last := min lines.length (line + radius).toNat
    let width := (toString last).length
    let shown := (lines.drop (first - 1)).take (last + 1 - first)
    some ("\n".intercalate (shown.mapIdx fun i text => excerptLine line width (first + i) text))

/-- A diagnostic with its excerpt. -/
def located (source : String) (d : Diagnostic) : String :=
  let headline := d.phase.label ++ ": " ++ d.message ++ " (line " ++ toString d.line ++ ")"
  match excerpt? source d.line with
  | some text => headline ++ "\n" ++ text
  | none => headline

/-- An active call with its arguments. -/
def activation (a : Activation) : String :=
  let arguments := " ".intercalate (a.arguments.map Value.inMessage)
  "(" ++ (if a.name = "" then "<call>" else a.name) ++ (if arguments = "" then "" else " " ++ arguments) ++ ")"

/-- The active calls, the outermost first, if there are any. -/
def stackTrace? (calls : List Activation) : Option String :=
  if calls.isEmpty then none else some ("Lox stacktrace: " ++ " ".intercalate (calls.map activation))

/-- Diagnostics and active calls as one message. -/
def message (source : String) (diagnostics : List Diagnostic) (calls : List Activation) : String :=
  let located := "\n".intercalate (diagnostics.map (located source))
  match stackTrace? calls with
  | some trace => located ++ "\n" ++ trace
  | none => located

/-- The status of a run that failed. -/
def failedStatus : String := "error"

/-- The status of a run that ended well. -/
def successStatus : String := "success"

/-- What is said of a run: nothing unless it failed, and else its message, with the line of the first diagnostic in
front if that is known. -/
def summary (status : String) (message : Option String) (line : Option String) : String :=
  if status ≠ failedStatus then ""
  else
    let text := if message.getD "" = "" then "Unknown error" else message.getD ""
    match line with
    | some n => "Error on line " ++ n ++ ": " ++ text
    | none => text

end LoxLang.Report
