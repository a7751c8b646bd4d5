import LoxLang.Text.Quoted

/-!
# Diagnostics

What is reported to the user: the phase that found the fault, the line it was found on, and a message.
-/

namespace LoxLang

/-- A line of a program. The lines of a text are counted from one; a tree that was handed over may name any number. -/
abbrev Line := Int

/-- The phase that a diagnostic comes from; `general` belongs to none. -/
inductive Phase
  | general
  | scan
  | parse
  | resolve
  | runtime
deriving DecidableEq

namespace Phase

/-- The word in front of a reported message. -/
def label : Phase → String
  | general => "Error"
  | scan => "ScanError"
  | parse => "ParseError"
  | resolve => "ResolveError"
  | runtime => "RuntimeError"

/-- The name of the family of values that diagnostics of the phase belong to. -/
def family : Phase → String
  | general => "LoxError"
  | scan => "ScanningError"
  | parse => "ParsingError"
  | resolve => "ResolvingError"
  | runtime => "LoxRuntimeError"

def all : List Phase := [general, scan, parse, resolve, runtime]

def ofLabel? (s : String) : Option Phase := all.find? (·.label == s)

end Phase

structure Diagnostic where
  phase : Phase
  line : Line
  message : String
deriving DecidableEq

namespace Diagnostic

/-- The diagnostic in debugging output. -/
def debugText (d : Diagnostic) : String :=
  d.phase.family ++ "(line=" ++ toString d.line ++ ", message=" ++ Text.quoted d.message ++ ")"

/-- The diagnostic as an element of a printed tree. -/
def shown (d : Diagnostic) : String :=
  "<" ++ d.phase.label ++ " line " ++ toString d.line ++ ": " ++ d.message ++ ">"

/-- The diagnostic as a line of its own, with its place in front. -/
def report (d : Diagnostic) : String :=
  "Error on line " ++ toString d.line ++ ": " ++ d.phase.label ++ ": " ++ d.message

end Diagnostic

end LoxLang
