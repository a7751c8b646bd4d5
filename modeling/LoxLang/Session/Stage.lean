import LoxLang.Data.Format
import LoxLang.Session
import LoxLang.Syntax.Plain

/-!
# Stages of a program

What a program looks like on the way to its execution: its tokens, its tree, and the table of its resolved uses.
-/

namespace LoxLang

inductive Stage
  | tokens
  | tree
  | uses
deriving DecidableEq

namespace Stage

def tokenData (tokens : List Token) : Data := .list (tokens.map Token.data)

def treeData (steps : List Node) : Data := .list (Node.dataOf steps)

def useData (steps : List Node) : Data := .list ((Node.useTable steps).map Use.data)

/-- The diagnostics that keep a program from being resolved. -/
def resolveDiagnostics : ResolveFault → List Diagnostic
  | .rejected line cause => [cause.diagnostic line]
  | .unread d => [d]
  | .notANode _ => []

/-- A stage of a program as plain data, or the diagnostics of the first stage that fails. -/
def data (stage : Stage) (source : String) : Except (List Diagnostic) Data := do
  let tokens ← scan source
  if stage = .tokens then return tokenData tokens
  let steps := parse tokens
  let diagnostics := Node.diagnosticsOf steps
  if !diagnostics.isEmpty then throw diagnostics
  if stage = .tree then return treeData steps
  match resolve steps with
  | .ok resolved => return useData resolved
  | .error fault => throw (resolveDiagnostics fault)

end Stage

end LoxLang
