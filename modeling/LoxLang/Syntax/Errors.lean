import LoxLang.Syntax

/-!
# Diagnostics inside a tree

`Node.diagnostics` lists the parse diagnostics that stand in for steps, in the order of the text.
-/

namespace LoxLang.Node

mutual

/-- The parse diagnostics in a step: in blocks, branches, loops, functions and methods, at any depth. -/
def diagnostics : Node → List Diagnostic
  | error d => if d.phase = .parse then [d] else []
  | block steps _ => diagnosticsOf steps
  | ifElse _ thenBranch elseBranch _ => diagnostics thenBranch ++ diagnostics elseBranch
  | whileLoop _ body _ => diagnostics body
  | function _ _ body _ => diagnostics body
  | classDecl _ methods _ => diagnosticsOf methods
  | _ => []

def diagnosticsOf : List Node → List Diagnostic
  | [] => []
  | n :: ns => diagnostics n ++ diagnosticsOf ns

end

end LoxLang.Node
