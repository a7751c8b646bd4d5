import LoxLang.Syntax

/-!
# Trees in debugging output

The name of a node's shape with its parts between parentheses. Lines are left out, except at the uses of names, and the
bodies of functions are left out too.
-/

namespace LoxLang.Node

/-- A shape with its parts. -/
def application (shape : String) (parts : List String) : String := shape ++ "(" ++ ", ".intercalate parts ++ ")"

def bracketed (items : List String) : String := "[" ++ ", ".intercalate items ++ "]"

mutual

def debugText : Node → String
  | literal value _ => application "Literal" [value.debugText]
  | grouping inner _ => application "Grouping" [debugText inner]
  | unary op operand _ => application "Unary" [Text.quoted op.symbol, debugText operand]
  | binary op left right _ => application "Binary" [Text.quoted op.symbol, debugText left, debugText right]
  | logical op left right _ => application "Logical" [Text.quoted op.symbol, debugText left, debugText right]
  | var name line _ => application "Variable" [Text.quoted name, "line=" ++ toString line]
  | assign name value line _ => application "Assign" [Text.quoted name, debugText value, "line=" ++ toString line]
  | this line _ => application "This" ["line=" ++ toString line]
  | call callee arguments _ => application "Call" [debugText callee, bracketed (debugTexts arguments)]
  | get object name _ => application "Get" [debugText object, Text.quoted name]
  | set object name value _ => application "Set" [debugText object, Text.quoted name, debugText value]
  | block steps _ => application "Block" [bracketed (debugTexts steps)]
  | letDecl name initializer _ => application "Var" [Text.quoted name, debugText initializer]
  | print expression _ => application "Print" [debugText expression]
  | ifElse condition thenBranch elseBranch _ =>
    application "If" [debugText condition, debugText thenBranch, debugText elseBranch]
  | whileLoop condition body _ => application "While" [debugText condition, debugText body]
  | function name params _ _ => application "Function" [Text.quoted name, bracketed (params.map Text.quoted)]
  | returnStep value _ => application "Return" [debugText value]
  | classDecl name methods _ =>
    application "Class"
      [Text.quoted name, "methods=" ++ bracketed ((methods.filterMap functionName?).map Text.quoted)]
  | error d => d.debugText
  | absent => "None"
  | bare text => Text.quoted text

def debugTexts : List Node → List String
  | [] => []
  | n :: ns => debugText n :: debugTexts ns

end

end LoxLang.Node
