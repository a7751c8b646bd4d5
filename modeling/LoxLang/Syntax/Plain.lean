import LoxLang.Syntax

/-!
# Trees as plain data

A node is a record of its shape and its parts; a block names its line before its steps.
-/

namespace LoxLang.Node

/-- The record of a node with the given parts. -/
def record (shape : String) (parts : List (String × Data)) : Data := .record (("node", .text shape) :: parts)

mutual

def data : Node → Data
  | literal value line => record "Literal" [("value", value.data), ("line", .integer line)]
  | grouping inner line => record "Grouping" [("expression", data inner), ("line", .integer line)]
  | unary op operand line =>
    record "Unary" [("operator", .text op.symbol), ("operand", data operand), ("line", .integer line)]
  | binary op left right line =>
    record "Binary"
      [("operator", .text op.symbol), ("left", data left), ("right", data right), ("line", .integer line)]
  | logical op left right line =>
    record "Logical"
      [("operator", .text op.symbol), ("left", data left), ("right", data right), ("line", .integer line)]
  | var name line _ => record "Variable" [("name", .text name), ("line", .integer line)]
  | assign name value line _ =>
    record "Assign" [("name", .text name), ("value", data value), ("line", .integer line)]
  | this line _ => record "This" [("line", .integer line)]
  | call callee arguments line =>
    record "Call" [("callee", data callee), ("arguments", .list (dataOf arguments)), ("line", .integer line)]
  | get object name line => record "Get" [("object", data object), ("name", .text name), ("line", .integer line)]
  | set object name value line =>
    record "Set" [("object", data object), ("name", .text name), ("value", data value), ("line", .integer line)]
  | block steps line => record "Block" [("line", .integer line), ("steps", .list (dataOf steps))]
  | letDecl name initializer line =>
    record "Var" [("name", .text name), ("initializer", data initializer), ("line", .integer line)]
  | print expression line => record "Print" [("expression", data expression), ("line", .integer line)]
  | ifElse condition thenBranch elseBranch line =>
    record "If"
      [("condition", data condition), ("then_branch", data thenBranch), ("else_branch", data elseBranch),
        ("line", .integer line)]
  | whileLoop condition body line =>
    record "While" [("condition", data condition), ("body", data body), ("line", .integer line)]
  | function name params body line =>
    record "Function"
      [("name", .text name), ("params", .ofTexts params), ("body", data body), ("line", .integer line)]
  | returnStep value line => record "Return" [("value", data value), ("line", .integer line)]
  | classDecl name methods line =>
    record "Class" [("name", .text name), ("methods", .list (dataOf methods)), ("line", .integer line)]
  | error d => (Value.diagnostic d).data
  | absent => .null
  | bare text => .text text

def dataOf : List Node → List Data
  | [] => []
  | n :: ns => data n :: dataOf ns

end

end LoxLang.Node
