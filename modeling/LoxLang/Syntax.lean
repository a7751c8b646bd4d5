import LoxLang.Value

/-!
# Syntax trees

One type for expressions, statements and what may stand where one of them is expected: a diagnostic of a step that
could not be read, nothing at all, or a bare text. The uses of names carry a resolved depth, which is absent until the
tree is resolved.
-/

namespace LoxLang

/-! ## Operators -/

/-- The operators in front of an operand; one that is not known negates. -/
inductive UnaryOp
  | not
  | negate
  | other (symbol : String)
deriving DecidableEq

inductive BinaryOp
  | equal | notEqual | greater | greaterEqual | less | lessEqual | add | subtract | multiply | divide
  | other (symbol : String)
deriving DecidableEq

/-- The operators that may leave their right operand alone; one that is not known acts as `and`. -/
inductive LogicalOp
  | and
  | or
  | other (symbol : String)
deriving DecidableEq

def UnaryOp.symbol : UnaryOp → String
  | not => "!"
  | negate => "-"
  | other symbol => symbol

def UnaryOp.ofSymbol : String → UnaryOp
  | "!" => not
  | "-" => negate
  | symbol => other symbol

def BinaryOp.symbol : BinaryOp → String
  | equal => "=="
  | notEqual => "!="
  | greater => ">"
  | greaterEqual => ">="
  | less => "<"
  | lessEqual => "<="
  | add => "+"
  | subtract => "-"
  | multiply => "*"
  | divide => "/"
  | other symbol => symbol

def BinaryOp.ofSymbol : String → BinaryOp
  | "==" => equal
  | "!=" => notEqual
  | ">" => greater
  | ">=" => greaterEqual
  | "<" => less
  | "<=" => lessEqual
  | "+" => add
  | "-" => subtract
  | "*" => multiply
  | "/" => divide
  | symbol => other symbol

def LogicalOp.symbol : LogicalOp → String
  | and => "and"
  | or => "or"
  | other symbol => symbol

def LogicalOp.ofSymbol : String → LogicalOp
  | "and" => and
  | "or" => or
  | symbol => other symbol

/-! ## Nodes -/

/-- The number of scopes between a use and the scope that declares its name; none where the name has to be searched
for when the use is evaluated. -/
abbrev Depth := Option Nat

inductive Node
  | literal (value : Value) (line : Line)
  | grouping (inner : Node) (line : Line)
  | unary (op : UnaryOp) (operand : Node) (line : Line)
  | binary (op : BinaryOp) (left right : Node) (line : Line)
  | logical (op : LogicalOp) (left right : Node) (line : Line)
  | var (name : String) (line : Line) (depth : Depth)
  | assign (name : String) (value : Node) (line : Line) (depth : Depth)
  | this (line : Line) (depth : Depth)
  | call (callee : Node) (arguments : List Node) (line : Line)
  | get (object : Node) (name : String) (line : Line)
  | set (object : Node) (name : String) (value : Node) (line : Line)
  | block (steps : List Node) (line : Line)
  | letDecl (name : String) (initializer : Node) (line : Line)
  | print (expression : Node) (line : Line)
  /-- The `else` branch may be `absent`. -/
  | ifElse (condition thenBranch elseBranch : Node) (line : Line)
  | whileLoop (condition body : Node) (line : Line)
  | function (name : String) (params : List String) (body : Node) (line : Line)
  /-- The value may be `absent`. -/
  | returnStep (value : Node) (line : Line)
  /-- The methods are `function` nodes. -/
  | classDecl (name : String) (methods : List Node) (line : Line)
  /-- A step that could not be read. -/
  | error (d : Diagnostic)
  /-- The place of a branch or a value that is left out. -/
  | absent
  /-- A text where a node is expected. -/
  | bare (text : String)

instance : Inhabited Node := ⟨.absent⟩

namespace Node

/-- The name of the node's shape. -/
def shape : Node → String
  | literal .. => "Literal"
  | grouping .. => "Grouping"
  | unary .. => "Unary"
  | binary .. => "Binary"
  | logical .. => "Logical"
  | var .. => "Variable"
  | assign .. => "Assign"
  | this .. => "This"
  | call .. => "Call"
  | get .. => "Get"
  | set .. => "Set"
  | block .. => "Block"
  | letDecl .. => "Var"
  | print .. => "Print"
  | ifElse .. => "If"
  | whileLoop .. => "While"
  | function .. => "Function"
  | returnStep .. => "Return"
  | classDecl .. => "Class"
  | error d => d.phase.family
  | absent => "NoneType"
  | bare _ => "str"

def isAbsent : Node → Bool
  | absent => true
  | _ => false

mutual

/-- The values of the literals in a tree, in the order of the text. -/
def literals : Node → List Value
  | literal value _ => [value]
  | grouping inner _ | unary _ inner _ | assign _ inner _ _ | get inner _ _ | letDecl _ inner _ | print inner _
  | function _ _ inner _ | returnStep inner _ => literals inner
  | binary _ left right _ | logical _ left right _ | set left _ right _ | whileLoop left right _ =>
    literals left ++ literals right
  | ifElse condition thenBranch elseBranch _ => literals condition ++ literals thenBranch ++ literals elseBranch
  | call callee arguments _ => literals callee ++ literalsOf arguments
  | block steps _ | classDecl _ steps _ => literalsOf steps
  | var .. | this .. | error _ | absent | bare _ => []

def literalsOf : List Node → List Value
  | [] => []
  | n :: ns => literals n ++ literalsOf ns

end

/-- Whether the values in a tree can be shown. -/
def hasText (n : Node) : Bool := Value.haveText n.literals

/-- The name of a declared function. -/
def functionName? : Node → Option String
  | function name .. => some name
  | _ => none

end Node

end LoxLang
