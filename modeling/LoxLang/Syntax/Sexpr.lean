import LoxLang.Syntax

/-!
# Trees as S-expressions

Every node is an operator and its operands between parentheses. Steps of a block and methods of a class stand on lines
of their own, indented by one level more than the brace or the parenthesis around them.
-/

namespace LoxLang.Node

/-- Words between parentheses. -/
def form (words : List String) : String := "(" ++ " ".intercalate words ++ ")"

/-- The text of a block whose steps are these lines. -/
def braced (width : Nat) (level : Int) (lines : List String) : String :=
  if lines.isEmpty then "\x7b\x7d"
  else "\x7b\n" ++ "\n".intercalate lines ++ "\n" ++ Value.margin width level ++ "\x7d"

mutual

/-- The node at a nesting level, without the margin of its own line. -/
def sexpr (width : Nat) (level : Int) : Node → String
  | literal value _ => value.shown width level
  | grouping inner _ => form ["group", sexpr width level inner]
  | unary op operand _ => form [op.symbol, sexpr width level operand]
  | binary op left right _ => form [op.symbol, sexpr width level left, sexpr width level right]
  | logical op left right _ => form [op.symbol, sexpr width level left, sexpr width level right]
  | var name .. => name
  | assign name value .. => form ["=", name, sexpr width level value]
  | this .. => "this"
  | call callee arguments _ => form ("call" :: sexpr width level callee :: sexprs width level arguments)
  | get object name _ => form [".", sexpr width level object, name]
  | set object name value _ =>
    form ["=", form [".", sexpr width level object, name], sexpr width level value]
  | block steps _ => braced width level (sexprLines width (level + 1) steps)
  | letDecl name initializer _ => form ["let", name, sexpr width level initializer]
  | print expression _ => form ["print", sexpr width level expression]
  | ifElse condition thenBranch elseBranch _ =>
    form (["if", sexpr width level condition, sexpr width level thenBranch]
      ++ if elseBranch.isAbsent then [] else ["else", sexpr width level elseBranch])
  | whileLoop condition body _ => form ["while", sexpr width level condition, sexpr width level body]
  | function name params body _ => form ["fun", name, form params, sexpr width level body]
  | returnStep value _ => form ("return" :: if value.isAbsent then [] else [sexpr width level value])
  | classDecl name methods _ =>
    if methods.isEmpty then form ["class", name]
    else "(class " ++ name ++ "\n" ++ "\n".intercalate (sexprLines width (level + 1) methods) ++ ")"
  | error d => d.shown
  | absent => "nil"
  | bare text => "\"" ++ text ++ "\""

def sexprs (width : Nat) (level : Int) : List Node → List String
  | [] => []
  | n :: ns => sexpr width level n :: sexprs width level ns

/-- Steps as lines with the margin of the level. -/
def sexprLines (width : Nat) (level : Int) : List Node → List String
  | [] => []
  | n :: ns => (Value.margin width level ++ sexpr width level n) :: sexprLines width level ns

end

/-- Steps, each on lines of its own. -/
def sexprOf (width : Nat) (level : Int) (steps : List Node) : String := "\n".intercalate (sexprLines width level steps)

end LoxLang.Node
