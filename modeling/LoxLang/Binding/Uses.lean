import LoxLang.Binding

/-!
# The uses of names

The resolved uses in a tree, in the order in which resolution meets them, and the table that lists them by line.
-/

namespace LoxLang

/-- A use of a name with a known depth. -/
structure Use where
  name : String
  line : Line
  shape : String
  depth : Nat

namespace Use

def data (u : Use) : Data :=
  .record [("name", .text u.name), ("line", .integer u.line), ("node", .text u.shape), ("depth", .ofNat u.depth)]

/-- The use that a node is, if its depth is known. -/
def ofDepth (name : String) (line : Line) (shape : String) (depth : Depth) : List Use :=
  (depth.map fun d => ⟨name, line, shape, d⟩).toList

/-- Earlier lines first; on a line in the order of the names. -/
def precedes (a b : Use) : Bool := a.line < b.line || (a.line == b.line && decide (a.name ≤ b.name))

end Use

namespace Node

mutual

def uses : Node → List Use
  | var name line depth => Use.ofDepth name line "Variable" depth
  | this line depth => Use.ofDepth "this" line "This" depth
  | assign name value line depth => uses value ++ Use.ofDepth name line "Assign" depth
  | grouping inner _ => uses inner
  | unary _ operand _ => uses operand
  | binary _ left right _ | logical _ left right _ => uses left ++ uses right
  | call callee arguments _ => uses callee ++ usesOf arguments
  | get object _ _ => uses object
  | set object _ value _ => uses value ++ uses object
  | block steps _ => usesOf steps
  | letDecl _ initializer _ => uses initializer
  | print expression _ => uses expression
  | ifElse condition thenBranch elseBranch _ => uses condition ++ uses thenBranch ++ uses elseBranch
  | whileLoop condition body _ => uses condition ++ uses body
  | function _ _ body _ => uses body
  | returnStep value _ => uses value
  | classDecl _ methods _ => usesOf methods
  | literal .. | error _ | absent | bare _ => []

def usesOf : List Node → List Use
  | [] => []
  | n :: ns => uses n ++ usesOf ns

end

/-- The uses of a program by line and name; uses that agree in both stay in the order of resolution. -/
def useTable (steps : List Node) : List Use := (usesOf steps).mergeSort Use.precedes

end Node

end LoxLang
