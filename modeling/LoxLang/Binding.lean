import LoxLang.Binding.Scopes
import LoxLang.Syntax

/-!
# Resolution

`resolve` gives every use of a name the number of scopes between it and the scope that declares the name, or rejects the
program. It goes through a program in the order of the text: a use sees the declarations in front of it.

The scopes are those of a run: the global one, one for each block, one for the parameters around the body of a function,
and one around the methods of a class, which holds `this`.
-/

namespace LoxLang

/-- Why resolution stops. -/
inductive ResolveFault
  | rejected (line : Line) (cause : ResolveCause)
  /-- A step that could not be read. -/
  | unread (d : Diagnostic)
  /-- Something of this shape that is no node. -/
  | notANode (shape : String)

def ResolveFault.message : ResolveFault → String
  | rejected _ cause => cause.message
  | unread d => d.message
  | notANode shape => "Cannot resolve node of type " ++ shape

/-- Resolution threads the scopes through a program. -/
abbrev Resolve (α : Type) : Type := StateT Scopes (Except ResolveFault) α

namespace Resolve

def reject {α : Type} (line : Line) (cause : ResolveCause) : Resolve α := throw (.rejected line cause)

def declare (name : String) (line : Line) : Resolve Unit := do
  match (← get).declare name with
  | .ok after => set after
  | .error cause => reject line cause

def define (name : String) : Resolve Unit := modify (·.define name)

def depthOf (name : String) : Resolve Depth := do return (← get).depthOf? name

/-- Refuse to read a name whose declaration is not over. -/
def checkReady (name : String) (line : Line) : Resolve Unit := do
  if (← get).isPending name then reject line (.readInInitializer name)

def checkInClass (inClass : Bool) (line : Line) : Resolve Unit :=
  if inClass then pure () else reject line .thisOutsideClass

/-- Resolve something inside a new scope. -/
def inScope {α : Type} (body : Resolve α) : Resolve α := do
  modify Scopes.enter
  let a ← body
  modify Scopes.leave
  pure a

def declareParameter (line : Line) (name : String) : Resolve Unit := do
  declare name line
  define name

end Resolve

namespace Node

open Resolve

mutual

/-- A node with the depths of its uses; `inClass` says whether a class is around it. -/
def resolve (inClass : Bool) : Node → Resolve Node
  | error d => throw (if d.phase = .parse then .unread d else .notANode d.phase.family)
  | absent => pure absent
  | literal value line => pure (literal value line)
  | bare text => throw (.notANode (bare text).shape)
  | block steps line => do
    let steps ← inScope (resolveAll inClass steps)
    pure (block steps line)
  | letDecl name initializer line => do
    declare name line
    let initializer ← resolve inClass initializer
    define name
    pure (letDecl name initializer line)
  | function name params body line => do
    declare name line
    define name
    let body ← inScope (do
      params.forM (declareParameter line)
      resolve inClass body)
    pure (function name params body line)
  | classDecl name methods line => do
    declare name line
    define name
    let methods ← inScope (do
      define "this"
      resolveMethods methods)
    pure (classDecl name methods line)
  | print expression line => do
    let expression ← resolve inClass expression
    pure (print expression line)
  | ifElse condition thenBranch elseBranch line => do
    let condition ← resolve inClass condition
    let thenBranch ← resolve inClass thenBranch
    let elseBranch ← resolve inClass elseBranch
    pure (ifElse condition thenBranch elseBranch line)
  | whileLoop condition body line => do
    let condition ← resolve inClass condition
    let body ← resolve inClass body
    pure (whileLoop condition body line)
  | returnStep value line => do
    let value ← resolve inClass value
    pure (returnStep value line)
  | var name line _ => do
    checkReady name line
    pure (var name line (← depthOf name))
  | assign name value line _ => do
    let value ← resolve inClass value
    pure (assign name value line (← depthOf name))
  | this line _ => do
    checkInClass inClass line
    pure (this line (← depthOf "this"))
  | grouping inner line => do
    let inner ← resolve inClass inner
    pure (grouping inner line)
  | unary op operand line => do
    let operand ← resolve inClass operand
    pure (unary op operand line)
  | binary op left right line => do
    let left ← resolve inClass left
    let right ← resolve inClass right
    pure (binary op left right line)
  | logical op left right line => do
    let left ← resolve inClass left
    let right ← resolve inClass right
    pure (logical op left right line)
  | call callee arguments line => do
    let callee ← resolve inClass callee
    let arguments ← resolveAll inClass arguments
    pure (call callee arguments line)
  | get object name line => do
    let object ← resolve inClass object
    pure (get object name line)
  | set object name value line => do
    let value ← resolve inClass value
    let object ← resolve inClass object
    pure (set object name value line)

def resolveAll (inClass : Bool) : List Node → Resolve (List Node)
  | [] => pure []
  | n :: ns => do
    let n ← resolve inClass n
    let ns ← resolveAll inClass ns
    pure (n :: ns)

/-- Methods are functions that declare no name of their own. -/
def resolveMethods : List Node → Resolve (List Node)
  | [] => pure []
  | function name params body line :: methods => do
    let body ← inScope (do
      params.forM (declareParameter line)
      resolve true body)
    let methods ← resolveMethods methods
    pure (function name params body line :: methods)
  | n :: _ => throw (.notANode n.shape)

end

end Node

/-- The steps of a program with the depths of their uses. -/
def resolve (steps : List Node) : Except ResolveFault (List Node) :=
  (·.1) <$> (Node.resolveAll false steps).run Scopes.initial

end LoxLang
