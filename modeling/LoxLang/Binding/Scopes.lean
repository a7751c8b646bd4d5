import LoxLang.Diagnostic
import LoxLang.Table

/-!
# Static scopes

The scopes around a place in a program, the innermost first. A name in a scope is ready once its declaration is over;
before that its initializer is being resolved. The last scope is the global one.
-/

namespace LoxLang

/-- The names of one scope, and whether each is ready. -/
abbrev Scope := Table Bool

/-- Scopes, the innermost first. -/
abbrev Scopes := List Scope

/-- Why a program is rejected before it runs. -/
inductive ResolveCause
  | alreadyDeclared (name : String)
  | readInInitializer (name : String)
  | thisOutsideClass

namespace ResolveCause

def message : ResolveCause → String
  | alreadyDeclared name => "Variable " ++ name ++ " already exists in this scope"
  | readInInitializer name => "Can't read local variable (" ++ name ++ ") in its own initializer"
  | thisOutsideClass => "Can't use 'this' outside of a class"

def diagnostic (line : Line) (cause : ResolveCause) : Diagnostic := ⟨.resolve, line, cause.message⟩

end ResolveCause

namespace Scopes

/-- The global scope alone. -/
def initial : Scopes := [[]]

/-- Inside a new scope. -/
def enter (s : Scopes) : Scopes := [] :: s

/-- Outside the innermost scope. -/
def leave (s : Scopes) : Scopes := s.tail

def innermost (s : Scopes) : Scope := s.headD []

/-- Write a name into the innermost scope. -/
def mark (s : Scopes) (name : String) (ready : Bool) : Scopes :=
  match s with
  | [] => []
  | scope :: outer => scope.set name ready :: outer

/-- Declare a name that the innermost scope does not hold yet. It is not ready. -/
def declare (s : Scopes) (name : String) : Except ResolveCause Scopes :=
  if s.innermost.contains name then .error (.alreadyDeclared name) else .ok (s.mark name false)

/-- Make a name of the innermost scope ready. -/
def define (s : Scopes) (name : String) : Scopes := s.mark name true

/-- How many scopes lie between the innermost one and the nearest that declares the name. -/
def depthOf? (s : Scopes) (name : String) : Option Nat := s.findIdx? (·.contains name)

/-- Whether the innermost scope holds the name and its declaration is not over. -/
def isPending (s : Scopes) (name : String) : Bool := s.innermost.get? name == some false

/-! ## Requests -/

/-- A request to a stack of scopes. -/
inductive Request
  | enter
  | leave
  | declare (name : String) (line : Line)
  | define (name : String)
  | depthOf (name : String)
  | innermost

inductive Answer
  | done
  | depth (d : Option Nat)
  | scope (s : Scope)

inductive Refusal
  /-- There is no scope to leave. -/
  | nothingToLeave
  /-- There is no innermost scope. -/
  | noScope
  | rejected (d : Diagnostic)

def Refusal.message : Refusal → String
  | nothingToLeave => "pop from empty list"
  | noScope => "list index out of range"
  | rejected d => d.message

/-- The answer to a request, and the scopes after it. -/
def answer (s : Scopes) : Request → Except Refusal (Answer × Scopes)
  | .enter => .ok (.done, s.enter)
  | .leave => if s.isEmpty then .error .nothingToLeave else .ok (.done, s.leave)
  | .declare name line =>
    if s.isEmpty then .error .noScope
    else match s.declare name with
      | .ok after => .ok (.done, after)
      | .error cause => .error (.rejected (cause.diagnostic line))
  | .define name => if s.isEmpty then .error .noScope else .ok (.done, s.define name)
  | .depthOf name => .ok (.depth (s.depthOf? name), s)
  | .innermost => if s.isEmpty then .error .noScope else .ok (.scope s.innermost, s)

end Scopes

end LoxLang
