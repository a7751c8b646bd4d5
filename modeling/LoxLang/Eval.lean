import LoxLang.Machine
import LoxLang.Value.Arithmetic

/-!
# Evaluation

Execution of steps and evaluation of expressions in a frame. A use with a resolved depth goes to the frame that many
frames outwards; one without is searched for along the chain.

The rules for a node refer to its parts through an `Evaluator`, so that none of them is recursive: `executeNode` and
`evaluateNode` say what a node does, given an evaluator for everything inside it, for the bodies of functions and for
the next round of a loop. `Evaluator.ofFuel` ties the knot for nesting up to a bound.
-/

namespace LoxLang

/-- How a step ends: the next one follows, or the function around it returns. -/
inductive Signal
  | proceed
  | returnNil
  | returnValue (v : Value)

namespace Signal

def isReturn : Signal → Bool
  | proceed => false
  | _ => true

/-- What the function around the step answers with. -/
def value : Signal → Value
  | returnValue v => v
  | _ => .nil

def label : Signal → String
  | proceed => "no-return"
  | returnNil => "return"
  | returnValue _ => "return-value"

/-- The signal in debugging output. -/
def debugText (s : Signal) : String :=
  match s with
  | returnValue v => "BlockReturn(return " ++ v.debugText ++ ")"
  | _ => "BlockReturn(" ++ s.label ++ ")"

end Signal

namespace Exec

variable {α : Type}

/-- The answer of an operator, or why it has none. -/
def orFail (line : Line) : Except OperatorFault α → Exec α
  | .ok a => pure a
  | .error (.cause cause) => failAt line cause
  | .error .outOfRange => throw .outOfRange

/-- What a use of a name means, by its depth if it has one. -/
def readName (scope : FrameId) (name : String) (line : Line) : Depth → Exec Value
  | some d => lookupAt scope d name line
  | none => lookup scope name line

/-- Write to a name, by its depth if the use has one. -/
def writeName (scope : FrameId) (name : String) (v : Value) (line : Line) : Depth → Exec Value
  | some d => assignAt scope d name v
  | none => assign scope name v line

/-! ## Properties -/

/-- The instance whose property is asked for. -/
def receiver (v : Value) (line : Line) : Exec ObjectId :=
  match v with
  | .object _ o => pure o
  | .classRef _ => failAt line .propertyOfClass
  | _ => failAt line (.propertyOf v.kind)

/-- A field, or else a method closed over the instance. -/
def property (v : Value) (o : ObjectId) (name : String) (line : Line) : Exec Value := do
  let object ← inspect (·.object o)
  match object.fields.get? name with
  | some field => pure field
  | none =>
    match object.info.method? name with
    | some c =>
      let bound ← bindMethod c v
      return .function (← inspect (·.closure bound)).name bound
    | none => failAt line (.unknownProperty name)

/-! ## Callable values -/

/-- The name of a value that can be called. -/
def callableName? : Value → Option String
  | .function name _ => some name
  | .native name _ _ => some name
  | .classRef info => some info.name
  | _ => none

/-- The name under which a call is shown, if the value can be called with so many arguments. -/
def checkCallable (callee : Value) (received : Nat) (line : Line) : Exec String := do
  match callee, callableName? callee with
  | .object .., _ => failAt line .callInstance
  | _, none => failAt line (.notCallable callee)
  | _, some name =>
    let expected ← inspect (·.arity callee)
    if received = expected then pure name else failAt line (.wrongArity expected received)

/-- Bind the parameters of a function in the frame of a call. -/
def bindParameters (f : FrameId) (line : Line) : List String → List Value → Exec Unit
  | p :: ps, v :: vs => do
    define f p v line
    bindParameters f line ps vs
  | _, _ => pure ()

/-- Answer a call with a host's reply. -/
def acceptReply (name : String) (line : Line) : HostReply → Exec Value
  | .value v => pure v
  | .failure text => failAt line (.nativeFailed name text)
  | .raised d => if d.phase = .runtime then failAt d.line (.raised d.message) else throw (.raised d)
  | .overflow => throw .overflow

/-- Print a value for a native of the name. -/
def printLine (name : String) (v : Value) (line : Line) : Exec Value := do
  if v.hasText then
    emit v.printed 0
    pure .nil
  else failAt line (.nativeFailed name Fault.outOfRange.message)

def callService (name : String) (arguments : List Value) (line : Line) : Service → Exec Value
  | .clock => readClock
  | .println => printLine name (arguments.headD .nil) line
  | .argumentCount => pure (.number (Float.ofNat arguments.length))
  | .host index => do
    let reply ← askHost index ⟨name, arguments⟩
    acceptReply name line reply

/-! ## Declarations -/

/-- Declare a function in a frame. -/
def declareFunction (scope : FrameId) (name : String) (params : List String) (body : Node) (line : Line) :
    Exec Unit := do
  let c ← newClosure ⟨name, params, body, scope, false⟩
  define scope name (.function name c) line

/-- The closures of methods declared in a frame. -/
def methodTable (scope : FrameId) : List Node → Exec (List (String × ClosureId))
  | [] => pure []
  | .function name params body _ :: methods => do
    let c ← newClosure ⟨name, params, body, scope, name == "init"⟩
    return (name, c) :: (← methodTable scope methods)
  | _ :: methods => methodTable scope methods

def declareClass (scope : FrameId) (name : String) (methods : List Node) (line : Line) : Exec Unit := do
  let table ← methodTable scope methods
  define scope name (.classRef ⟨name, table⟩) line

end Exec

open Exec

/-- How nodes are executed and evaluated. -/
structure Evaluator where
  execute : FrameId → Node → Exec Signal
  evaluate : FrameId → Node → Exec Value

namespace Evaluator

/-- The evaluator that gives up at once. -/
def exhausted : Evaluator := ⟨fun _ _ => throw .outOfFuel, fun _ _ => throw .outOfFuel⟩

section Rules

variable (e : Evaluator)

/-- Execute steps in order, up to the first that returns. -/
def executeAll (scope : FrameId) : List Node → Exec Signal
  | [] => pure .proceed
  | n :: ns => do
    let signal ← e.execute scope n
    if signal.isReturn then pure signal else executeAll scope ns

/-- Evaluate expressions from left to right. -/
def evaluateAll (scope : FrameId) : List Node → Exec (List Value)
  | [] => pure []
  | n :: ns => do
    let v ← e.evaluate scope n
    let vs ← evaluateAll scope ns
    pure (v :: vs)

/-! ## Calls -/

/-- Run the body of a function in a frame of its own. -/
def applyClosure (c : ClosureId) (arguments : List Value) (line : Line) : Exec Value := do
  let closure ← inspect (·.closure c)
  let f ← newFrame (some closure.frame) []
  bindParameters f line closure.params arguments
  let signal ← e.execute f closure.body
  if closure.isInitializer then lookupAt closure.frame 0 "this" line else pure signal.value

/-- Make an instance, and run its initializer if there is one. -/
def construct (info : ClassInfo) (arguments : List Value) (line : Line) : Exec Value := do
  let made := Value.object info.name (← newObject info)
  match Store.initializer? info with
  | none => pure made
  | some c =>
    let _ ← applyClosure e (← bindMethod c made) arguments line
    pure made

/-- The answer of a callable value whose call is already active. -/
def apply (callee : Value) (arguments : List Value) (line : Line) : Exec Value :=
  match callee with
  | .function _ c => applyClosure e c arguments line
  | .native name _ service => callService name arguments line service
  | .classRef info => construct e info arguments line
  | _ => failAt line (.notCallable callee)

/-- Call a value under a name. The call stays active if it faults. -/
def call (name : String) (callee : Value) (arguments : List Value) (line : Line) : Exec Value := do
  enterCall ⟨name, arguments, line⟩
  let result ← apply e callee arguments line
  leaveCall
  pure result

/-! ## Nodes -/

def evaluateNode (scope : FrameId) (expression : Node) : Exec Value :=
  match expression with
  | .literal value _ => pure value
  | .grouping inner _ => e.evaluate scope inner
  | .var name line depth => readName scope name line depth
  | .this line depth => readName scope "this" line depth
  | .assign name value line depth => do
    let v ← e.evaluate scope value
    writeName scope name v line depth
  | .unary op operand line => do
    let v ← e.evaluate scope operand
    orFail line (Value.unary op v)
  | .logical op left right _ => do
    let v ← e.evaluate scope left
    if Value.decides op v then pure v else e.evaluate scope right
  | .binary op left right line => do
    let a ← e.evaluate scope left
    let b ← e.evaluate scope right
    orFail line (Value.binary op a b)
  | .call callee arguments line => do
    let f ← e.evaluate scope callee
    let name ← checkCallable f arguments.length line
    let values ← evaluateAll e scope arguments
    call e name f values line
  | .get object name line => do
    let v ← e.evaluate scope object
    let o ← receiver v line
    property v o name line
  | .set object name value line => do
    let target ← e.evaluate scope object
    let o ← receiver target line
    let v ← e.evaluate scope value
    update (·.setField o name v)
    pure v
  | .block .. | .letDecl .. | .print .. | .ifElse .. | .whileLoop .. | .function .. | .returnStep .. | .classDecl ..
  | .error _ | .absent | .bare _ => throw (.notAnExpression expression.shape)

def executeNode (scope : FrameId) (step : Node) : Exec Signal :=
  match step with
  | .block steps _ => do
    let inner ← newFrame (some scope) []
    executeAll e inner steps
  | .letDecl name initializer line => do
    let v ← e.evaluate scope initializer
    define scope name v line
    pure .proceed
  | .function name params body line => do
    declareFunction scope name params body line
    pure .proceed
  | .classDecl name methods line => do
    declareClass scope name methods line
    pure .proceed
  | .print expression line => do
    let v ← e.evaluate scope expression
    let text ← textOf v
    emit text line
    pure .proceed
  | .ifElse condition thenBranch elseBranch _ => do
    let v ← e.evaluate scope condition
    if v.truthy then e.execute scope thenBranch
    else if elseBranch.isAbsent then pure .proceed
    else e.execute scope elseBranch
  | .whileLoop condition body _ => do
    let v ← e.evaluate scope condition
    if v.truthy then
      let signal ← e.execute scope body
      if signal.isReturn then pure signal else e.execute scope step
    else pure .proceed
  | .returnStep value _ => do
    if value.isAbsent then pure .returnNil
    else
      let v ← e.evaluate scope value
      pure (.returnValue v)
  | .literal .. | .grouping .. | .unary .. | .binary .. | .logical .. | .var .. | .assign .. | .this ..
  | .call .. | .get .. | .set .. => do
    let _ ← e.evaluate scope step
    pure .proceed
  | .error d => throw (if d.phase = .parse then .raised d else .notAStep d.phase.family)
  | .absent | .bare _ => throw (.notAStep step.shape)

end Rules

/-- The evaluator that gives up where nodes, calls and rounds of loops nest more than `fuel` deep. -/
def ofFuel : (fuel : Nat) → Evaluator
  | 0 => exhausted
  | fuel + 1 =>
    ⟨fun scope n => executeNode (ofFuel fuel) scope n, fun scope n => evaluateNode (ofFuel fuel) scope n⟩

end Evaluator

namespace Exec

/-- How deeply a run may nest before it is given up; no run that ends comes near it. -/
def budget : Nat := Nat.pow 2 62

/-- Execute the steps of a program in the global frame. -/
def program (fuel : Nat) (steps : List Node) : Exec Signal := (Evaluator.ofFuel fuel).executeAll Store.root steps

/-- Evaluate an expression in the global frame. -/
def expression (fuel : Nat) (n : Node) : Exec Value := (Evaluator.ofFuel fuel).evaluate Store.root n

end Exec

end LoxLang
