import LoxLang.Proofs.Steps

/-!
# The calls on the way

Which calls a computation enters can be told from the program, whatever the machine keeps of them. A `CallLog` lists
them in the order in which they are entered, each with its callee, its arguments, its line, and whether it returned. The
rules below follow those of `Evaluator`. Only a call expression enters a call, and it does so when its callee turned
out to take so many arguments and all of these have a value; what an instance's initializer does belongs to the call of
the class.
-/

namespace LoxLang

open Exec

/-- The name of a callee. -/
def Exec.calledName (callee : Value) : String := (callableName? callee).getD ""

/-- A call that was entered. -/
structure CallRecord where
  callee : Value
  arguments : List Value
  line : Line
  returned : Bool

/-- The call while it is active. -/
def CallRecord.activation (r : CallRecord) : Activation := ⟨calledName r.callee, r.arguments, r.line⟩

/-- The calls that were entered and have not returned, the outermost first. -/
def unreturned (records : List CallRecord) : List Activation :=
  (records.filter fun r => !r.returned).map CallRecord.activation

theorem unreturned_append (records more : List CallRecord) :
    unreturned (records ++ more) = unreturned records ++ unreturned more := by
  simp [unreturned]

/-- Whether a computation has a result. -/
def Exec.returns {α : Type} (x : Exec α) (m : Machine) : Bool :=
  match x m with
  | .ok .. => true
  | .error .. => false

/-- The calls that a computation enters on a machine, in the order of time. -/
def CallLog : Type := Machine → List CallRecord

namespace CallLog

/-- No calls. -/
def none : CallLog := fun _ => []

/-- The calls of what follows the result of a computation. -/
def after {α : Type} (x : Exec α) (next : α → CallLog) : CallLog := fun m =>
  match x m with
  | .ok a m₁ => next a m₁
  | .error .. => []

instance : Append CallLog := ⟨fun log log' m => log m ++ log' m⟩

theorem append_apply (log log' : CallLog) (m : Machine) : (log ++ log') m = log m ++ log' m := rfl

end CallLog

open CallLog

/-- The calls that the execution and the evaluation of nodes enter. -/
structure CallLogs where
  execute : FrameId → Node → CallLog
  evaluate : FrameId → Node → CallLog

namespace CallLogs

section Rules

variable (e : Evaluator) (logs : CallLogs)

def executeAll (scope : FrameId) : List Node → CallLog
  | [] => none
  | n :: ns => logs.execute scope n ++ after (e.execute scope n) fun signal =>
      if signal.isReturn then none else executeAll scope ns

def evaluateAll (scope : FrameId) : List Node → CallLog
  | [] => none
  | n :: ns => logs.evaluate scope n ++ after (e.evaluate scope n) fun _ => evaluateAll scope ns

def applyClosure (c : ClosureId) (arguments : List Value) (line : Line) : CallLog :=
  after (inspect (·.closure c)) fun closure =>
    after (newFrame (some closure.frame) []) fun f =>
      after (bindParameters f line closure.params arguments) fun _ => logs.execute f closure.body

/-- The calls within a call. A native enters none. -/
def apply (callee : Value) (arguments : List Value) (line : Line) : CallLog :=
  match callee with
  | .function _ c => applyClosure logs c arguments line
  | .classRef info =>
    after (newObject info) fun o =>
      match Store.initializer? info with
      | .none => none
      | some c => after (bindMethod c (.object info.name o)) fun bound => applyClosure logs bound arguments line
  | _ => none

/-- A call, and then the calls within it. A call that a closed log answers is not entered. -/
def call (callee : Value) (arguments : List Value) (line : Line) : CallLog := fun m =>
  if m.log.refusesNext then []
  else ⟨callee, arguments, line, returns (e.call (calledName callee) callee arguments line) m⟩ ::
    after (enterCall ⟨calledName callee, arguments, line⟩) (fun _ => apply logs callee arguments line) m

def evaluateNode (scope : FrameId) (expression : Node) : CallLog :=
  match expression with
  | .grouping inner _ => logs.evaluate scope inner
  | .assign _ value _ _ => logs.evaluate scope value
  | .unary _ operand _ => logs.evaluate scope operand
  | .logical op left right _ =>
    logs.evaluate scope left ++ after (e.evaluate scope left) fun v =>
      if Value.decides op v then none else logs.evaluate scope right
  | .binary _ left right _ =>
    logs.evaluate scope left ++ after (e.evaluate scope left) fun _ => logs.evaluate scope right
  | .call callee arguments line =>
    logs.evaluate scope callee ++ after (e.evaluate scope callee) fun f =>
      after (checkCallable f arguments.length line) fun _ =>
        evaluateAll e logs scope arguments ++ after (e.evaluateAll scope arguments) fun values =>
          call e logs f values line
  | .get object _ _ => logs.evaluate scope object
  | .set object _ value line =>
    logs.evaluate scope object ++ after (e.evaluate scope object) fun target =>
      after (receiver target line) fun _ => logs.evaluate scope value
  | _ => none

def executeNode (scope : FrameId) (step : Node) : CallLog :=
  match step with
  | .block steps _ => after (newFrame (some scope) []) fun inner => executeAll e logs inner steps
  | .letDecl _ initializer _ => logs.evaluate scope initializer
  | .print expression _ => logs.evaluate scope expression
  | .ifElse condition thenBranch elseBranch _ =>
    logs.evaluate scope condition ++ after (e.evaluate scope condition) fun v =>
      if v.truthy then logs.execute scope thenBranch
      else if elseBranch.isAbsent then none
      else logs.execute scope elseBranch
  | .whileLoop condition body _ =>
    logs.evaluate scope condition ++ after (e.evaluate scope condition) fun v =>
      if v.truthy then
        logs.execute scope body ++ after (e.execute scope body) fun signal =>
          if signal.isReturn then none else logs.execute scope step
      else none
  | .returnStep value _ => if value.isAbsent then none else logs.evaluate scope value
  | .literal .. | .grouping .. | .unary .. | .binary .. | .logical .. | .var .. | .assign .. | .this ..
  | .call .. | .get .. | .set .. => logs.evaluate scope step
  | .function .. | .classDecl .. | .error _ | .absent | .bare _ => none

end Rules

/-- The rules tied together as in `Evaluator.ofFuel`. -/
def ofFuel : (fuel : Nat) → CallLogs
  | 0 => ⟨fun _ _ => none, fun _ _ => none⟩
  | fuel + 1 =>
    ⟨fun scope n => executeNode (Evaluator.ofFuel fuel) (ofFuel fuel) scope n,
      fun scope n => evaluateNode (Evaluator.ofFuel fuel) (ofFuel fuel) scope n⟩

end CallLogs

end LoxLang
