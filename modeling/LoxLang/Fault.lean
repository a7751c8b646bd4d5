import LoxLang.Value

/-!
# Faults

Why a running program fails, with the wording of each cause in `RuntimeCause.message`, and how else a computation may
end without a result.
-/

namespace LoxLang

/-- Why a program fails while it runs. -/
inductive RuntimeCause
  | alreadyDefined (name : String)
  | notFound (name : String)
  | notDefined (name : String)
  | negateNil
  | negate (v : Value)
  | incomparable (left right : Value)
  | unordered (left right : Value)
  | add (left right : Value)
  | subtract (left right : Value)
  | multiply (left right : Value)
  | divide (left right : Value)
  | unknownOperator (symbol : String)
  | propertyOfClass
  | propertyOf (kind : String)
  | unknownProperty (name : String)
  | callInstance
  | notCallable (v : Value)
  | wrongArity (expected received : Nat)
  | stdoutClosed
  | nativeFailed (name text : String)
  | stackOverflow
  /-- A host's own words. -/
  | raised (message : String)

namespace RuntimeCause

/-- The values that the message shows. -/
def values : RuntimeCause → List Value
  | negate v | notCallable v => [v]
  | incomparable l r | unordered l r | add l r | subtract l r | multiply l r | divide l r => [l, r]
  | _ => []

/-- Whether the message can be written. -/
def hasText (cause : RuntimeCause) : Bool := Value.haveText cause.values

def message : RuntimeCause → String
  | alreadyDefined name => "Variable " ++ name ++ " already defined"
  | notFound name => "Variable " ++ name ++ " not found in scope"
  | notDefined name => "Variable " ++ name ++ " not defined"
  | negateNil => "Tried to Negate Nil value"
  | negate v => "Tried to Negate invalid literal: " ++ v.inMessage
  | incomparable l r =>
    "Tried to compare invalid types to each other: " ++ l.inMessage ++ " and " ++ r.inMessage
  | unordered l r => "Cannot compare types " ++ l.inMessage ++ " and " ++ r.inMessage
  | add l r => "Cannot add values " ++ l.inMessage ++ " and " ++ r.inMessage
  | subtract l r => "Cannot subtract values " ++ l.inMessage ++ " and " ++ r.inMessage
  | multiply l r => "Cannot multiply types " ++ l.inMessage ++ " and " ++ r.inMessage
  | divide l r => "Cannot divide types " ++ l.inMessage ++ " and " ++ r.inMessage
  | unknownOperator symbol => "Unknown operator " ++ symbol
  | propertyOfClass => "Can't access properties on a class, only an instance"
  | propertyOf kind => "Can only access properties on an instance, found " ++ kind
  | unknownProperty name => "Unable to find property " ++ name
  | callInstance => "Can't call a class instance, only a class type"
  | notCallable v => "Expected function or method reference, found " ++ v.inMessage
  | wrongArity expected received =>
    "Expected " ++ toString expected ++ " arguments, received " ++ toString received
  | stdoutClosed => "Failed to access stdout"
  | nativeFailed name text => "Native function " ++ name ++ " failed: " ++ text
  | stackOverflow => "Stack overflow"
  | raised message => message

end RuntimeCause

/-- How a computation ends without a result. -/
inductive Fault
  | runtime (line : Line) (cause : RuntimeCause)
  /-- A diagnostic that is not one of the running program: that of a step that could not be read, or what a host or the
  log of calls answers with. -/
  | raised (d : Diagnostic)
  /-- More calls are active than there may be. -/
  | overflow
  /-- An integer is needed as a double, or as a text, and is beyond the range of doubles. -/
  | outOfRange
  /-- A use is resolved to a depth that its frame does not have. -/
  | shortChain (depth : Nat)
  /-- A step of this shape cannot be executed. -/
  | notAStep (shape : String)
  /-- A node of this shape cannot be evaluated. -/
  | notAnExpression (shape : String)
  /-- The run was given up. -/
  | outOfFuel

def Fault.message : Fault → String
  | runtime _ cause => cause.message
  | raised d => d.message
  | overflow => RuntimeCause.stackOverflow.message
  | outOfRange => "int too large to convert to float"
  | shortChain depth => "scope chain is shorter than resolved depth " ++ toString depth
  | notAStep shape => "Cannot execute step of type " ++ shape
  | notAnExpression shape => "Cannot evaluate node of type " ++ shape
  | outOfFuel => "given up"

end LoxLang
