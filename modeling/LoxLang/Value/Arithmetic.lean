import LoxLang.Fault
import LoxLang.Syntax

/-!
# Operators on values

Numbers are doubles, and integers where a host handed them over. Sums, differences and products of integers are
integers; every other operation on numbers is one on doubles, and has no answer for an integer beyond their range.
Comparisons of an integer with a double are exact.
-/

namespace LoxLang

/-- Why an operator has no answer. -/
inductive OperatorFault
  | cause (c : RuntimeCause)
  /-- An integer operand has to become a double and is beyond the range of doubles. -/
  | outOfRange

/-- A number: an integer or a double. -/
inductive Numeral
  | integer (n : Int)
  | number (x : Float)

namespace Numeral

def toValue : Numeral → Value
  | integer n => .integer n
  | number x => .number x

/-- The number as a double, if it is in range. -/
def toFloat? : Numeral → Option Float
  | integer n => Binary64.ofInt? n
  | number x => some x

/-- An operation on doubles. -/
def onFloats (f : Float → Float → Float) (a b : Numeral) : Option Numeral := do
  return number (f (← a.toFloat?) (← b.toFloat?))

/-- Integers by the first operation, all else by the second. -/
def combine (onInt : Int → Int → Int) (onFloat : Float → Float → Float) : Numeral → Numeral → Option Numeral
  | integer a, integer b => some (integer (onInt a b))
  | a, b => onFloats onFloat a b

def add : Numeral → Numeral → Option Numeral := combine (· + ·) (· + ·)

def subtract : Numeral → Numeral → Option Numeral := combine (· - ·) (· - ·)

def multiply : Numeral → Numeral → Option Numeral := combine (· * ·) (· * ·)

/-- Division of doubles: by zero it gives a signed infinity, or not-a-number. -/
def divide : Numeral → Numeral → Option Numeral := onFloats (· / ·)

def negate : Numeral → Numeral
  | integer n => integer (-n)
  | number x => number (-x)

/-- How two numbers compare; nothing compares with not-a-number. -/
def compare : Numeral → Numeral → Option Ordering
  | integer a, integer b => some (Ord.compare a b)
  | integer a, number y => Binary64.compareInt a (Binary64.ofFloat y)
  | number x, integer b => (Binary64.compareInt b (Binary64.ofFloat x)).map Ordering.swap
  | number x, number y => if x < y then some .lt else if y < x then some .gt else if x == y then some .eq else none

def equal (a b : Numeral) : Bool := a.compare b == some .eq

end Numeral

namespace Value

def numeral? : Value → Option Numeral
  | integer n => some (.integer n)
  | number x => some (.number x)
  | _ => none

/-- Whether two values of one kind are equal; only nil, booleans, numbers and strings can be asked. -/
def equal? : Value → Value → Option Bool
  | nil, nil => some true
  | bool a, bool b => some (a == b)
  | string a, string b => some (a == b)
  | a, b =>
    match a.numeral?, b.numeral? with
    | some m, some n => some (m.equal n)
    | _, _ => none

/-- The answer of an equality operator. -/
def equality (wanted : Bool) (a b : Value) : Except OperatorFault Value :=
  match equal? a b with
  | some same => .ok (bool (same == wanted))
  | none => .error (.cause (.incomparable a b))

/-- The answer of an operator on numbers, or the cause when one of the operands is none. -/
def onNumbers (cause : Value → Value → RuntimeCause) (f : Numeral → Numeral → Except OperatorFault Value)
    (a b : Value) : Except OperatorFault Value :=
  match a.numeral?, b.numeral? with
  | some m, some n => f m n
  | _, _ => .error (.cause (cause a b))

/-- The answer of an ordering operator that holds of these orderings. -/
def ordered (holds : Ordering → Bool) : Value → Value → Except OperatorFault Value :=
  onNumbers .unordered fun m n => .ok (bool ((m.compare n).any holds))

/-- The answer of an operation on two numbers that may be out of range. -/
def arithmetic (cause : Value → Value → RuntimeCause) (f : Numeral → Numeral → Option Numeral) :
    Value → Value → Except OperatorFault Value :=
  onNumbers cause fun m n =>
    match f m n with
    | some result => .ok result.toValue
    | none => .error .outOfRange

def sum (a b : Value) : Except OperatorFault Value :=
  match a, b with
  | string s, string t => .ok (string (s ++ t))
  | _, _ => arithmetic .add Numeral.add a b

def binary (op : BinaryOp) (a b : Value) : Except OperatorFault Value :=
  match op with
  | .equal => equality true a b
  | .notEqual => equality false a b
  | .greater => ordered (· == .gt) a b
  | .greaterEqual => ordered (· != .lt) a b
  | .less => ordered (· == .lt) a b
  | .lessEqual => ordered (· != .gt) a b
  | .add => sum a b
  | .subtract => arithmetic .subtract Numeral.subtract a b
  | .multiply => arithmetic .multiply Numeral.multiply a b
  | .divide => arithmetic .divide Numeral.divide a b
  | .other symbol => .error (.cause (.unknownOperator symbol))

def negation (v : Value) : Except OperatorFault Value :=
  match v with
  | nil => .error (.cause .negateNil)
  | _ =>
    match v.numeral? with
    | some n => .ok n.negate.toValue
    | none => .error (.cause (.negate v))

def unary (op : UnaryOp) (v : Value) : Except OperatorFault Value :=
  match op with
  | .not => .ok (bool !v.truthy)
  | .negate | .other _ => negation v

/-- Whether a logical operator with this left operand leaves the right one alone. -/
def decides (op : LogicalOp) (left : Value) : Bool :=
  match op with
  | .or => left.truthy
  | .and | .other _ => !left.truthy

end Value

end LoxLang
