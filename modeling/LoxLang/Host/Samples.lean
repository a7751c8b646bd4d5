import LoxLang.Host

/-!
# Sample hosts

Hosts to try a session with: one without functions, one that keeps the score of a game, and one whose functions fail in
every way a host's function can.
-/

namespace LoxLang.Host

/-- A host that always lends the same functions. -/
def constant (methods : Table Nat) (memory : HostMemory) (respond : HostCall → HostMemory → HostReply × HostMemory) :
    Host := ⟨fun _ => true, fun _ => methods, memory, respond⟩

/-- A host that lends nothing. -/
def plain : Host := constant [] ⟨0, []⟩ fun _ memory => (.value .nil, memory)

/-! ## A game -/

/-- The integer that a numeral spells. -/
def integerOf? (numeral : List Char) : Option Int :=
  let (negative, digits) := Decimal.splitSign numeral
  if digits.isEmpty || !digits.all Char.isDigit then none
  else
    let n : Int := Decimal.natOfDigits digits
    some (if negative then -n else n)

/-- The integer that an amount stands for: a fraction is dropped, and a string is read. -/
def wholeAmount : Value → Except String Int
  | .bool b => .ok (if b then 1 else 0)
  | .integer n => .ok n
  | .number x =>
    match (Binary64.ofFloat x).truncate? with
    | some n => .ok n
    | none => .error ("cannot convert float " ++ (if x.isNaN then "NaN" else "infinity") ++ " to integer")
  | .string s =>
    match (Text.numeral? s).bind integerOf? with
    | some n => .ok n
    | none => .error ("not an integer: " ++ Text.quoted s)
  | v => .error ("not an integer: " ++ v.kind)

/-- The game's reply to a call. It counts hit points, and keeps the values that were recorded. -/
def gameReply (call : HostCall) (memory : HostMemory) : HostReply × HostMemory :=
  match call.method, call.arguments with
  | "take_damage", [amount] =>
    match wholeAmount amount with
    | .ok n => (.value (.integer (memory.count - n)), { memory with count := memory.count - n })
    | .error text => (.failure text, memory)
  | "record", [v] => (.value .nil, { memory with kept := v :: memory.kept })
  | "history", _ => (.value (.list memory.kept.reverse), memory)
  | "clock", _ => (.value (.integer 1234), memory)
  | "zero", _ | "anything", _ => (.value (.integer 0), memory)
  | "identity", [v] => (.value v, memory)
  | "three", items => (.value (.list items), memory)
  | "greet", [.string name] => (.value (.string ("hi " ++ name)), memory)
  | "greet", [v] => (.failure ("cannot greet a " ++ v.kind), memory)
  | _, _ => (.value .nil, memory)

/-- Hit points, a log, and functions that hand values through. -/
def game : Host :=
  constant
    [("anything", 0), ("clock", 0), ("greet", 1), ("history", 0), ("identity", 1), ("record", 1), ("take_damage", 1),
      ("three", 3), ("zero", 0)]
    ⟨100, []⟩ gameReply

/-! ## Failures -/

/-- The words of a failure: a string as it is, and other values as debugging output shows them. -/
def words : Value → String
  | .string s => s
  | v => v.debugText

def failingReply (call : HostCall) : HostReply :=
  match call.method, call.arguments with
  | "boom", _ => .failure "disk gone"
  | "fail_with", [v] => .failure (words v)
  | "lox_fail", [v] => .raised ⟨.runtime, 2, words v⟩
  | "lox_fail_far", _ => .raised ⟨.runtime, 99, "far away"⟩
  | "overflow", _ => .overflow
  | "parse_fail", _ => .raised ⟨.parse, 1, "not a runtime error"⟩
  | _, _ => .value .nil

def failing : Host :=
  constant
    [("boom", 0), ("fail_with", 1), ("lox_fail", 1), ("lox_fail_far", 0), ("overflow", 0), ("parse_fail", 0)]
    ⟨0, []⟩ fun call memory => (failingReply call, memory)

/-- The sample host of a name. -/
def sample? : String → Option Host
  | "plain" => some plain
  | "game" => some game
  | "failing" => some failing
  | _ => none

end LoxLang.Host
