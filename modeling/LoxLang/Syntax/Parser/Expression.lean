import LoxLang.Syntax.Parser.Basic

/-!
# Reading expressions

From the loosest to the tightest: assignment, `or`, `and`, equality, comparison, sums, products, prefix operators, calls
and property accesses. Equality and comparison chains associate to the right, the other binary operators to the left.

Every level is given the parser of the expressions between parentheses, so that `Parser.expression` recurs only there.
-/

namespace LoxLang.Parser

/-! ## Operators by kind of token -/

def equalityOp : TokenKind → Option BinaryOp
  | .equalEqual => some .equal
  | .bangEqual => some .notEqual
  | _ => none

def comparisonOp : TokenKind → Option BinaryOp
  | .greater => some .greater
  | .greaterEqual => some .greaterEqual
  | .less => some .less
  | .lessEqual => some .lessEqual
  | _ => none

def termOp : TokenKind → Option BinaryOp
  | .plus => some .add
  | .minus => some .subtract
  | _ => none

def factorOp : TokenKind → Option BinaryOp
  | .star => some .multiply
  | .slash => some .divide
  | _ => none

def unaryOp : TokenKind → Option UnaryOp
  | .bang => some .not
  | .minus => some .negate
  | _ => none

def orOp : TokenKind → Option LogicalOp
  | .orWord => some .or
  | _ => none

def andOp : TokenKind → Option LogicalOp
  | .andWord => some .and
  | _ => none

/-! ## Chains -/

section Chains

variable {op : Type} (operator : TokenKind → Option op) (build : op → Node → Node → Line → Node)
  (operand : Parser Node)

/-- The operators and operands that follow `left`, folded from the left. -/
def leftChainFrom : (bound : Nat) → Node → Parser Node
  | 0, left => pure left
  | bound + 1, left => do
    match ← acceptMap operator with
    | none => pure left
    | some (o, t) =>
      let right ← operand
      leftChainFrom bound (build o left right t.line)

/-- Operands with operators between them, folded from the left. -/
def leftChain (bound : Nat) : Parser Node := do
  let first ← operand
  leftChainFrom operator build operand bound first

/-- Operands with operators between them, folded from the right. -/
def rightChain : (bound : Nat) → Parser Node
  | 0 => operand
  | bound + 1 => do
    let left ← operand
    match ← acceptMap operator with
    | none => pure left
    | some (o, t) =>
      let right ← rightChain bound
      pure (build o left right t.line)

end Chains

/-! ## Primary expressions, calls and properties -/

section Levels

variable (nested : Parser Node)

/-- The expression that a token alone stands for. -/
def atom? (t : Token) : Option Node :=
  match t.kind with
  | .trueWord => some (.literal (.bool true) t.line)
  | .falseWord => some (.literal (.bool false) t.line)
  | .nilWord => some (.literal .nil t.line)
  | .number | .string => some (.literal t.literal t.line)
  | .identifier => some (.var t.name t.line none)
  | .thisWord => some (.this t.line none)
  | _ => none

/-- Take the next token if it is an expression alone. -/
def acceptAtom : Parser (Option Node) := fun _ s =>
  match s.rest with
  | [] => .ok none s
  | t :: rest =>
    match atom? t with
    | none => .ok none s
    | some n => .ok (some n) { s with rest }

def primary : Parser Node := do
  match ← acceptAtom with
  | some n => pure n
  | none =>
    match ← accept .leftParen with
    | some t =>
      let inner ← nested
      let _ ← expect (.kind .rightParen)
      pure (.grouping inner t.line)
    | none => failHere .unrecognized

/-- Arguments after their opening parenthesis. -/
def arguments (bound : Nat) : Parser (List Node) := do
  let items ← if (← nextKind) = some .rightParen then pure [] else commaSeparated nested bound
  let _ ← expect .argumentsEnd
  pure items

/-- The name of a property after its dot. -/
def propertyName (dotLine : Line) : Parser String := do
  match ← accept .identifier with
  | some t => pure t.name
  | none => failAt dotLine .missingProperty

/-- The calls and property accesses that follow `callee`. -/
def suffixesFrom : (bound : Nat) → Node → Parser Node
  | 0, callee => pure callee
  | bound + 1, callee => do
    match ← accept .leftParen with
    | some t =>
      let items ← arguments nested (bound + 1)
      suffixesFrom bound (.call callee items t.line)
    | none =>
      match ← accept .dot with
      | some t =>
        let name ← propertyName t.line
        suffixesFrom bound (.get callee name t.line)
      | none => pure callee

def call (bound : Nat) : Parser Node := do
  let callee ← primary nested
  suffixesFrom nested bound callee

/-! ## Operators -/

/-- Prefix operators and their operand; `rounds` bounds how many operators there are. -/
def unary (bound : Nat) : (rounds : Nat) → Parser Node
  | 0 => call nested bound
  | rounds + 1 => do
    match ← acceptMap unaryOp with
    | none => call nested bound
    | some (o, t) =>
      let operand ← unary bound rounds
      pure (.unary o operand t.line)

def factor (bound : Nat) : Parser Node := leftChain factorOp .binary (unary nested bound bound) bound

def term (bound : Nat) : Parser Node := leftChain termOp .binary (factor nested bound) bound

def comparison (bound : Nat) : Parser Node := rightChain comparisonOp .binary (term nested bound) bound

def equality (bound : Nat) : Parser Node := rightChain equalityOp .binary (comparison nested bound) bound

def conjunction (bound : Nat) : Parser Node := leftChain andOp .logical (equality nested bound) bound

def disjunction (bound : Nat) : Parser Node := leftChain orOp .logical (conjunction nested bound) bound

/-- The assignment of a value to a target, if the target can be assigned to. -/
def assignTo? (target value : Node) : Option Node :=
  match target with
  | .var name line _ => some (.assign name value line none)
  | .get object name line => some (.set object name value line)
  | _ => none

/-- Targets with `=` behind each, and a value; `rounds` bounds how many targets there are. A target is judged after
everything to its right was read. -/
def assignment (bound : Nat) : (rounds : Nat) → Parser Node
  | 0 => disjunction nested bound
  | rounds + 1 => do
    let target ← disjunction nested bound
    match ← accept .equal with
    | none => pure target
    | some t =>
      let value ← assignment bound rounds
      match assignTo? target value with
      | some n => pure n
      | none => failAt t.line .invalidTarget

end Levels

/-- An expression of at most `bound` tokens. -/
def expression : (bound : Nat) → Parser Node
  | 0 => failHere .unrecognized
  | bound + 1 => assignment (expression bound) (bound + 1) (bound + 1)

end LoxLang.Parser
