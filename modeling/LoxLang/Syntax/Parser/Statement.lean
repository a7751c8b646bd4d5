import LoxLang.Syntax.Parser.Expression

/-!
# Reading declarations and statements

`parse` reads tokens as declarations. A declaration that cannot be read becomes a diagnostic in its place, and the same
holds for declarations inside blocks. A `for` statement is read as the block and loop that it stands for.
-/

namespace LoxLang

/-! ## The loop that a `for` stands for -/

/-- `for (initializer; condition; increment) body` as a block around a `while` loop. A missing condition is true; the
increment runs in a block of its own, after the body. -/
def Node.forLoop (initializer condition increment : Option Node) (body : Node) (line : Line) : Node :=
  let round := match increment with
    | none => body
    | some step => .block [body, step] line
  let loop := .whileLoop (condition.getD (.literal (.bool true) line)) round line
  .block (initializer.toList ++ [loop]) line

namespace Parser

section Statements

variable (expression block : Parser Node) (bound : Nat)

/-! ## Declarations, each after its keyword -/

def letDeclaration : Parser Node := do
  let name ← expect .letName
  match ← accept .equal with
  | none =>
    let _ ← expect .letEnd
    pure (.letDecl name.name (.literal .nil name.line) name.line)
  | some _ =>
    let initializer ← expression
    let _ ← expect .letEnd
    pure (.letDecl name.name initializer name.line)

def parameters : Parser (List String) := do
  if (← nextKind) = some .rightParen then pure []
  else
    let names ← commaSeparated (expect .parameter) bound
    pure (names.map (·.name))

def functionDeclaration : Parser Node := do
  let name ← expect .functionName
  let _ ← expect (.kind .leftParen)
  let params ← parameters bound
  let _ ← expect .parametersEnd
  let body ← block
  pure (.function name.name params body name.line)

def classDeclaration : Parser Node := do
  let name ← expect .className
  let _ ← expect (.kind .leftBrace)
  let methods ← manyUntil (· == .rightBrace) (functionDeclaration block bound) bound
  let _ ← expect (.kind .rightBrace)
  pure (.classDecl name.name methods name.line)

/-! ## Statements, each after its keyword on `line` -/

def printStatement (line : Line) : Parser Node := do
  let value ← expression
  let _ ← expect (.kind .semicolon)
  pure (.print value line)

/-- An `if` with the `else if`s that follow it; `rounds` bounds how many there are. -/
def ifStatement (line : Line) : (rounds : Nat) → Parser Node
  | 0 => failHere .unrecognized
  | rounds + 1 => do
    let condition ← expression
    let thenBranch ← block
    match ← accept .elseWord with
    | none => pure (.ifElse condition thenBranch .absent line)
    | some _ =>
      match ← accept .ifWord with
      | some t =>
        let elseBranch ← ifStatement t.line rounds
        pure (.ifElse condition thenBranch elseBranch line)
      | none =>
        let elseBranch ← block
        pure (.ifElse condition thenBranch elseBranch line)

def whileStatement (line : Line) : Parser Node := do
  let condition ← expression
  let body ← block
  pure (.whileLoop condition body line)

/-- The first clause of a `for`, with the semicolon that ends it. -/
def forInitializer : Parser (Option Node) := do
  match ← accept .semicolon with
  | some _ => pure none
  | none =>
    match ← accept .letWord with
    | some _ => some <$> letDeclaration expression
    | none =>
      let initializer ← expression
      let _ ← expect (.kind .semicolon)
      pure (some initializer)

/-- An expression, unless the closing token comes first; the closing token is taken too. -/
def optionalBefore (closing : TokenKind) : Parser (Option Node) := do
  if (← nextKind) = some closing then
    let _ ← expect (.kind closing)
    pure none
  else
    let value ← expression
    let _ ← expect (.kind closing)
    pure (some value)

def forStatement (line : Line) : Parser Node := do
  let _ ← expect (.kind .leftParen)
  let initializer ← forInitializer expression
  let condition ← optionalBefore expression .semicolon
  let increment ← optionalBefore expression .rightParen
  let body ← block
  pure (Node.forLoop initializer condition increment body line)

def returnStatement (line : Line) : Parser Node := do
  let value ← optionalBefore expression .semicolon
  pure (.returnStep (value.getD .absent) line)

def expressionStatement : Parser Node := do
  let value ← expression
  let _ ← expect (.kind .semicolon)
  pure value

/-! ## A step of a block -/

/-- The kinds of steps that start with a keyword. -/
inductive KeywordStep
  | letStep | funStep | classStep | printStep | ifStep | whileStep | forStep | returnStep
deriving DecidableEq

def keywordStep? : TokenKind → Option KeywordStep
  | .letWord => some .letStep
  | .funWord => some .funStep
  | .classWord => some .classStep
  | .printWord => some .printStep
  | .ifWord => some .ifStep
  | .whileWord => some .whileStep
  | .forWord => some .forStep
  | .returnWord => some .returnStep
  | _ => none

/-- The step that a keyword on `line` starts. -/
def afterKeyword (line : Line) : KeywordStep → Parser Node
  | .letStep => letDeclaration expression
  | .funStep => functionDeclaration block bound
  | .classStep => classDeclaration block bound
  | .printStep => printStatement expression line
  | .ifStep => ifStatement expression block line bound
  | .whileStep => whileStatement expression block line
  | .forStep => forStatement expression block line
  | .returnStep => returnStatement expression line

def declaration : Parser Node := do
  match ← acceptMap keywordStep? with
  | some (k, t) => afterKeyword expression block bound t.line k
  | none => if (← nextKind) = some .leftBrace then block else expressionStatement expression

end Statements

/-! ## Blocks and programs -/

/-- Steps between braces. -/
def blockOf (step : Parser Node) (bound : Nat) : Parser Node := do
  let opening ← expect (.kind .leftBrace)
  let steps ← manyUntil (· == .rightBrace) step bound
  let _ ← expect (.kind .rightBrace)
  pure (.block steps opening.line)

/-- A declaration of at most `bound` tokens, or its fault. -/
def step : (bound : Nat) → Parser Node
  | 0 => recovering (failHere .unrecognized)
  | bound + 1 => recovering (declaration (expression (bound + 1)) (blockOf (step bound) (bound + 1)) (bound + 1))

/-- All steps up to the end of input. -/
def program (bound : Nat) : Parser (List Node) := manyUntil (fun _ => false) (step bound) bound

end Parser

/-! ## Parsing a token list -/

/-- The tokens in front of the first end of input. -/
def Token.beforeEnd (tokens : List Token) : List Token := tokens.takeWhile (·.kind != .endOfInput)

/-- The line of the first end of input; without one, the line of the last token. -/
def Token.endLine (tokens : List Token) : Line :=
  match tokens.find? (·.kind == .endOfInput) with
  | some t => t.line
  | none => (tokens.getLast?.map (·.line)).getD 1

/-- The steps of a token list, and the faults recovered from, in order. -/
def parseWithLog (tokens : List Token) : List Node × List Diagnostic :=
  let body := Token.beforeEnd tokens
  match Parser.program body.length (Token.endLine tokens) ⟨body, []⟩ with
  | .ok steps after => (steps, after.caught.reverse)
  | .fail _ after => ([], after.caught.reverse)

/-- The steps of a token list, with a diagnostic in place of every step that cannot be read. -/
def parse (tokens : List Token) : List Node := (parseWithLog tokens).1

end LoxLang
