import LoxLang.Syntax
import LoxLang.Token

/-!
# Parsers over tokens

A parser takes tokens from the front of what is left, and either gives a result or fails; in both cases what is left is
known afterwards, so that a failed step can be skipped and the next one tried. `Parser.recovering` does that: the fault
becomes an element of the tree, and reading resumes at a statement boundary.

The parsers never see the end-of-input token: the tokens in front of it are given, and its line beside them.
-/

namespace LoxLang

/-! ## Faults -/

/-- What a parser may want to see next. -/
inductive Wanted
  | kind (k : TokenKind)
  | letName
  | letEnd
  | functionName
  | parameter
  | parametersEnd
  | className
  | argumentsEnd

namespace Wanted

/-- The kind of token that is wanted. -/
def token : Wanted → TokenKind
  | kind k => k
  | letName | functionName | parameter | className => .identifier
  | letEnd => .semicolon
  | parametersEnd | argumentsEnd => .rightParen

def description : Wanted → String
  | kind k => "\"" ++ k.spelling ++ "\""
  | letName => "identifier following \"let\""
  | letEnd => "\";\" following variable declaration"
  | functionName => "function name"
  | parameter => "function parameter"
  | parametersEnd => "comma delimiting another parameter or \")\""
  | className => "class name"
  | argumentsEnd => "either \",\" or \")\" in function arguments"

end Wanted

/-- Why a step could not be read. What was found is a lexeme, or nothing at the end of input. -/
inductive ParseCause
  | expected (wanted : Wanted) (found : Option String)
  | unrecognized (found : Option String)
  | missingProperty
  | invalidTarget

namespace ParseCause

def describe (found : Option String) : String :=
  match found with
  | none => "end of input"
  | some lexeme => "\"" ++ lexeme ++ "\""

def message : ParseCause → String
  | expected wanted found => "Expected " ++ wanted.description ++ ", found " ++ describe found
  | unrecognized found => "Unrecognized token: " ++ describe found
  | missingProperty => "Expected identifier following dot"
  | invalidTarget => "Invalid assignment target, expected an identifier or property"

end ParseCause

structure ParseFault where
  line : Line
  cause : ParseCause

def ParseFault.diagnostic (f : ParseFault) : Diagnostic := ⟨.parse, f.line, f.cause.message⟩

/-! ## The parser type -/

/-- The tokens that are left, and the faults recovered from so far, the latest first. -/
structure ParseState where
  rest : List Token
  caught : List Diagnostic

inductive Reply (α : Type)
  | ok (result : α) (after : ParseState)
  | fail (fault : ParseFault) (after : ParseState)

/-- A parser, given the line of the end of input. -/
def Parser (α : Type) : Type := (endLine : Line) → ParseState → Reply α

namespace Parser

variable {α β : Type}

instance : Monad Parser where
  pure a := fun _ s => .ok a s
  bind p f := fun endLine s =>
    match p endLine s with
    | .ok a after => f a endLine after
    | .fail fault after => .fail fault after

/-! ## Single tokens -/

/-- The kind of the next token. -/
def nextKind : Parser (Option TokenKind) := fun _ s => .ok (s.rest.head?.map (·.kind)) s

/-- Fail on a line. -/
def failAt (line : Line) (cause : ParseCause) : Parser α := fun _ s => .fail ⟨line, cause⟩ s

/-- Fail at the next token, or at the end of input. -/
def failHere (cause : Option String → ParseCause) : Parser α := fun endLine s =>
  match s.rest with
  | [] => .fail ⟨endLine, cause none⟩ s
  | t :: _ => .fail ⟨t.line, cause (some t.lexeme)⟩ s

/-- Take the next token if the function has an answer for its kind. -/
def acceptMap (f : TokenKind → Option β) : Parser (Option (β × Token)) := fun _ s =>
  match s.rest with
  | [] => .ok none s
  | t :: rest =>
    match f t.kind with
    | none => .ok none s
    | some b => .ok (some (b, t)) { s with rest }

/-- Take the next token if it is of the kind. -/
def accept (k : TokenKind) : Parser (Option Token) := fun _ s =>
  match s.rest with
  | [] => .ok none s
  | t :: rest => if t.kind = k then .ok (some t) { s with rest } else .ok none s

/-- Take the next token, which has to be the wanted one. -/
def expect (wanted : Wanted) : Parser Token := do
  match ← accept wanted.token with
  | some t => pure t
  | none => failHere (.expected wanted)

/-! ## Repetition

The bound on the number of rounds is never reached when it is at least the number of tokens left, since a round that
does not end the repetition takes a token. -/

/-- One or more items with commas between them. -/
def commaSeparated (item : Parser α) : (bound : Nat) → Parser (List α)
  | 0 => do return [← item]
  | bound + 1 => do
    let first ← item
    match ← accept .comma with
    | none => pure [first]
    | some _ => return first :: (← commaSeparated item bound)

/-- Items up to the end of input or a token that stops them. -/
def manyUntil (stop : TokenKind → Bool) (item : Parser α) : (bound : Nat) → Parser (List α)
  | 0 => pure []
  | bound + 1 => do
    match ← nextKind with
    | none => pure []
    | some k =>
      if stop k then pure []
      else
        let first ← item
        return first :: (← manyUntil stop item bound)

/-! ## Recovery -/

/-- Whether a token of the kind starts a statement, or ends the block around one. -/
def startsStatement : TokenKind → Bool
  | .classWord | .funWord | .letWord | .forWord | .ifWord | .whileWord | .printWord | .returnWord | .rightBrace => true
  | _ => false

/-- What is left at the next statement boundary, when the token taken last is of the kind `last`. -/
def skipFrom (last : TokenKind) : List Token → List Token
  | [] => []
  | t :: rest => if last = .semicolon ∨ startsStatement t.kind then t :: rest else skipFrom t.kind rest

/-- Where reading resumes after a step that started at `start` failed at `rest`: at least one token further. -/
def resume (start rest : List Token) : List Token :=
  let rest := if rest.length < start.length then rest else rest.drop 1
  match (start.take (start.length - rest.length)).getLast? with
  | none => rest
  | some last => skipFrom last.kind rest

/-- A step, or the fault that keeps it from being read. -/
def recovering (step : Parser Node) : Parser Node := fun endLine s =>
  match step endLine s with
  | .ok n after => .ok n after
  | .fail fault after =>
    .ok (.error fault.diagnostic)
      { rest := resume s.rest after.rest, caught := fault.diagnostic :: after.caught }

end Parser

end LoxLang
