import LoxLang.Value

/-!
# Tokens

The kinds of lexemes with their spellings, the keyword table, and tokens: a lexeme with its line and the value it
stands for.
-/

namespace LoxLang

inductive TokenKind
  | leftParen | rightParen | leftBrace | rightBrace | comma | dot | minus | plus | semicolon | slash | star
  | bang | bangEqual | equal | equalEqual | greater | greaterEqual | less | lessEqual
  | identifier | string | number
  | andWord | classWord | elseWord | falseWord | forWord | funWord | ifWord | letWord | nilWord | orWord | printWord
  | returnWord | superWord | thisWord | trueWord | whileWord
  | endOfInput
deriving DecidableEq

namespace TokenKind

/-- How a lexeme of the kind is written, or a word for the kind where that varies. -/
def spelling : TokenKind → String
  | leftParen => "("
  | rightParen => ")"
  | leftBrace => "\x7b"
  | rightBrace => "\x7d"
  | comma => ","
  | dot => "."
  | minus => "-"
  | plus => "+"
  | semicolon => ";"
  | slash => "/"
  | star => "*"
  | bang => "!"
  | bangEqual => "!="
  | equal => "="
  | equalEqual => "=="
  | greater => ">"
  | greaterEqual => ">="
  | less => "<"
  | lessEqual => "<="
  | identifier => "identifier"
  | string => "string"
  | number => "number"
  | andWord => "and"
  | classWord => "class"
  | elseWord => "else"
  | falseWord => "false"
  | forWord => "for"
  | funWord => "fun"
  | ifWord => "if"
  | letWord => "let"
  | nilWord => "nil"
  | orWord => "or"
  | printWord => "print"
  | returnWord => "return"
  | superWord => "super"
  | thisWord => "this"
  | trueWord => "true"
  | whileWord => "while"
  | endOfInput => "eof"

/-- The name of the kind in token listings. -/
def label : TokenKind → String
  | leftParen => "LEFT_PAREN"
  | rightParen => "RIGHT_PAREN"
  | leftBrace => "LEFT_BRACE"
  | rightBrace => "RIGHT_BRACE"
  | comma => "COMMA"
  | dot => "DOT"
  | minus => "MINUS"
  | plus => "PLUS"
  | semicolon => "SEMICOLON"
  | slash => "SLASH"
  | star => "STAR"
  | bang => "BANG"
  | bangEqual => "BANG_EQUAL"
  | equal => "EQUAL"
  | equalEqual => "EQUAL_EQUAL"
  | greater => "GREATER"
  | greaterEqual => "GREATER_EQUAL"
  | less => "LESS"
  | lessEqual => "LESS_EQUAL"
  | identifier => "IDENTIFIER"
  | string => "STRING"
  | number => "NUMBER"
  | andWord => "AND"
  | classWord => "CLASS"
  | elseWord => "ELSE"
  | falseWord => "FALSE"
  | forWord => "FOR"
  | funWord => "FUN"
  | ifWord => "IF"
  | letWord => "LET"
  | nilWord => "NIL"
  | orWord => "OR"
  | printWord => "PRINT"
  | returnWord => "RETURN"
  | superWord => "SUPER"
  | thisWord => "THIS"
  | trueWord => "TRUE"
  | whileWord => "WHILE"
  | endOfInput => "EOF"

def keywords : List TokenKind :=
  [andWord, classWord, elseWord, falseWord, forWord, funWord, ifWord, letWord, nilWord, orWord, printWord, returnWord,
    superWord, thisWord, trueWord, whileWord]

/-- The keyword that a text spells. -/
def keyword? (text : String) : Option TokenKind := keywords.find? (·.spelling == text)

def all : List TokenKind :=
  [leftParen, rightParen, leftBrace, rightBrace, comma, dot, minus, plus, semicolon, slash, star, bang, bangEqual,
    equal, equalEqual, greater, greaterEqual, less, lessEqual, identifier, string, number] ++ keywords ++ [endOfInput]

def ofLabel? (s : String) : Option TokenKind := all.find? (·.label == s)

end TokenKind

/-- A lexeme, the line it ends on, and the value it stands for: the text of a string, the double of a number, the name
of an identifier, and nil for every other kind. -/
structure Token where
  kind : TokenKind
  lexeme : String
  line : Line
  literal : Value

namespace Token

/-- The token that ends every scan. -/
def atEnd (line : Line) : Token := ⟨.endOfInput, "", line, .nil⟩

/-- The name that an identifier stands for. -/
def name (t : Token) : String :=
  match t.literal with
  | .string s => s
  | _ => t.lexeme

/-- The token in debugging output. -/
def debugText (t : Token) : String :=
  t.kind.label ++ " @ line=" ++ toString t.line ++ " : " ++ Text.quoted t.lexeme

def data (t : Token) : Data :=
  .record [("type", .text t.kind.label), ("lexeme", .text t.lexeme), ("line", .integer t.line),
    ("literal", t.literal.data)]

end Token

end LoxLang
