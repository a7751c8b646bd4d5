import LoxLang.Token

/-!
# From text to tokens

The text is cut into consecutive pieces: single blanks, comments, lexemes, and two kinds of malformed pieces. The first
piece of a text is decided by its first characters alone (`Piece.first`), and is the longest of its kind. Tokens and
diagnostics are then read off the pieces, with the lines that the line feeds in front of a piece's end give.
-/

namespace LoxLang

/-! ## Character classes -/

namespace Letter

def isDigit (c : Char) : Bool := '0' ≤ c && c ≤ '9'

def isAlpha (c : Char) : Bool := ('a' ≤ c && c ≤ 'z') || ('A' ≤ c && c ≤ 'Z') || c == '_'

def isWord (c : Char) : Bool := isAlpha c || isDigit c

def isBlank (c : Char) : Bool := c == ' ' || c == '\r' || c == '\t' || c == '\n'

/-- The kinds of lexemes that are one character and start no longer one. -/
def single? : Char → Option TokenKind
  | '(' => some .leftParen
  | ')' => some .rightParen
  | '\x7b' => some .leftBrace
  | '\x7d' => some .rightBrace
  | ',' => some .comma
  | '.' => some .dot
  | '-' => some .minus
  | '+' => some .plus
  | ';' => some .semicolon
  | '*' => some .star
  | _ => none

/-- The kinds of an operator alone and with an equals sign behind it. -/
def withEqual? : Char → Option (TokenKind × TokenKind)
  | '!' => some (.bang, .bangEqual)
  | '=' => some (.equal, .equalEqual)
  | '<' => some (.less, .lessEqual)
  | '>' => some (.greater, .greaterEqual)
  | _ => none

end Letter

/-! ## Pieces -/

/-- A piece of the text with the characters it takes. -/
inductive Piece
  | blank (c : Char)
  | comment (text : List Char)
  | lexeme (kind : TokenKind) (text : List Char)
  /-- A character that starts no lexeme. -/
  | stray (c : Char)
  /-- A string whose closing quote is missing. -/
  | openString (text : List Char)

namespace Piece

def text : Piece → List Char
  | blank c | stray c => [c]
  | comment text | lexeme _ text | openString text => text

/-- The characters of a number after its first digit: a fraction needs a digit straight after the point. -/
def numberTail (rest : List Char) : List Char :=
  let whole := rest.takeWhile Letter.isDigit
  match rest.dropWhile Letter.isDigit with
  | '.' :: d :: more =>
    if Letter.isDigit d then whole ++ '.' :: d :: more.takeWhile Letter.isDigit else whole
  | _ => whole

/-- The kind of a word: a keyword, or else an identifier. -/
def wordKind (word : List Char) : TokenKind := (TokenKind.keyword? (String.ofList word)).getD .identifier

/-- A string from its opening quote on. -/
def string (rest : List Char) : Piece :=
  let body := rest.takeWhile (· != '"')
  if (rest.dropWhile (· != '"')).isEmpty then openString ('"' :: body) else lexeme .string ('"' :: body ++ ['"'])

/-- The first piece of the text `c :: rest`. -/
def first (c : Char) (rest : List Char) : Piece :=
  match Letter.single? c, Letter.withEqual? c with
  | some kind, _ => lexeme kind [c]
  | none, some (short, long) => if rest.head? = some '=' then lexeme long [c, '='] else lexeme short [c]
  | none, none =>
    if c = '/' then
      if rest.head? = some '/' then comment (c :: rest.takeWhile (· != '\n')) else lexeme .slash [c]
    else if Letter.isBlank c then blank c
    else if c = '"' then string rest
    else if Letter.isDigit c then lexeme .number (c :: numberTail rest)
    else if Letter.isAlpha c then
      let word := c :: rest.takeWhile Letter.isWord
      lexeme (wordKind word) word
    else stray c

/-- The pieces of a text of which the first `skip` characters belong to a piece that is already cut. -/
def cutFrom : (skip : Nat) → List Char → List Piece
  | _, [] => []
  | skip + 1, _ :: rest => cutFrom skip rest
  | 0, c :: rest =>
    let p := first c rest
    p :: cutFrom (p.text.length - 1) rest

/-- The text cut into pieces. -/
def cut (text : List Char) : List Piece := cutFrom 0 text

/-! ## Tokens and diagnostics -/

def lineFeeds (text : List Char) : Nat := text.count '\n'

/-- The digits of a number's lexeme before and after the point. -/
def numberValue (text : List Char) : Float :=
  Decimal.ofDigits (text.takeWhile Letter.isDigit) ((text.dropWhile Letter.isDigit).drop 1)

/-- The value that a lexeme stands for. -/
def literal (kind : TokenKind) (text : List Char) : Value :=
  match kind with
  | .string => .string (String.ofList (text.drop 1).dropLast)
  | .number => .number (numberValue text)
  | .identifier => .string (String.ofList text)
  | _ => .nil

/-- The token of a lexeme that ends on the line. -/
def token? (line : Line) : Piece → Option Token
  | lexeme kind text => some ⟨kind, String.ofList text, line, literal kind text⟩
  | _ => none

/-- The diagnostic of a malformed piece that ends on the line. -/
def diagnostic? (line : Line) : Piece → Option Diagnostic
  | stray c => some ⟨.scan, line, "Unrecognized character " ++ c.toString⟩
  | openString _ => some ⟨.scan, line, "End of string not found"⟩
  | _ => none

/-- Pieces, the first of which starts on `line`, with the lines they end on. -/
def withLines : (line : Line) → List Piece → List (Line × Piece)
  | _, [] => []
  | line, p :: ps => (line + lineFeeds p.text, p) :: withLines (line + lineFeeds p.text) ps

end Piece

/-! ## Scanning -/

/-- What scanning a text gives: the tokens of the valid lexemes, which always end with the end of input, and a
diagnostic for every malformed piece. -/
structure Scan where
  tokens : List Token
  diagnostics : List Diagnostic

namespace Scan

def of (source : String) : Scan :=
  let pieces := Piece.withLines 1 (Piece.cut source.toList)
  { tokens := pieces.filterMap (fun (line, p) => p.token? line)
      ++ [Token.atEnd (1 + Piece.lineFeeds source.toList)]
    diagnostics := pieces.filterMap fun (line, p) => p.diagnostic? line }

/-- The tokens, unless something is malformed. -/
def result (s : Scan) : Except (List Diagnostic) (List Token) :=
  if s.diagnostics.isEmpty then .ok s.tokens else .error s.diagnostics

/-- How a failed scan is summed up. -/
def summary (diagnostics : List Diagnostic) : String := toString diagnostics.length ++ " scanning error(s)"

end Scan

/-- The tokens of a text, or every scanning diagnostic. -/
def scan (source : String) : Except (List Diagnostic) (List Token) := (Scan.of source).result

end LoxLang
