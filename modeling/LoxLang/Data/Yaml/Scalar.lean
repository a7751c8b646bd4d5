import LoxLang.Data
import LoxLang.Decimal

/-!
# Scalars in YAML

Which texts a YAML reader takes for something other than a string (`Yaml.readsAsOther`), and how a string therefore has
to be written: plain, between single quotes, or between double quotes.
-/

namespace LoxLang.Data.Yaml

/-! ## Texts that are read as something else -/

def isDigitOrLine (c : Char) : Bool := c.isDigit || c == '_'

/-- One or more characters of a class. -/
def some1 (p : Char → Bool) (cs : List Char) : Bool := !cs.isEmpty && cs.all p

/-- A text without the sign in front of it. -/
def unsigned : List Char → List Char
  | '-' :: rest | '+' :: rest => rest
  | rest => rest

/-- A digit, and then digits and underscores. -/
def isDigits : List Char → Bool
  | c :: rest => c.isDigit && rest.all isDigitOrLine
  | [] => false

/-- A number below sixty, of one digit or two. -/
def isSixtieth : List Char → Bool
  | [d] => d.isDigit
  | [t, d] => '0' ≤ t && t ≤ '5' && d.isDigit
  | _ => false

/-- The parts of a text between colons. -/
def colonParts (cs : List Char) : List (List Char) := cs.splitOn ':'

/-- Whole parts in base sixty: a number, and one or more sixtieths behind colons. -/
def isSexagesimal (cs : List Char) : Bool :=
  match colonParts cs with
  | first :: second :: more => isDigits first && (second :: more).all isSixtieth
  | _ => false

def isInteger (cs : List Char) : Bool :=
  match unsigned cs with
  | ['0'] => true
  | '0' :: 'b' :: rest => some1 (fun c => c == '0' || c == '1' || c == '_') rest
  | '0' :: 'x' :: rest =>
    some1 (fun c => isDigitOrLine c || ('a' ≤ c && c ≤ 'f') || ('A' ≤ c && c ≤ 'F')) rest
  | '0' :: rest => some1 (fun c => ('0' ≤ c && c ≤ '7') || c == '_') rest
  | rest => isDigits rest || isSexagesimal rest

/-- Nothing, or an exponent with a sign. -/
def isExponent : List Char → Bool
  | [] => true
  | e :: sign :: rest => (e == 'e' || e == 'E') && (sign == '-' || sign == '+') && some1 Char.isDigit rest
  | _ => false

def isFraction (cs : List Char) : Bool :=
  let body := unsigned cs
  let whole := body.takeWhile (· != '.')
  match body.dropWhile (· != '.') with
  | [] => false
  | _ :: fraction =>
    let exponent := isExponent (fraction.dropWhile isDigitOrLine)
    if whole.isEmpty then
      body.length == cs.length && isDigits (fraction.takeWhile isDigitOrLine) && exponent
    else (isDigits whole && exponent) || (isSexagesimal whole && fraction.all isDigitOrLine)

def isSpecialNumber (s : String) : Bool :=
  s ∈ [".inf", ".Inf", ".INF", "-.inf", "-.Inf", "-.INF", "+.inf", "+.Inf", "+.INF", ".nan", ".NaN", ".NAN"]

def isWord (s : String) : Bool :=
  s ∈ ["yes", "Yes", "YES", "no", "No", "NO", "true", "True", "TRUE", "false", "False", "FALSE", "on", "On", "ON",
    "off", "Off", "OFF", "null", "Null", "NULL", "~", "=", "<<"]

/-! ## Dates -/

/-- What follows exactly `n` digits. -/
def digits? : (n : Nat) → List Char → Option (List Char)
  | 0, cs => some cs
  | n + 1, c :: cs => if c.isDigit then digits? n cs else none
  | _ + 1, [] => none

/-- What follows one digit or two. -/
def digitOrTwo? (cs : List Char) : Option (List Char) := (digits? 2 cs).or (digits? 1 cs)

/-- What follows the character. -/
def char? (c : Char) : List Char → Option (List Char)
  | d :: rest => if d = c then some rest else none
  | [] => none

def isTab (c : Char) : Bool := c == ' ' || c == '\t'

/-- What follows the separator of date and time. -/
def dateSeparator? : List Char → Option (List Char)
  | 'T' :: rest | 't' :: rest => some rest
  | c :: rest => if isTab c then some (rest.dropWhile isTab) else none
  | [] => none

/-- Nothing, or a time zone behind blanks. -/
def isZone (cs : List Char) : Bool :=
  cs.isEmpty || match cs.dropWhile isTab with
    | ['Z'] => true
    | sign :: rest =>
      (sign == '-' || sign == '+') && match digitOrTwo? rest with
        | some [] => true
        | some (':' :: minutes) => digits? 2 minutes == some []
        | _ => false
    | [] => false

/-- What follows a fraction of a second, if there is one. -/
def afterFraction : List Char → List Char
  | '.' :: rest => rest.dropWhile Char.isDigit
  | rest => rest

def isDate (cs : List Char) : Bool :=
  (do digits? 2 (← char? '-' (← digits? 2 (← char? '-' (← digits? 4 cs))))) == some []

def isTimestamp (cs : List Char) : Bool :=
  let rest? := do
    let time ← dateSeparator? (← digitOrTwo? (← char? '-' (← digitOrTwo? (← char? '-' (← digits? 4 cs)))))
    digits? 2 (← char? ':' (← digits? 2 (← char? ':' (← digitOrTwo? time))))
  rest?.any fun rest => isZone (afterFraction rest)

/-- Whether a reader takes the text for something other than a string. -/
def readsAsOther (s : String) : Bool :=
  let cs := s.toList
  isWord s || isInteger cs || isFraction cs || isSpecialNumber s || isDate cs || isTimestamp cs

/-! ## Styles -/

/-- A character that ends a line. -/
def isBreak (c : Char) : Bool := c ∈ ['\n', '\u0085', '\u2028', '\u2029']

/-- A character that separates indicators from text. -/
def isGap (c : Char) : Bool := c ∈ ['\x00', ' ', '\t', '\r'] || isBreak c

/-- A character that can stand as it is in a plain or single-quoted text. -/
def isOrdinary (c : Char) : Bool :=
  let n := c.toNat
  n == 0x0A || (0x20 ≤ n && n ≤ 0x7E) || n == 0x85 || (0xA0 ≤ n && n ≤ 0xFFFD && n != 0xFEFF)
    || (0x10000 ≤ n && n < 0x10FFFF)

/-- Whether nothing or a gap follows. -/
def atGap : List Char → Bool
  | [] => true
  | c :: _ => isGap c

/-- Whether a colon before a gap, or a mark of comments behind one, stands in the text behind its first character. -/
def hasIndicator : (previous : Char) → List Char → Bool
  | _, [] => false
  | previous, c :: rest => (c == ':' && atGap rest) || (c == '#' && isGap previous) || hasIndicator c rest

/-- Whether the first character makes the text something else than plain. -/
def opensOther : List Char → Bool
  | [] => true
  | c :: rest =>
    c ∈ ['#', ',', '[', ']', '\x7b', '\x7d', '&', '*', '!', '|', '>', '\'', '"', '%', '@', '`']
      || (c ∈ ['?', ':', '-'] && atGap rest) || hasIndicator c rest

/-- Whether a space stands right before or right after a line end. -/
def spaceAtBreak : List Char → Bool
  | a :: b :: rest => (a == ' ' && isBreak b) || (isBreak a && b == ' ') || spaceAtBreak (b :: rest)
  | _ => false

inductive Style
  | plain
  | single
  | double
deriving DecidableEq

/-- Whether the text can stand plain, whatever a reader takes it for. -/
def allowsPlain (cs : List Char) : Bool :=
  !cs.any isBreak && cs.head? != some ' ' && cs.getLast? != some ' ' && !opensOther cs
    && cs.take 3 != ['-', '-', '-'] && cs.take 3 != ['.', '.', '.']

/-- The style of a string. -/
def styleOf (s : String) : Style :=
  let cs := s.toList
  if cs.isEmpty then .single
  else if !cs.all isOrdinary || spaceAtBreak cs then .double
  else if allowsPlain cs && !readsAsOther s then .plain
  else .single

/-! ## Scalars that are no strings -/

/-- A mantissa without a point gets one in front of the exponent. -/
def withPoint (text : List Char) : List Char :=
  if '.' ∈ text then text
  else text.flatMap fun c => if c = 'e' then ['.', '0', 'e'] else [c]

def number (x : Float) : String :=
  match Binary64.ofFloat x with
  | .finite .. => String.ofList (withPoint (Decimal.text x).toList)
  | .infinite negative => if negative then "-.inf" else ".inf"
  | .nan => ".nan"

end LoxLang.Data.Yaml
