import LoxLang.Data
import LoxLang.Decimal
import LoxLang.Text.Quoted

/-!
# Plain data as JSON text

Strings keep every character that need not be escaped, and fields keep their order. Indented text has every element on
a line of its own, two spaces further in than the brackets around it.
-/

namespace LoxLang.Data.Json

/-- How a character is written between quotes. -/
def escape (c : Char) : List Char :=
  match c with
  | '"' => ['\\', '"']
  | '\\' => ['\\', '\\']
  | '\n' => ['\\', 'n']
  | '\r' => ['\\', 'r']
  | '\t' => ['\\', 't']
  | '\x08' => ['\\', 'b']
  | '\x0c' => ['\\', 'f']
  | c => if c.toNat < 0x20 then '\\' :: 'u' :: Text.hex false 4 c.toNat else [c]

def string (s : String) : String := String.ofList ('"' :: s.toList.flatMap escape ++ ['"'])

def number (x : Float) : String :=
  match Binary64.ofFloat x with
  | .finite .. => Decimal.text x
  | .infinite negative => if negative then "-Infinity" else "Infinity"
  | .nan => "NaN"

/-- Elements between brackets; the level is that of the line that the brackets stand on, if the text is indented. -/
def enclosed (opening closing : String) (level : Option Nat) (elements : List String) : String :=
  let margin (n : Nat) : String := "\n" ++ String.ofList (List.replicate (2 * n) ' ')
  if elements.isEmpty then opening ++ closing
  else match level with
    | none => opening ++ ", ".intercalate elements ++ closing
    | some n => opening ++ margin (n + 1) ++ ("," ++ margin (n + 1)).intercalate elements ++ margin n ++ closing

mutual

def text (level : Option Nat) : Data → String
  | null => "null"
  | bool b => if b then "true" else "false"
  | integer n => toString n
  | .number x => number x
  | .text s => string s
  | list items => enclosed "[" "]" level (texts (level.map (· + 1)) items)
  | record fields => enclosed "\x7b" "\x7d" level (fieldTexts (level.map (· + 1)) fields)

def texts (level : Option Nat) : List Data → List String
  | [] => []
  | d :: ds => text level d :: texts level ds

def fieldTexts (level : Option Nat) : List (String × Data) → List String
  | [] => []
  | (key, d) :: fields => (string key ++ ": " ++ text level d) :: fieldTexts level fields

end

/-- Data as JSON text, indented or on one line. -/
def render (pretty : Bool) (d : Data) : String := text (if pretty then some 0 else none) d

end LoxLang.Data.Json
