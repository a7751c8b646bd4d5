import LoxLang.Text.Printable

/-!
# Quoted text

The form in which debugging output shows a string: between quotes, with the quote, the backslash, line ends, tabs and
unprintable characters written as escapes.
-/

namespace LoxLang.Text

/-! ## Digits of character codes -/

def hexDigit (upper : Bool) (n : Nat) : Char :=
  let c := Nat.digitChar (n % 16)
  if upper then c.toUpper else c

/-- The lowest `width` hexadecimal digits of a number. -/
def hex (upper : Bool) : (width : Nat) → Nat → List Char
  | 0, _ => []
  | width + 1, n => hex upper width (n / 16) ++ [hexDigit upper n]

/-- A character's code in two, four or eight hexadecimal digits, whichever suffice, after `x`, `u` or `U`. -/
def codeEscape (upper : Bool) (c : Char) : List Char :=
  let n := c.toNat
  if n < 0x100 then '\\' :: 'x' :: hex upper 2 n
  else if n < 0x10000 then '\\' :: 'u' :: hex upper 4 n
  else '\\' :: 'U' :: hex upper 8 n

/-! ## Quoting -/

/-- The quote around a text: single, unless the text holds a single quote and no double one. -/
def quoteFor (text : List Char) : Char := if '\'' ∈ text ∧ '"' ∉ text then '"' else '\''

def escape (quote c : Char) : List Char :=
  if c = quote ∨ c = '\\' then ['\\', c]
  else if c = '\n' then ['\\', 'n']
  else if c = '\r' then ['\\', 'r']
  else if c = '\t' then ['\\', 't']
  else if isUnprintable c then codeEscape false c
  else [c]

def quoted (s : String) : String :=
  let quote := quoteFor s.toList
  String.ofList (quote :: s.toList.flatMap (escape quote) ++ [quote])

end LoxLang.Text
