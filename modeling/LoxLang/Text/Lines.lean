/-!
# Lines of a text

A text cut at every character that ends a line somewhere: line feeds, carriage returns (with a line feed behind them or
not), vertical tabs, form feeds, the information separators, and the Unicode line ends. A line end at the end of the
text starts no further line.
-/

namespace LoxLang.Text

def isLineEnd (c : Char) : Bool :=
  c ∈ ['\n', '\r', '\x0b', '\x0c', '\x1c', '\x1d', '\x1e', '\u0085', '\u2028', '\u2029']

/-- Put a character in front of the first line. -/
def prependToFirst (c : Char) : List (List Char) → List (List Char)
  | [] => [[c]]
  | first :: others => (c :: first) :: others

def lineChars : List Char → List (List Char)
  | [] => []
  | '\r' :: '\n' :: rest => [] :: lineChars rest
  | c :: rest => if isLineEnd c then [] :: lineChars rest else prependToFirst c (lineChars rest)

/-- The lines of a text, without what ends them. -/
def lines (s : String) : List String := (lineChars s.toList).map String.ofList

end LoxLang.Text
