import LoxLang.Data.Yaml.Scalar
import LoxLang.Text.Quoted

/-!
# Plain data as YAML text

Block style: every entry of a list or a record on lines of its own, two columns further in than what it belongs to, but
for lists that are values of a record, which stand at the column of their key. Long texts are folded at single spaces.

The text is written from left to right by a `Cursor`, which knows the column, and whether the line so far holds nothing
but margins and the marks of entries, so that an entry of an entry can start on the same line.
-/

namespace LoxLang.Data.Yaml

/-- The text written so far. -/
structure Cursor where
  out : String
  column : Nat
  /-- Whether a mark can follow without a space. -/
  spaced : Bool
  /-- Whether the line holds only margins and marks of entries. -/
  fresh : Bool

namespace Cursor

def start : Cursor := ⟨"", 0, true, true⟩

def put (c : Cursor) (text : List Char) : Cursor :=
  { c with out := c.out ++ String.ofList text, column := c.column + text.length }

/-- A mark, after a space if it needs one; `entry` says that entries may follow it on the line. -/
def mark (c : Cursor) (text : List Char) (needsSpace entry : Bool) : Cursor :=
  { c.put (if c.spaced || !needsSpace then text else ' ' :: text) with spaced := false, fresh := c.fresh && entry }

/-- End the line with a line feed, or with another character that ends lines. -/
def breakLine (c : Cursor) (ending : Char) : Cursor :=
  { out := c.out.push ending, column := 0, spaced := true, fresh := true }

/-- Go to the margin, on a new line unless nothing stands on this one beyond the margin. -/
def toMargin (c : Cursor) (indent : Nat) : Cursor :=
  let c := if !c.fresh || indent < c.column || (c.column == indent && !c.spaced) then c.breakLine '\n' else c
  if c.column < indent then { c.put (List.replicate (indent - c.column) ' ') with spaced := true } else c

/-- The cursor inside a text. -/
def inText (c : Cursor) : Cursor := { c with spaced := false, fresh := false }

end Cursor

/-! ## Texts -/

/-- Texts are folded beyond this column. -/
def width : Nat := 80

/-- A stretch of a text: spaces, line ends, or anything else. -/
inductive Run
  | spaces (count : Nat)
  | breaks (cs : List Char)
  | word (cs : List Char)

/-- The stretches of a text. -/
def runs : List Char → List Run
  | [] => []
  | c :: rest =>
    if c = ' ' then
      match runs rest with
      | .spaces n :: more => .spaces (n + 1) :: more
      | more => .spaces 1 :: more
    else if isBreak c then
      match runs rest with
      | .breaks cs :: more => .breaks (c :: cs) :: more
      | more => .breaks [c] :: more
    else
      match runs rest with
      | .word cs :: more => .word (c :: cs) :: more
      | more => .word [c] :: more

/-- Spaces, or a new line in place of a single one far to the right. -/
def putSpaces (fold : Bool) (indent count : Nat) (c : Cursor) : Cursor :=
  if fold && count == 1 && width < c.column then c.toMargin indent else c.put (List.replicate count ' ')

/-- Line ends, with one more in front of them, since a single one would be read as a space. -/
def putBreaks (indent : Nat) (cs : List Char) (c : Cursor) : Cursor :=
  let c := if cs.head? = some '\n' then c.breakLine '\n' else c
  (cs.foldl Cursor.breakLine c).toMargin indent

def putPlainRuns (fold : Bool) (indent : Nat) (c : Cursor) : List Run → Cursor
  | [] => c
  | .spaces n :: more => putPlainRuns fold indent (putSpaces fold indent n c).inText more
  | .breaks cs :: more | .word cs :: more => putPlainRuns fold indent (c.put cs) more

def putPlain (fold : Bool) (indent : Nat) (text : List Char) (c : Cursor) : Cursor :=
  let c := if c.spaced then c else c.put [' ']
  putPlainRuns fold indent c.inText (runs text)

/-- Between single quotes a quote is written twice. -/
def doubled (cs : List Char) : List Char := cs.flatMap fun c => if c = '\'' then ['\'', '\''] else [c]

/-- The stretches of a single-quoted text; spaces at either end of it are not folded. -/
def putSingleRuns (fold : Bool) (indent : Nat) (c : Cursor) : (first : Bool) → List Run → Cursor
  | _, [] => c
  | first, .spaces n :: more =>
    putSingleRuns fold indent (putSpaces (fold && !first && !more.isEmpty) indent n c) false more
  | _, .breaks cs :: more => putSingleRuns fold indent (putBreaks indent cs c) false more
  | _, .word cs :: more => putSingleRuns fold indent (c.put (doubled cs)) false more

def putSingle (fold : Bool) (indent : Nat) (text : List Char) (c : Cursor) : Cursor :=
  (putSingleRuns fold indent (c.mark ['\''] true false) true (runs text)).mark ['\''] false false

/-- The letter that stands for a character behind a backslash. -/
def escapeLetter? (c : Char) : Option Char :=
  match c with
  | '\x00' => some '0'
  | '\x07' => some 'a'
  | '\x08' => some 'b'
  | '\t' => some 't'
  | '\n' => some 'n'
  | '\x0b' => some 'v'
  | '\x0c' => some 'f'
  | '\r' => some 'r'
  | '\x1b' => some 'e'
  | '"' => some '"'
  | '\\' => some '\\'
  | '\u0085' => some 'N'
  | '\u2028' => some 'L'
  | '\u2029' => some 'P'
  | _ => none

/-- How a character is written between double quotes, if not as it is. -/
def escape? (c : Char) : Option (List Char) :=
  let n := c.toNat
  match escapeLetter? c with
  | some letter => some ['\\', letter]
  | none =>
    if (0x20 ≤ n && n ≤ 0x7E) || (0xA0 ≤ n && n ≤ 0xFFFD && n != 0xFEFF) then none else some (Text.codeEscape true c)

/-- A backslash and a new line, and another backslash if a space would open it. -/
def foldDouble (indent : Nat) (next : Option Char) (c : Cursor) : Cursor :=
  let c := ((c.put ['\\']).toMargin indent).inText
  if next = some ' ' then c.put ['\\'] else c

/-- The characters between double quotes. A long line is broken at a space, or around an escaped character, but not at
either end of the text. -/
def putDoubleChars (fold : Bool) (indent : Nat) (c : Cursor) : (first afterEscape : Bool) → List Char → Cursor
  | _, _, [] => c
  | first, afterEscape, x :: rest =>
    let inside := fold && !first && !rest.isEmpty
    match escape? x with
    | some escaped =>
      let c := c.put escaped
      let c := if inside && width + 1 < c.column then foldDouble indent rest.head? c else c
      putDoubleChars fold indent c false true rest
    | none =>
      let c := if inside && (x == ' ' || afterEscape) && width < c.column then foldDouble indent (some x) c else c
      putDoubleChars fold indent (c.put [x]) false false rest

def putDouble (fold : Bool) (indent : Nat) (text : List Char) (c : Cursor) : Cursor :=
  (putDoubleChars fold indent (c.mark ['"'] true false) true false text).mark ['"'] false false

/-- A string, as a key or as a value, with the indentation of its further lines. -/
def putString (key : Bool) (indent : Nat) (s : String) (c : Cursor) : Cursor :=
  match styleOf s with
  | .plain => putPlain (!key) indent s.toList c
  | .single => putSingle (!key) indent s.toList c
  | .double => putDouble (!key) indent s.toList c

/-! ## Collections -/

/-- Keys this long, with the five characters of their type, do not stand in front of a colon. -/
def keyLimit : Nat := 123

/-- Whether a key can stand in front of a colon on one line. -/
def isSimpleKey (key : String) : Bool := key.length < keyLimit && key != "" && !key.toList.any isBreak

/-- The indentation of a collection inside one of the given indentation; there is none at the root. -/
def deeper : Option Nat → Nat
  | none => 0
  | some n => n + 2

/-- The indentation of the further lines of a text. -/
def textIndent (indent : Option Nat) : Nat := (indent.getD 0) + 2

/-- A mark of two brackets for an empty collection. -/
def putEmpty (opening closing : Char) (c : Cursor) : Cursor :=
  (c.mark [opening] true false).mark [closing] false false

mutual

/-- Write data inside a collection of the given indentation; `value` says that it is the value of a field. -/
def put (value : Bool) (indent : Option Nat) (d : Data) (c : Cursor) : Cursor :=
  match d with
  | null => putPlain true (textIndent indent) "null".toList c
  | bool b => putPlain true (textIndent indent) (if b then "true" else "false").toList c
  | integer n => putPlain true (textIndent indent) (toString n).toList c
  | .number x => putPlain true (textIndent indent) (number x).toList c
  | text s => putString false (textIndent indent) s c
  | list items =>
    if items.isEmpty then putEmpty '[' ']' c
    else putItems (if value && !c.fresh then indent.getD 0 else deeper indent) items c
  | record fields =>
    if fields.isEmpty then putEmpty '\x7b' '\x7d' c
    else putFields (deeper indent) fields c

def putItems (indent : Nat) (items : List Data) (c : Cursor) : Cursor :=
  match items with
  | [] => c
  | d :: ds => putItems indent ds (put false (some indent) d ((c.toMargin indent).mark ['-'] true true))

def putFields (indent : Nat) (fields : List (String × Data)) (c : Cursor) : Cursor :=
  match fields with
  | [] => c
  | (key, d) :: more =>
    let c := c.toMargin indent
    let c :=
      if isSimpleKey key then (putString true (indent + 2) key c).mark [':'] false false
      else
        let c := putString false (indent + 2) key (c.mark ['?'] true true)
        (c.toMargin indent).mark [':'] true true
    putFields indent more (put true (some indent) d c)

end

/-! ## Documents -/

/-- Whether the data is written as a plain text. -/
def isPlainScalar : Data → Bool
  | null | bool _ | integer _ | .number _ => true
  | text s => styleOf s = .plain
  | list _ | record _ => false

/-- Data as YAML text. A plain text that stands alone is closed by three points. -/
def render (d : Data) : String :=
  let c := (put false none d .start).toMargin 0
  if isPlainScalar d then ((c.mark ['.', '.', '.'] true false).toMargin 0).out else c.out

end LoxLang.Data.Yaml
