import LoxLang.Data
import LoxLang.Decimal
import LoxLang.Diagnostic

/-!
# Values

What expressions evaluate to. Functions, and the fields of instances, live in the store: a value names them by their
index there, and carries only what its text needs.
-/

namespace LoxLang

/-- Where a closure stands in the store. -/
abbrev ClosureId := Nat

/-- Where an instance stands in the store. -/
abbrev ObjectId := Nat

/-- What a native function does when it is called. -/
inductive Service
  /-- The time in seconds. -/
  | clock
  /-- Print the argument on a line of its own. -/
  | println
  /-- Count the arguments. -/
  | argumentCount
  /-- Ask one of the session's hosts. -/
  | host (index : Nat)
deriving DecidableEq

/-- A class: its name and its methods, a later one of a name hiding an earlier one. -/
structure ClassInfo where
  name : String
  methods : List (String × ClosureId)
deriving DecidableEq

/-- A value that the language has no means to build: a host may hand it over, and it can be passed on and shown. -/
structure Foreign where
  kind : String
  /-- The text at an indentation width and a nesting level. -/
  shown : Nat → Int → String
  /-- Whether there is such a text. -/
  hasText : Bool
  debugText : String
  data : Data

inductive Value
  | nil
  | bool (b : Bool)
  /-- An integer, which only hosts and given trees hold; numbers of a program are doubles. -/
  | integer (n : Int)
  | number (x : Float)
  | string (s : String)
  | function (name : String) (closure : ClosureId)
  | native (name : String) (arity : Nat) (service : Service)
  | classRef (info : ClassInfo)
  | object (className : String) (object : ObjectId)
  | list (items : List Value)
  | map (entries : List (String × Value))
  | diagnostic (d : Diagnostic)
  | foreign (f : Foreign)

instance : Inhabited Value := ⟨.nil⟩

namespace ClassInfo

/-- The method that a property access of the name finds. -/
def method? (c : ClassInfo) (name : String) : Option ClosureId :=
  (c.methods.reverse.find? (·.1 == name)).map (·.2)

end ClassInfo

namespace Value

/-! ## Kinds and truth -/

/-- The family of a value, as messages name it. -/
def kind : Value → String
  | nil => "nil"
  | bool _ => "boolean"
  | integer _ | number _ => "number"
  | string _ => "string"
  | function .. | native .. => "function"
  | .classRef _ => "class"
  | .object .. => "instance"
  | list _ => "list"
  | map _ => "dict"
  | diagnostic d => d.phase.family
  | foreign f => f.kind

/-- Nil, false, zero and the empty string are false; all else is true. -/
def truthy : Value → Bool
  | nil => false
  | bool b => b
  | integer n => n != 0
  | number x => x != 0.0
  | string s => s != ""
  | _ => true

/-! ## Texts -/

/-- The text of a callable or an instance, which is known by its name; other values have none. -/
def reference : Value → String
  | function name _ => "<fn " ++ name ++ ">"
  | native name .. => "<native fn " ++ name ++ ">"
  | .classRef info => "<class " ++ info.name ++ ">"
  | .object name _ => "<" ++ name ++ " instance>"
  | _ => ""

mutual

/-- The value in debugging output. -/
def debugText : Value → String
  | nil => "None"
  | bool b => if b then "True" else "False"
  | integer n => toString n
  | number x => Decimal.text x
  | string s => Text.quoted s
  | list items => "[" ++ ", ".intercalate (debugTexts items) ++ "]"
  | map entries => "\x7b" ++ ", ".intercalate (entryTexts entries) ++ "\x7d"
  | diagnostic d => d.debugText
  | foreign f => f.debugText
  | v => reference v

def debugTexts : List Value → List String
  | [] => []
  | v :: vs => debugText v :: debugTexts vs

def entryTexts : List (String × Value) → List String
  | [] => []
  | (key, v) :: entries => (Text.quoted key ++ ": " ++ debugText v) :: entryTexts entries

end

mutual

/-- Whether the value has a text outside debugging output: an integer beyond the range of doubles has none. -/
def hasText : Value → Bool
  | integer n => Binary64.inRange n
  | list items => haveText items
  | foreign f => f.hasText
  | _ => true

def haveText : List Value → Bool
  | [] => true
  | v :: vs => hasText v && haveText vs

end

/-- The spaces that open a line at a nesting level; there are none at levels below the first. -/
def margin (width : Nat) (level : Int) : String := String.ofList (List.replicate (width * level.toNat) ' ')

mutual

/-- The value in messages and trees: strings stand between quotes, the elements of a list on lines of their own. -/
def shown (width : Nat) (level : Int) : Value → String
  | nil => "nil"
  | bool b => if b then "true" else "false"
  | integer n => Decimal.display (Binary64.ofInt n)
  | number x => Decimal.display x
  | string s => "\"" ++ s ++ "\""
  | list items => "\n".intercalate (shownLines width level items)
  | map entries => "\x7b" ++ ", ".intercalate (entryTexts entries) ++ "\x7d"
  | diagnostic d => d.shown
  | foreign f => f.shown width level
  | v => reference v

def shownLines (width : Nat) (level : Int) : List Value → List String
  | [] => []
  | v :: vs => (margin width level ++ shown width level v) :: shownLines width level vs

end

/-- The value in a message. -/
def inMessage (v : Value) : String := v.shown 2 0

/-- What `print` writes: a string as it is. -/
def printed : Value → String
  | string s => s
  | v => v.inMessage

mutual

def data : Value → Data
  | nil => .null
  | bool b => .bool b
  | integer n => .integer n
  | number x => .number x
  | string s => .text s
  | list items => .list (dataOf items)
  | map entries => .record (dataOfEntries entries)
  | diagnostic d => .record [("kind", .text d.phase.label), ("line", .integer d.line), ("message", .text d.message)]
  | foreign f => f.data
  | v => .text (reference v)

def dataOf : List Value → List Data
  | [] => []
  | v :: vs => data v :: dataOf vs

def dataOfEntries : List (String × Value) → List (String × Data)
  | [] => []
  | (key, v) :: entries => (key, data v) :: dataOfEntries entries

end

end Value

end LoxLang
