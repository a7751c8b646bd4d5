/-!
# Plain data

Nulls, booleans, numbers, texts, lists and records: what tokens, trees and values are turned into before they are
written as JSON or YAML.
-/

namespace LoxLang

/-- Plain data. The fields of a record keep their order. -/
inductive Data
  | null
  | bool (b : Bool)
  | integer (n : Int)
  | number (x : Float)
  | text (s : String)
  | list (items : List Data)
  | record (fields : List (String × Data))

instance : Inhabited Data := ⟨.null⟩

namespace Data

def ofNat (n : Nat) : Data := .integer n

def ofTexts (items : List String) : Data := .list (items.map .text)

end Data

end LoxLang
