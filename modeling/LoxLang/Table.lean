/-!
# Tables

Names with what they stand for, in the order in which the names were added. `Table.set` keeps the place of a name that
is already there.
-/

namespace LoxLang

abbrev Table (α : Type) := List (String × α)

namespace Table

variable {α : Type}

def get? (t : Table α) (name : String) : Option α := (t.find? (·.1 == name)).map (·.2)

def contains (t : Table α) (name : String) : Bool := t.any (·.1 == name)

def set (t : Table α) (name : String) (a : α) : Table α :=
  match t with
  | [] => [(name, a)]
  | (key, b) :: rest => if key = name then (key, a) :: rest else (key, b) :: set rest name a

def erase (t : Table α) (name : String) : Table α := t.filter (·.1 != name)

def keys (t : Table α) : List String := t.map (·.1)

/-- The entries in the order of their names. -/
def sorted (t : Table α) : Table α := t.mergeSort fun a b => decide (a.1 ≤ b.1)

end Table

end LoxLang
