import LoxLang.Table
import LoxLang.Value.Arithmetic

/-!
# Sequences of values

Requests to a list whose positions count from either end: `-1` is the last one. Values are searched by `Value.same`,
which compares booleans with numbers, and never takes one function or instance for another.
-/

namespace LoxLang

namespace Value

/-- The number that a value counts as when values are compared: a boolean is one or zero. -/
def count? : Value → Option Numeral
  | bool b => some (.integer (if b then 1 else 0))
  | v => v.numeral?

mutual

def same : Value → Value → Bool
  | nil, nil => true
  | string a, string b => a == b
  | diagnostic a, diagnostic b => a == b
  | list a, list b => sameAll a b
  | map a, map b => a.length == b.length && sameEntries a b
  | a, b =>
    match a.count?, b.count? with
    | some m, some n => m.equal n
    | _, _ => false

def sameAll : List Value → List Value → Bool
  | [], [] => true
  | v :: vs, w :: ws => same v w && sameAll vs ws
  | _, _ => false

/-- Whether the table holds the same value under every key of the entries. -/
def sameEntries : List (String × Value) → List (String × Value) → Bool
  | [], _ => true
  | (key, v) :: entries, table =>
    (match Table.get? table key with
      | some w => same v w
      | none => false) && sameEntries entries table

end

end Value

namespace Sequence

inductive Request
  | get (i : Int)
  | set (i : Int) (v : Value)
  | delete (i : Int)
  | insert (i : Int) (v : Value)
  | append (v : Value)
  | extend (vs : List Value)
  /-- Take out the value at a position, the last one by default. -/
  | pop (i : Int)
  | reverse
  | clear
  | length
  | contains (v : Value)
  | index (v : Value)
  | count (v : Value)
  | remove (v : Value)

inductive Answer
  | done
  | value (v : Value)
  | number (n : Nat)
  | truth (b : Bool)

inductive Refusal
  /-- There is nothing to read at the position. -/
  | outOfRange
  /-- There is nothing to write to at the position. -/
  | assignmentOutOfRange
  /-- The value is not in the list. -/
  | missing

def Refusal.message : Refusal → String
  | outOfRange => "list index out of range"
  | assignmentOutOfRange => "list assignment index out of range"
  | missing => ""

/-- The place of a position in a list of a length, if there is one. -/
def place? (length : Nat) (i : Int) : Option Nat :=
  let k := if i < 0 then i + length else i
  if 0 ≤ k ∧ k < length then some k.toNat else none

/-- The place at which a value is inserted: a position beyond either end is that end. -/
def clampedPlace (length : Nat) (i : Int) : Nat :=
  (if i < 0 then max 0 (i + length) else min i length).toNat

def indexOf? (items : List Value) (v : Value) : Option Nat := items.findIdx? fun w => Value.same w v

/-- The answer to a request, and the list after it. -/
def answer (items : List Value) : Request → Except Refusal (Answer × List Value)
  | .get i =>
    match (place? items.length i).bind (items[·]?) with
    | some v => .ok (.value v, items)
    | none => .error .outOfRange
  | .set i v =>
    match place? items.length i with
    | some k => .ok (.done, items.set k v)
    | none => .error .assignmentOutOfRange
  | .delete i =>
    match place? items.length i with
    | some k => .ok (.done, items.eraseIdx k)
    | none => .error .assignmentOutOfRange
  | .insert i v =>
    let k := clampedPlace items.length i
    .ok (.done, items.take k ++ v :: items.drop k)
  | .append v => .ok (.done, items ++ [v])
  | .extend vs => .ok (.done, items ++ vs)
  | .pop i =>
    match place? items.length i with
    | some k => .ok (.value ((items[k]?).getD .nil), items.eraseIdx k)
    | none => .error .outOfRange
  | .reverse => .ok (.done, items.reverse)
  | .clear => .ok (.done, [])
  | .length => .ok (.number items.length, items)
  | .contains v => .ok (.truth (items.any fun w => Value.same w v), items)
  | .index v =>
    match indexOf? items v with
    | some k => .ok (.number k, items)
    | none => .error .missing
  | .count v => .ok (.number (items.countP fun w => Value.same w v), items)
  | .remove v =>
    match indexOf? items v with
    | some k => .ok (.done, items.eraseIdx k)
    | none => .error .missing

end Sequence

end LoxLang
