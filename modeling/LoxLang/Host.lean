import LoxLang.Table
import LoxLang.Value

/-!
# Hosts

A host lends functions to the programs of a session, and may remember something between the calls of them. Which
functions it lends, and whether it lends any, is asked again whenever a run starts, and may depend on what it remembers.
-/

namespace LoxLang

/-- A call of one of a host's functions. -/
structure HostCall where
  method : String
  arguments : List Value

inductive HostReply
  | value (v : Value)
  /-- The function fails with a text. -/
  | failure (text : String)
  /-- The function raises a diagnostic of its own. -/
  | raised (d : Diagnostic)
  /-- The function exhausts the stack. -/
  | overflow

/-- What a host remembers from one call to the next. -/
structure HostMemory where
  count : Int
  /-- The values kept, the latest first. -/
  kept : List Value

structure Host where
  /-- Whether the host counts as one: while it does not, it lends nothing. -/
  isPresent : HostMemory → Bool
  /-- The functions lent, with the number of arguments that each requires. -/
  methods : HostMemory → Table Nat
  memory : HostMemory
  /-- The reply to a call, and what the host remembers after it. -/
  respond : HostCall → HostMemory → HostReply × HostMemory

namespace Host

/-- The functions that the host lends at this moment. -/
def lends (h : Host) : Table Nat := if h.isPresent h.memory then h.methods h.memory else []

/-- The names of a host's functions, in order. -/
def names (h : Host) : List String := (h.methods h.memory).sorted.keys

end Host

end LoxLang
