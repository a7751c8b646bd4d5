import LoxLang.Binding.Uses
import LoxLang.Eval
import LoxLang.Session.Report
import LoxLang.Syntax.Errors
import LoxLang.Syntax.Parser.Statement
import LoxLang.Token.Lexer

/-!
# Sessions

A session runs one program after another on the same globals. A program is scanned, parsed and resolved; if nothing is
wrong with it, it is executed in the global frame. Whatever is wrong becomes the result of the run, with the diagnostics
and a message that shows them.
-/

namespace LoxLang

/-! ## Natives -/

/-- The functions that every program finds. -/
def natives : Table Value :=
  [("clock", .native "clock" 0 .clock), ("now", .native "now" 0 .clock), ("println", .native "println" 1 .println)]

/-- The machine with the natives in its global frame. -/
def Machine.installNatives (m : Machine) : Machine :=
  { m with store := natives.foldl (fun store (name, v) => store.bind Store.root name v) m.store }

/-- The global names in order. -/
def Machine.globals (m : Machine) : Table Value := (m.store.frame Store.root).bindings.sorted

/-! ## Results -/

inductive Outcome
  | success (value : Value)
  | failure (first : Diagnostic) (others : List Diagnostic) (message : String)

/-- What a run answers. -/
structure RunResult where
  outcome : Outcome
  effects : List Effect

namespace RunResult

def diagnostics (r : RunResult) : List Diagnostic :=
  match r.outcome with
  | .success _ => []
  | .failure first others _ => first :: others

/-- The lines printed, in order. -/
def printed (r : RunResult) : List String := (r.effects.filter (·.topic = .stdout)).map (·.message)

def status (r : RunResult) : String :=
  match r.outcome with
  | .success _ => Report.successStatus
  | .failure .. => Report.failedStatus

/-- The message of a failure. -/
def message? (r : RunResult) : Option String :=
  match r.outcome with
  | .success _ => none
  | .failure _ _ message => some message

/-- The value of a success. -/
def value (r : RunResult) : Value :=
  match r.outcome with
  | .success value => value
  | .failure .. => .nil

/-- The line of the first diagnostic. -/
def line? (r : RunResult) : Option Line := r.diagnostics.head?.map (·.line)

/-- The failure in words, with its line in front. -/
def errorText (r : RunResult) : String := Report.summary r.status r.message? (r.line?.map toString)

end RunResult

/-- What ends a run without a result. -/
inductive Escape
  | resolution (f : ResolveFault)
  | execution (f : Fault)

/-! ## Sessions -/

structure Session where
  machine : Machine
  /-- The host whose functions the next run finds. -/
  host : Option Nat
  /-- The global names that the previous run's host lent. -/
  lent : List String

namespace Session

/-- A new session. -/
def start (e : Surroundings) : Session := ⟨(Machine.inside e).installNatives, none, []⟩

def initial (output : Output) : Session := start { output }

/-- Lend the functions of another host, or of none, from the next run on. -/
def setHost (s : Session) (host : Option Host) : Session :=
  match host with
  | none => { s with host := none }
  | some h =>
    { s with machine := { s.machine with hosts := s.machine.hosts.push h }, host := some s.machine.hosts.size }

/-- The functions that a host lends, as globals. -/
def lentTable (index : Nat) (h : Host) : Table Value :=
  h.lends.sorted.map fun (name, arity) => (name, .native name arity (.host index))

/-- The functions that the next run's host lends. -/
def toLend (s : Session) : Table Value :=
  match s.host with
  | none => []
  | some index => ((s.machine.hosts[index]?).map (lentTable index)).getD []

/-- Take back what the previous run's host lent, and lend what the present one has. -/
def bindHost (s : Session) : Session :=
  let table := s.toLend
  let without := s.lent.foldl (fun store name => store.unbind Store.root name) s.machine.store
  let store := table.foldl (fun store (name, v) => store.bind Store.root name v) without
  { s with machine := { s.machine with store }, lent := table.keys }

/-- Forget the effects and the active calls of the previous run. -/
def clear (s : Session) : Session :=
  { s with machine := { s.machine with effects := #[], activations := #[] } }

def record (s : Session) (topic : Topic) (message : String) : Session :=
  { s with machine := { s.machine with effects := s.machine.effects.push ⟨topic, message⟩ } }

/-- The result of a run that failed with these diagnostics while these calls were active. -/
def fail (s : Session) (source : String) (first : Diagnostic) (others : List Diagnostic) (calls : List Activation) :
    RunResult × Session :=
  let message := Report.message source (first :: others) calls
  let s := s.record .stderr message
  (⟨.failure first others message, s.machine.effects.toList⟩, s)

/-- The result of a run that ended with a value. The time it took is left open. -/
def succeed (s : Session) (value : Value) : RunResult × Session :=
  let s := s.record .progress "Executed in Nμs"
  (⟨.success value, s.machine.effects.toList⟩, s)

/-- How many of the active calls are kept when the stack overflows. -/
def keptCalls : Nat := 8

/-- The line of the innermost active call. -/
def innermostLine (m : Machine) : Line := (m.activations.back?.map (·.line)).getD 0

/-- The result of a run that failed with a diagnostic; no result if one of the active calls cannot be shown. -/
def failInCalls (s : Session) (source : String) (d : Diagnostic) : Except Escape RunResult × Session :=
  let calls := s.machine.activations.toList
  if calls.all Activation.hasText then
    let (result, s) := s.fail source d [] calls
    (.ok result, s)
  else (.error (.execution .outOfRange), s)

/-- Execute a resolved program. -/
def execute (fuel : Nat) (s : Session) (source : String) (steps : List Node) : Except Escape RunResult × Session :=
  match Exec.program fuel steps s.machine with
  | .ok signal machine =>
    let (result, s) := { s with machine }.succeed signal.value
    (.ok result, s)
  | .error fault machine =>
    match fault with
    | .runtime line cause => { s with machine }.failInCalls source ⟨.runtime, line, cause.message⟩
    | .overflow =>
      let kept := machine.activations.take keptCalls
      { s with machine := { machine with activations := kept } }.failInCalls source
        ⟨.runtime, innermostLine machine, RuntimeCause.stackOverflow.message⟩
    | other => (.error (.execution other), { s with machine })

/-- Resolve and execute the steps of a program in which no diagnostic stands. -/
def runSteps (fuel : Nat) (s : Session) (source : String) (steps : List Node) : Except Escape RunResult × Session :=
  match resolve steps with
  | .ok resolved => s.execute fuel source resolved
  | .error (.rejected line cause) =>
    let (result, s) := s.fail source (cause.diagnostic line) [] []
    (.ok result, s)
  | .error fault => (.error (.resolution fault), s)

/-- Run a program on a fuel. -/
def runWith (fuel : Nat) (s : Session) (source : String) : Except Escape RunResult × Session :=
  let s := s.clear.bindHost
  let scanned := Scan.of source
  match scanned.diagnostics with
  | first :: others =>
    let (result, s) := s.fail source first others []
    (.ok result, s)
  | [] =>
    let s := s.record .progress ("Scanned " ++ toString scanned.tokens.length ++ " tokens")
    let steps := parse scanned.tokens
    match Node.diagnosticsOf steps with
    | first :: others =>
      let (result, s) := s.fail source first others []
      (.ok result, s)
    | [] =>
      (s.record .progress ("Parsed tokens into " ++ toString steps.length ++ " blocks")).runSteps fuel source steps

/-- Log every call that is made from now on. -/
def startTrace (s : Session) : Session :=
  { s with machine := { s.machine with log := { s.machine.log with isOn := true } } }

/-- Forget what was written to the live output. -/
def rewind (s : Session) : Session :=
  { s with machine := { s.machine with output := match s.machine.output with
      | .live _ => .live ""
      | other => other } }

/-- Run a program. -/
def run (s : Session) (source : String) : Except Escape RunResult × Session := s.runWith Exec.budget source

end Session

end LoxLang
