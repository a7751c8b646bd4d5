import LoxLang.Fault
import LoxLang.Host
import LoxLang.Store

/-!
# The machine

A store together with everything else that a run reads or changes: the calls that are active, what was printed or
reported, the live output, the hosts, a clock, and a log of calls. `Exec` computations change the machine and may fault;
a fault leaves the machine as it is at that moment.
-/

namespace LoxLang

/-! ## What can be seen from outside -/

inductive Topic
  | stdout
  | stderr
  | progress
deriving DecidableEq

def Topic.label : Topic → String
  | stdout => "stdout"
  | stderr => "stderr"
  | progress => "progress"

/-- A message that a run leaves behind. -/
structure Effect where
  topic : Topic
  message : String
deriving DecidableEq

/-- A call that has not returned yet. -/
structure Activation where
  name : String
  arguments : List Value
  line : Line

/-- Whether the arguments can be shown. -/
def Activation.hasText (a : Activation) : Bool := Value.haveText a.arguments

/-- Where printed lines go while a program runs. -/
inductive Output
  | none
  /-- An open stream with what was written to it. -/
  | live (written : String)
  /-- A stream that refuses everything. -/
  | closed

/-- The output when it takes a line. -/
def Output.write (line : String) : Output → Output
  | live written => live (written ++ line ++ "\n")
  | other => other

/-- What becomes of a line for the log of calls. -/
inductive LogReply
  | kept
  /-- The log cannot be written, and nobody is told. -/
  | lost
  /-- The log is closed, and says so. -/
  | refused
deriving DecidableEq

/-- The log of calls. -/
structure DebugLog where
  /-- Whether calls are logged. -/
  isOn : Bool
  /-- What becomes of the n-th line. -/
  reply : Nat → LogReply
  /-- How many lines there were for the log so far. -/
  offered : Nat
  lines : Array String

namespace DebugLog

/-- A log that would keep every line, if calls were logged. -/
def off : DebugLog := ⟨false, fun _ => .kept, 0, #[]⟩

/-- The log after a line was offered to it. -/
def offer (line : String) (log : DebugLog) : DebugLog :=
  { log with
    offered := log.offered + 1
    lines := if log.reply log.offered = .kept then log.lines.push line else log.lines }

/-- Whether the log refuses the next line. -/
def refusesNext (log : DebugLog) : Bool := log.isOn && log.reply log.offered = .refused

end DebugLog

/-- A clock that always shows the same time. -/
def stoppedClock : Nat → Float := fun _ => 1000000000.0

/-- What programs find around them, and do not change. -/
structure Surroundings where
  output : Output := .none
  /-- Whether an open stream refuses the n-th line that is printed. -/
  refuses : Nat → Bool := fun _ => false
  /-- What the clock shows when it is read for the n-th time. -/
  clock : Nat → Float := stoppedClock
  /-- More active calls than this overflow the stack. -/
  callLimit : Nat := 1100
  log : DebugLog := .off

structure Machine where
  store : Store
  /-- The active calls, the outermost first. -/
  activations : Array Activation
  effects : Array Effect
  output : Output
  /-- Whether an open stream refuses the n-th line that is printed. -/
  refuses : Nat → Bool
  /-- How many lines were printed so far, in all runs. -/
  writes : Nat
  /-- The hosts met so far. -/
  hosts : Array Host
  /-- What the clock shows when it is read for the n-th time. -/
  clock : Nat → Float
  ticks : Nat
  /-- More active calls than this overflow the stack. -/
  callLimit : Nat
  log : DebugLog

namespace Machine

/-- A machine with an empty store. -/
def inside (e : Surroundings) : Machine :=
  { e with store := .initial, activations := #[], effects := #[], writes := 0, hosts := #[], ticks := 0 }

def initial (output : Output) : Machine := inside { output }

/-- The lines of the log. -/
def trace (m : Machine) : Array String := m.log.lines

/-- The messages printed so far. -/
def printed (m : Machine) : List String :=
  (m.effects.toList.filter (·.topic = .stdout)).map (·.message)

/-- Whether the output refuses the n-th line. -/
def refusesLine (m : Machine) (n : Nat) : Bool :=
  match m.output with
  | .none => false
  | .live _ => m.refuses n
  | .closed => true

/-- What was written to the live output. -/
def written (m : Machine) : String :=
  match m.output with
  | .live text => text
  | _ => ""

end Machine

/-! ## Computations -/

abbrev Exec : Type → Type := EStateM Fault Machine

namespace Exec

variable {α : Type}

/-- Fail on a line, unless the message cannot be written. -/
def failAt (line : Line) (cause : RuntimeCause) : Exec α :=
  throw (if cause.hasText then .runtime line cause else .outOfRange)

/-- What `print` writes for a value. -/
def textOf (v : Value) : Exec String := if v.hasText then pure v.printed else throw .outOfRange

/-- Look at the store. -/
def inspect (f : Store → α) : Exec α := fun m => .ok (f m.store) m

/-- Change the store. -/
def update (f : Store → Store) : Exec Unit := fun m => .ok () { m with store := f m.store }

/-! ## Frames -/

/-- A new frame inside `parent`, or with nothing around it. -/
def newFrame (parent : Option FrameId) (bindings : Table Value) : Exec FrameId := do
  let f ← inspect Store.nextFrame
  update fun s => s.pushFrame ((parent.map s.chain).getD []) bindings
  pure f

/-- Add a name to a frame that does not bind it yet. -/
def define (f : FrameId) (name : String) (v : Value) (line : Line) : Exec Unit := do
  if ← inspect (·.binds name f) then failAt line (.alreadyDefined name)
  else update (·.bind f name v)

/-- What a name means in a frame. -/
def lookup (f : FrameId) (name : String) (line : Line) : Exec Value := do
  match ← inspect (·.lookup? f name) with
  | some v => pure v
  | none => failAt line (.notFound name)

/-- Write to the nearest frame that binds the name. -/
def assign (f : FrameId) (name : String) (v : Value) (line : Line) : Exec Value := do
  match ← inspect (·.owner? f name) with
  | some g =>
    update (·.bind g name v)
    pure v
  | none => failAt line (.notDefined name)

def ancestor (f : FrameId) (depth : Nat) : Exec FrameId := do
  match ← inspect (·.ancestor? f depth) with
  | some g => pure g
  | none => throw (.shortChain depth)

/-- What the frame `depth` frames outwards binds the name to. -/
def lookupAt (f : FrameId) (depth : Nat) (name : String) (line : Line) : Exec Value := do
  let g ← ancestor f depth
  match ← inspect (·.own? g name) with
  | some v => pure v
  | none => failAt line (.notFound name)

/-- Write to the frame `depth` frames outwards, whether it binds the name or not. -/
def assignAt (f : FrameId) (depth : Nat) (name : String) (v : Value) : Exec Value := do
  let g ← ancestor f depth
  update (·.bind g name v)
  pure v

/-! ## Closures and objects -/

def newClosure (c : Closure) : Exec ClosureId := do
  let id ← inspect Store.nextClosure
  update (·.pushClosure c)
  pure id

def newObject (info : ClassInfo) : Exec ObjectId := do
  let id ← inspect Store.nextObject
  update (·.pushObject ⟨info, []⟩)
  pure id

/-- The method closed over a frame that holds `this`. -/
def bindMethod (c : ClosureId) (receiver : Value) : Exec ClosureId := do
  let closure ← inspect (·.closure c)
  let f ← newFrame (some closure.frame) [("this", receiver)]
  newClosure { closure with frame := f }

/-! ## Calls and effects -/

/-- What a closed log answers: it is no fault of the program, and belongs to no phase and no line. -/
def logRefusal : Diagnostic := ⟨.general, 0, "I/O operation on closed file."⟩

/-- A call in the log. -/
def logLine (a : Activation) : String :=
  "[DBG] Evaluator.call " ++ a.name ++ " argc " ++ toString a.arguments.length ++ " line " ++ toString a.line

/-- Log a call, if calls are logged. -/
def logCall (a : Activation) : Exec Unit := do
  let m ← EStateM.get
  if m.log.isOn then
    modify fun m => { m with log := m.log.offer (logLine a) }
    if m.log.refusesNext then throw (.raised logRefusal)

/-- A call is logged and becomes active. -/
def enterCall (a : Activation) : Exec Unit := do
  logCall a
  modify fun m => { m with activations := m.activations.push a }
  let m ← EStateM.get
  if m.callLimit < m.activations.size then throw .overflow

/-- The innermost call is over. -/
def leaveCall : Exec Unit := modify fun m => { m with activations := m.activations.pop }

/-- Record a message. -/
def record (topic : Topic) (message : String) : Exec Unit :=
  modify fun m => { m with effects := m.effects.push ⟨topic, message⟩ }

/-- Print a line: it is recorded first, and then written to the live output. -/
def emit (message : String) (line : Line) : Exec Unit := do
  record .stdout message
  let m ← EStateM.get
  modify fun m => { m with writes := m.writes + 1 }
  if m.refusesLine m.writes then failAt line .stdoutClosed
  else modify fun m => { m with output := m.output.write message }

/-- Read the clock. -/
def readClock : Exec Value := do
  let m ← EStateM.get
  modify fun m => { m with ticks := m.ticks + 1 }
  pure (.number (m.clock m.ticks))

/-- Ask a host. -/
def askHost (index : Nat) (call : HostCall) : Exec HostReply := fun m =>
  match m.hosts[index]? with
  | none => .ok (.value .nil) m
  | some host =>
    let (reply, memory) := host.respond call host.memory
    .ok reply { m with hosts := m.hosts.set! index { host with memory } }

end Exec

end LoxLang
