import LoxLang.Eval

/-!
# Single steps on a machine

What each elementary computation does to a machine: one equation for each, so that no later proof opens their `do`
blocks.
-/

namespace LoxLang

/-- The machine on which a call of a closure has its frame. -/
def Machine.called (m : Machine) (c : ClosureId) : Machine :=
  { m with store := m.store.pushFrame (m.store.chain (m.store.closure c).frame) [] }

/-- The log refuses some line. -/
def DebugLog.CanClose (log : DebugLog) : Prop := log.isOn = true ∧ ∃ n, log.reply n = .refused

theorem DebugLog.canClose_of_refusesNext {log : DebugLog} (h : log.refusesNext = true) : log.CanClose := by
  obtain ⟨hon, hreply⟩ := Bool.and_eq_true_iff.mp h
  exact ⟨hon, log.offered, of_decide_eq_true hreply⟩

namespace Exec

variable {α β : Type} (m : Machine)

theorem bind_apply (x : Exec α) (f : α → Exec β) :
    (x >>= f) m = match x m with
      | .ok a m₁ => f a m₁
      | .error fault m₁ => .error fault m₁ := by
  show EStateM.bind x f m = _
  unfold EStateM.bind
  cases x m <;> rfl

/-! ## Frames -/

theorem define_apply (f : FrameId) (name : String) (v : Value) (line : Line) :
    define f name v line m =
      if m.store.binds name f then .error (.runtime line (.alreadyDefined name)) m
      else .ok () { m with store := m.store.bind f name v } := by
  show (if m.store.binds name f then _ else _ : Exec Unit) m = _
  split <;> rfl

theorem lookup_apply (f : FrameId) (name : String) (line : Line) :
    lookup f name line m =
      match m.store.lookup? f name with
      | some v => .ok v m
      | none => .error (.runtime line (.notFound name)) m := by
  show (match m.store.lookup? f name with | some v => _ | none => _ : Exec Value) m = _
  cases m.store.lookup? f name <;> rfl

theorem inspect_apply (f : Store → α) : inspect f m = .ok (f m.store) m := rfl

theorem ancestor_apply {f : FrameId} {depth : Nat} {g : FrameId} (h : m.store.ancestor? f depth = some g) :
    ancestor f depth m = .ok g m := by
  rw [ancestor, bind_apply, inspect_apply]
  simp only [h]
  rfl

theorem lookupAt_apply {f : FrameId} {depth : Nat} {g : FrameId} (h : m.store.ancestor? f depth = some g)
    (name : String) (line : Line) :
    lookupAt f depth name line m =
      match m.store.own? g name with
      | some v => .ok v m
      | none => .error (.runtime line (.notFound name)) m := by
  rw [lookupAt, bind_apply, ancestor_apply m h]
  dsimp only
  rw [bind_apply, inspect_apply]
  cases m.store.own? g name <;> rfl

theorem assign_apply (f : FrameId) (name : String) (v : Value) (line : Line) :
    assign f name v line m =
      match m.store.owner? f name with
      | some g => .ok v { m with store := m.store.bind g name v }
      | none => .error (.runtime line (.notDefined name)) m := by
  show (match m.store.owner? f name with | some g => _ | none => _ : Exec Value) m = _
  cases m.store.owner? f name <;> rfl

theorem assignAt_apply {f : FrameId} {depth : Nat} {g : FrameId} (h : m.store.ancestor? f depth = some g)
    (name : String) (v : Value) :
    assignAt f depth name v m = .ok v { m with store := m.store.bind g name v } := by
  rw [assignAt, bind_apply, ancestor_apply m h]
  rfl

theorem newFrame_apply (f : FrameId) (bindings : Table Value) :
    newFrame (some f) bindings m =
      .ok m.store.nextFrame { m with store := m.store.pushFrame (m.store.chain f) bindings } := rfl

/-! ## Closures and objects -/

theorem newClosure_apply (c : Closure) :
    newClosure c m = .ok m.store.nextClosure { m with store := m.store.pushClosure c } := rfl

theorem newObject_apply (info : ClassInfo) :
    newObject info m = .ok m.store.nextObject { m with store := m.store.pushObject ⟨info, []⟩ } := rfl

/-- The store after a method was closed over a receiver. -/
def boundStore (s : Store) (c : ClosureId) (receiver : Value) : Store :=
  (s.pushFrame (s.chain (s.closure c).frame) [("this", receiver)]).pushClosure
    { s.closure c with frame := s.nextFrame }

theorem bindMethod_apply (c : ClosureId) (receiver : Value) :
    bindMethod c receiver m =
      .ok m.store.nextClosure { m with store := boundStore m.store c receiver } := rfl

/-! ## Calls and effects -/

/-- The machine that has recorded a line, and written it if its output takes it. -/
def emitted (m : Machine) (message : String) : Machine :=
  { m with
    effects := m.effects.push ⟨.stdout, message⟩
    writes := m.writes + 1
    output := if m.refusesLine m.writes then m.output else m.output.write message }

/-- Printing changes nothing about which lines are refused. -/
theorem refusesLine_emitted (message : String) : (emitted m message).refusesLine = m.refusesLine := by
  funext n
  unfold emitted Machine.refusesLine
  cases m.output with
  | none | closed => rfl
  | live written =>
    dsimp only
    cases m.refuses m.writes <;> rfl

theorem emit_apply (message : String) (line : Line) :
    emit message line m =
      if m.refusesLine m.writes then .error (.runtime line .stdoutClosed) (emitted m message)
      else .ok () (emitted m message) := by
  show (if m.refusesLine m.writes then _ else _ : Exec Unit) _ = _
  unfold emitted
  split <;> rfl

variable {m} in
/-- A host that is not there answers with nothing. -/
theorem askHost_of_none {index : Nat} (h : m.hosts[index]? = none) (call : HostCall) :
    askHost index call m = .ok (.value .nil) m := by
  unfold askHost
  rw [h]

variable {m} in
/-- A host answers, and remembers what it then remembers. -/
theorem askHost_of_some {index : Nat} {host : Host} (h : m.hosts[index]? = some host) (call : HostCall) :
    askHost index call m = .ok (host.respond call host.memory).1
      { m with hosts := m.hosts.set! index { host with memory := (host.respond call host.memory).2 } } := by
  unfold askHost
  rw [h]

theorem readClock_apply : readClock m = .ok (.number (m.clock m.ticks)) { m with ticks := m.ticks + 1 } := rfl

/-- The machine whose log was offered a call, if it is on. -/
def logged (m : Machine) (a : Activation) : Machine :=
  { m with log := if m.log.isOn then m.log.offer (logLine a) else m.log }

/-- Logging opens and closes nothing. -/
theorem canClose_of_logged {a : Activation} (h : (logged m a).log.CanClose) : m.log.CanClose := by
  unfold logged at h
  split at h <;> exact h

/-- The machine on which a call is active. -/
def entered (m : Machine) (a : Activation) : Machine :=
  { logged m a with activations := m.activations.push a }

theorem logCall_apply (a : Activation) :
    logCall a m = if m.log.refusesNext then .error (.raised logRefusal) (logged m a) else .ok () (logged m a) := by
  show (if m.log.isOn = true then _ else _ : Exec Unit) m = _
  unfold logged
  cases hon : m.log.isOn with
  | false => simp [DebugLog.refusesNext, hon]; rfl
  | true =>
    simp only [if_true]
    rw [bind_apply]
    dsimp only [modify, modifyGet, EStateM.modifyGet, MonadStateOf.modifyGet]
    split <;> rfl

theorem enterCall_apply (a : Activation) :
    enterCall a m =
      if m.log.refusesNext then .error (.raised logRefusal) (logged m a)
      else if m.callLimit < m.activations.size + 1 then .error .overflow (entered m a)
      else .ok () (entered m a) := by
  rw [enterCall, bind_apply, logCall_apply, ← Array.size_push a]
  cases m.log.refusesNext with
  | true => rfl
  | false =>
    show (if m.callLimit < (m.activations.push a).size then _ else _ : Exec Unit) _ = _
    simp only [if_false, Bool.false_eq_true]
    split <;> rfl

variable {m} in
/-- A call that is entered is logged and active. -/
theorem eq_entered {a : Activation} {u : Unit} {m₁ : Machine} (h : enterCall a m = .ok u m₁) : m₁ = entered m a := by
  rw [enterCall_apply] at h
  split at h
  · cases h
  · split at h <;> cases h
    rfl

/-- A value that is no instance can be called if it has a name and takes so many arguments. -/
theorem checkCallable_eq {v : Value} (hv : ∀ c o, v ≠ .object c o) (received : Nat) (line : Line) :
    checkCallable v received line =
      match callableName? v with
      | none => failAt line (.notCallable v)
      | some name =>
        inspect (·.arity v) >>= fun expected =>
          if received = expected then pure name else failAt line (.wrongArity expected received) := by
  cases v with
  | object c o => exact absurd rfl (hv c o)
  | _ => rfl

theorem leaveCall_apply : leaveCall m = .ok () { m with activations := m.activations.pop } := rfl

end Exec

/-! ## Steps behind steps -/

theorem Evaluator.executeAll_append (e : Evaluator) (scope : FrameId) (ns ms : List Node) :
    e.executeAll scope (ns ++ ms) = (do
      let signal ← e.executeAll scope ns
      if signal.isReturn then pure signal else e.executeAll scope ms) := by
  induction ns with
  | nil => simp [executeAll, Signal.isReturn]
  | cons n ns ih =>
    simp only [List.cons_append, executeAll, ih, bind_assoc]
    congr
    funext signal
    cases signal <;> simp [Signal.isReturn]

/-- Steps that run to their end hand their machine to the steps behind them. -/
theorem Exec.program_append {fuel : Nat} {ns ms : List Node} {m m₁ : Machine}
    (h : Exec.program fuel ns m = .ok .proceed m₁) :
    Exec.program fuel (ns ++ ms) m = Exec.program fuel ms m₁ := by
  rw [Exec.program, Evaluator.executeAll_append, Exec.bind_apply]
  rw [Exec.program] at h
  rw [h]
  rfl

end LoxLang
