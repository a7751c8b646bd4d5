import LoxLang.Proofs.Everywhere
import LoxLang.Proofs.Steps

/-!
# Invariants of runs

An invariant is a property of machines that every computation of a run keeps. With it comes what it tells of a fault at
the end, and what it asks of the trees that are executed and of the lines on which they may fail. To know it of all
runs it is enough to know that it suits what the evaluator does to closures, active calls, the output, the hosts and
the log (`Invariant.Lawful`); nothing else matters to it, and so it passes from the elementary computations to the
execution of whole programs (`Invariant.Lawful.program`).
-/

namespace LoxLang

open Exec

/-- The line of a node, on which its execution fails if it does. -/
def Node.line? : Node → Option Line
  | literal _ line | grouping _ line | unary _ _ line | binary _ _ _ line | logical _ _ _ line | var _ line _
  | assign _ _ line _ | this line _ | call _ _ line | get _ _ line | set _ _ _ line | block _ line | letDecl _ _ line
  | print _ line | ifElse _ _ _ line | whileLoop _ _ line | function _ _ _ line | returnStep _ line
  | classDecl _ _ line => some line
  | error _ | absent | bare _ => none

/-- A fault that has neither a line nor a diagnostic, and is not about the active calls. -/
def Fault.IsInternal : Fault → Prop
  | runtime .. | raised _ | overflow => False
  | _ => True

/-- A property of machines, with what it tells of faults and what it asks of nodes and lines. -/
structure Invariant where
  machine : Machine → Prop
  fault : Machine → Fault → Prop
  node : Node → Prop
  line : Line → Prop

/-- From machines of the invariant the computation leads to such machines, and to faults that are as the invariant
says. -/
def Invariant.Keeps (I : Invariant) {α : Type} (x : Exec α) : Prop :=
  ∀ m, I.machine m → match x m with
    | .ok _ m' => I.machine m'
    | .error fault m' => I.machine m' ∧ I.fault m' fault

/-- The invariant suits what the evaluator does. -/
structure Invariant.Lawful (I : Invariant) : Prop where
  same : ∀ {m m' : Machine}, I.machine m → m'.store.closures = m.store.closures → m'.activations = m.activations →
    m'.hosts = m.hosts → m'.log = m.log → I.machine m'
  body : ∀ {m : Machine}, I.machine m → ∀ c, I.node (m.store.closure c).body
  pushClosure : ∀ {m : Machine} {c : Closure}, I.machine m → I.node c.body →
    I.machine { m with store := m.store.pushClosure c }
  logged : ∀ {m : Machine} (a : Activation), I.machine m → I.machine (logged m a)
  entered : ∀ {m : Machine} {a : Activation}, I.machine m → I.line a.line → I.machine (entered m a)
  left : ∀ {m : Machine}, I.machine m → I.machine { m with activations := m.activations.pop }
  runtime : ∀ {line : Line} (cause : RuntimeCause) (m : Machine), I.line line → I.fault m (.runtime line cause)
  /-- `println` prints on line 0, whichever its own line is. -/
  refused : ∀ {m : Machine} {n : Nat}, m.refusesLine n = true → I.fault m (.runtime 0 .stdoutClosed)
  overflow : ∀ {m : Machine}, 0 < m.activations.size → I.fault m .overflow
  /-- A closed log answers before the call is active. -/
  unlogged : ∀ {m : Machine} (a : Activation), I.machine m → m.log.refusesNext = true →
    I.fault (Exec.logged m a) (.raised logRefusal)
  internal : ∀ {fault : Fault} (m : Machine), fault.IsInternal → I.fault m fault
  unread : ∀ {d : Diagnostic} (m : Machine), I.node (.error d) → d.phase = .parse → I.fault m (.raised d)
  host : ∀ (index : Nat) (call : HostCall) (name : String) {line : Line}, I.line line →
    I.Keeps (do let reply ← askHost index call; acceptReply name line reply)
  child : ∀ {n inner : Node}, I.node n → inner ∈ n.children → I.node inner
  ownLine : ∀ {n : Node} {line : Line}, I.node n → n.line? = some line → I.line line

namespace Invariant

/-! ## Computations -/

namespace Keeps

variable {I : Invariant} {α β : Type}

theorem pure (a : α) : I.Keeps (Pure.pure a) := fun _ h => h

theorem throw {fault : Fault} (hf : ∀ m, I.fault m fault) : I.Keeps (throw fault : Exec α) := fun m h => ⟨h, hf m⟩

theorem bind {x : Exec α} {k : α → Exec β} (hx : I.Keeps x) (hk : ∀ a, I.Keeps (k a)) : I.Keeps (x >>= k) := by
  intro m h
  have hm := hx m h
  rw [bind_apply]
  cases hr : x m with
  | error fault m₁ => rwa [hr] at hm
  | ok a m₁ =>
    rw [hr] at hm
    exact hk a m₁ hm

theorem inspect (g : Store → α) : I.Keeps (inspect g) := fun _ h => h

end Keeps

namespace Lawful

open Keeps

variable {I : Invariant} (hI : I.Lawful) {α β : Type}
include hI

theorem internalFault {fault : Fault} (hf : fault.IsInternal) : I.Keeps (throw fault : Exec α) :=
  throw fun m => hI.internal m hf

/-- The bodies of closures are trees of the invariant. -/
theorem closure_bind (c : ClosureId) {k : Closure → Exec β}
    (hk : ∀ closure : Closure, I.node closure.body → I.Keeps (k closure)) :
    I.Keeps (Exec.inspect (·.closure c) >>= k) := fun m h => hk (m.store.closure c) (hI.body h c) m h

theorem update {g : Store → Store} (hg : ∀ s, (g s).closures = s.closures) : I.Keeps (update g) := fun m h =>
  hI.same h (hg m.store) rfl rfl rfl

theorem textOf (v : Value) : I.Keeps (textOf v) := by
  unfold Exec.textOf
  split
  · exact pure _
  · exact hI.internalFault trivial

/-! ### Names -/

theorem newFrame (parent : Option FrameId) (bindings : Table Value) : I.Keeps (newFrame parent bindings) :=
  bind (inspect _) fun _ => bind (hI.update fun _ => rfl) fun _ => pure _

theorem ancestor (f : FrameId) (depth : Nat) : I.Keeps (ancestor f depth) := by
  refine bind (inspect _) fun found => ?_
  cases found with
  | some g => exact pure g
  | none => exact hI.internalFault trivial

theorem newClosure {c : Closure} (hc : I.node c.body) : I.Keeps (newClosure c) := fun _ h => hI.pushClosure h hc

theorem newObject (info : ClassInfo) : I.Keeps (newObject info) :=
  bind (inspect _) fun _ => bind (hI.update fun _ => rfl) fun _ => pure _

theorem bindMethod (c : ClosureId) (receiver : Value) : I.Keeps (bindMethod c receiver) :=
  hI.closure_bind c fun _ hc => bind (hI.newFrame _ _) fun _ => hI.newClosure hc

/-! ### Output and calls -/

theorem emit (message : String) {line : Line} (hl : I.line line ∨ line = 0) : I.Keeps (emit message line) := by
  intro m h
  have hnext : I.machine (emitted m message) := hI.same h rfl rfl rfl rfl
  rw [emit_apply]
  by_cases hrefused : m.refusesLine m.writes = true
  · rw [if_pos hrefused]
    refine ⟨hnext, ?_⟩
    obtain hl | rfl := hl
    · exact hI.runtime _ _ hl
    · exact hI.refused (n := m.writes) (by rwa [refusesLine_emitted])
  · rw [if_neg hrefused]
    exact hnext

theorem enterCall {a : Activation} (ha : I.line a.line) : I.Keeps (enterCall a) := by
  intro m h
  rw [enterCall_apply]
  by_cases hrefused : m.log.refusesNext = true
  · rw [if_pos hrefused]
    exact ⟨hI.logged a h, hI.unlogged a h hrefused⟩
  · rw [if_neg hrefused]
    by_cases hd : m.callLimit < m.activations.size + 1
    · rw [if_pos hd]
      exact ⟨hI.entered h ha, hI.overflow (by simp [Exec.entered])⟩
    · rw [if_neg hd]
      exact hI.entered h ha

theorem leaveCall : I.Keeps leaveCall := fun _ h => hI.left h

theorem readClock : I.Keeps readClock := fun _ h => hI.same h rfl rfl rfl rfl

section Line

variable {line : Line} (hl : I.line line)
include hl

theorem failAt (cause : RuntimeCause) : I.Keeps (failAt line cause : Exec α) := by
  unfold Exec.failAt
  split
  · exact throw fun m => hI.runtime cause m hl
  · exact hI.internalFault trivial

theorem define (f : FrameId) (name : String) (v : Value) : I.Keeps (define f name v line) := by
  refine bind (inspect _) fun bound => ?_
  split
  · exact hI.failAt hl _
  · exact hI.update fun _ => rfl

theorem readName (scope : FrameId) (name : String) (depth : Depth) : I.Keeps (readName scope name line depth) := by
  cases depth with
  | some d =>
    refine bind (hI.ancestor scope d) fun g => bind (inspect _) fun found => ?_
    cases found with
    | some v => exact pure v
    | none => exact hI.failAt hl _
  | none =>
    refine bind (inspect _) fun found => ?_
    cases found with
    | some v => exact pure v
    | none => exact hI.failAt hl _

theorem writeName (scope : FrameId) (name : String) (v : Value) (depth : Depth) :
    I.Keeps (writeName scope name v line depth) := by
  cases depth with
  | some d => exact bind (hI.ancestor scope d) fun g => bind (hI.update fun _ => rfl) fun _ => pure v
  | none =>
    refine bind (inspect _) fun found => ?_
    cases found with
    | some g => exact bind (hI.update fun _ => rfl) fun _ => pure v
    | none => exact hI.failAt hl _

theorem orFail (answer : Except OperatorFault α) : I.Keeps (orFail line answer) := by
  cases answer with
  | ok a => exact pure a
  | error fault =>
    cases fault with
    | cause cause => exact hI.failAt hl cause
    | outOfRange => exact hI.internalFault trivial

theorem receiver (v : Value) : I.Keeps (receiver v line) := by
  cases v with
  | object _ o => exact pure o
  | _ => exact hI.failAt hl _

theorem property (v : Value) (o : ObjectId) (name : String) : I.Keeps (property v o name line) := by
  refine bind (inspect _) fun object => ?_
  cases object.fields.get? name with
  | some field => exact pure field
  | none =>
    cases object.info.method? name with
    | some c => exact bind (hI.bindMethod c v) fun bound => bind (inspect _) fun _ => pure _
    | none => exact hI.failAt hl _

theorem checkCallable (callee : Value) (received : Nat) : I.Keeps (checkCallable callee received line) := by
  by_cases hv : ∃ c o, callee = .object c o
  · obtain ⟨c, o, rfl⟩ := hv
    exact hI.failAt hl .callInstance
  · rw [checkCallable_eq (fun c o he => hv ⟨c, o, he⟩)]
    cases callableName? callee with
    | none => exact hI.failAt hl _
    | some name =>
      refine bind (inspect _) fun expected => ?_
      split
      · exact pure name
      · exact hI.failAt hl _

theorem bindParameters (f : FrameId) (params : List String) (arguments : List Value) :
    I.Keeps (bindParameters f line params arguments) := by
  induction params generalizing arguments with
  | nil => exact pure ()
  | cons p params ih =>
    cases arguments with
    | nil => exact pure ()
    | cons v arguments => exact bind (hI.define hl f p v) fun _ => ih arguments

theorem callService (name : String) (arguments : List Value) (service : Service) :
    I.Keeps (callService name arguments line service) := by
  cases service with
  | clock => exact hI.readClock
  | argumentCount => exact pure _
  | host index => exact hI.host index _ name hl
  | println =>
    show I.Keeps (printLine name (arguments.headD .nil) line)
    unfold printLine
    split
    · exact bind (hI.emit _ (.inr rfl)) fun _ => pure _
    · exact hI.failAt hl _

/-! ### Declarations -/

theorem declareFunction (scope : FrameId) (name : String) (params : List String) {body : Node} (hb : I.node body) :
    I.Keeps (declareFunction scope name params body line) :=
  bind (hI.newClosure hb) fun _ => hI.define hl scope name _

omit hl in
theorem methodTable (scope : FrameId) {methods : List Node} (hm : ∀ n ∈ methods, I.node n) :
    I.Keeps (methodTable scope methods) := by
  induction methods with
  | nil => exact pure []
  | cons n methods ih =>
    have hrest := ih fun k hk => hm k (List.mem_cons_of_mem n hk)
    cases n with
    | function =>
      have hbody := hI.child (hm _ List.mem_cons_self) List.mem_cons_self
      exact bind (hI.newClosure hbody) fun _ => bind hrest fun _ => pure _
    | _ => exact hrest

theorem declareClass (scope : FrameId) (name : String) {methods : List Node} (hm : ∀ n ∈ methods, I.node n) :
    I.Keeps (declareClass scope name methods line) :=
  bind (hI.methodTable scope hm) fun _ => hI.define hl scope name _

end Line

end Lawful

/-! ## Nodes -/

/-- The evaluator keeps the invariant on trees of the invariant. -/
structure KeptBy (I : Invariant) (e : Evaluator) : Prop where
  execute : ∀ scope {n : Node}, I.node n → I.Keeps (e.execute scope n)
  evaluate : ∀ scope {n : Node}, I.node n → I.Keeps (e.evaluate scope n)

namespace KeptBy

open Keeps

variable {I : Invariant} {e : Evaluator} (he : I.KeptBy e)
include he

theorem executeAll (scope : FrameId) {ns : List Node} (hn : ∀ n ∈ ns, I.node n) : I.Keeps (e.executeAll scope ns) := by
  induction ns with
  | nil => exact pure _
  | cons n ns ih =>
    refine bind (he.execute scope (hn n List.mem_cons_self)) fun signal => ?_
    split
    · exact pure signal
    · exact ih fun k hk => hn k (List.mem_cons_of_mem n hk)

theorem evaluateAll (scope : FrameId) {ns : List Node} (hn : ∀ n ∈ ns, I.node n) :
    I.Keeps (e.evaluateAll scope ns) := by
  induction ns with
  | nil => exact pure _
  | cons n ns ih =>
    exact bind (he.evaluate scope (hn n List.mem_cons_self)) fun _ =>
      bind (ih fun k hk => hn k (List.mem_cons_of_mem n hk)) fun _ => pure _

variable (hI : I.Lawful)
include hI

section Calls

variable {line : Line} (hl : I.line line)
include hl

theorem applyClosure (c : ClosureId) (arguments : List Value) : I.Keeps (e.applyClosure c arguments line) := by
  refine hI.closure_bind c fun closure hc => bind (hI.newFrame _ _) fun f =>
    bind (hI.bindParameters hl f _ _) fun _ => bind (he.execute f hc) fun signal => ?_
  split
  · exact hI.readName hl closure.frame "this" (some 0)
  · exact pure _

theorem construct (info : ClassInfo) (arguments : List Value) : I.Keeps (e.construct info arguments line) := by
  refine bind (hI.newObject info) fun o => ?_
  dsimp only
  cases Store.initializer? info with
  | none => exact pure _
  | some c => exact bind (hI.bindMethod c _) fun bound => bind (he.applyClosure hI hl bound arguments) fun _ => pure _

theorem apply (callee : Value) (arguments : List Value) : I.Keeps (e.apply callee arguments line) := by
  cases callee with
  | function _ c => exact he.applyClosure hI hl c arguments
  | native name _ service => exact hI.callService hl name arguments service
  | classRef info => exact he.construct hI hl info arguments
  | _ => exact hI.failAt hl _

theorem call (name : String) (callee : Value) (arguments : List Value) :
    I.Keeps (e.call name callee arguments line) :=
  bind (hI.enterCall hl) fun _ => bind (he.apply hI hl callee arguments) fun _ => bind hI.leaveCall fun _ => pure _

end Calls

theorem evaluateNode (scope : FrameId) {n : Node} (hn : I.node n) : I.Keeps (e.evaluateNode scope n) := by
  have hl : ∀ {line}, n.line? = some line → I.line line := hI.ownLine hn
  have hpart : ∀ inner ∈ n.children, I.Keeps (e.evaluate scope inner) := fun inner hi =>
    he.evaluate scope (hI.child hn hi)
  cases n with
  | literal => exact pure _
  | grouping inner => exact hpart inner (by simp [Node.children, Node.parts])
  | var name line depth => exact hI.readName (hl rfl) scope name depth
  | this line depth => exact hI.readName (hl rfl) scope "this" depth
  | assign name value line depth =>
    exact bind (hpart value (by simp [Node.children, Node.parts])) fun v => hI.writeName (hl rfl) scope name v depth
  | unary op operand line =>
    exact bind (hpart operand (by simp [Node.children, Node.parts])) fun v => hI.orFail (hl rfl) _
  | binary op left right line =>
    exact bind (hpart left (by simp [Node.children, Node.parts])) fun a =>
      bind (hpart right (by simp [Node.children, Node.parts])) fun b => hI.orFail (hl rfl) _
  | logical op left right =>
    refine bind (hpart left (by simp [Node.children, Node.parts])) fun v => ?_
    split
    · exact pure v
    · exact hpart right (by simp [Node.children, Node.parts])
  | call callee arguments line =>
    exact bind (hpart callee List.mem_cons_self) fun v =>
      bind (hI.checkCallable (hl rfl) v arguments.length) fun name =>
      bind (he.evaluateAll scope fun a ha => hI.child hn (List.mem_cons_of_mem _ ha)) fun values =>
        he.call hI (hl rfl) name v values
  | get object name line =>
    exact bind (hpart object (by simp [Node.children, Node.parts])) fun v => bind (hI.receiver (hl rfl) v) fun o =>
      hI.property (hl rfl) v o name
  | set object name value line =>
    exact bind (hpart object (by simp [Node.children, Node.parts])) fun target =>
      bind (hI.receiver (hl rfl) target) fun o => bind (hpart value (by simp [Node.children, Node.parts])) fun v =>
        bind (hI.update fun _ => rfl) fun _ => pure v
  | _ => exact hI.internalFault trivial

theorem executeNode (scope : FrameId) {n : Node} (hn : I.node n) : I.Keeps (e.executeNode scope n) := by
  have hl : ∀ {line}, n.line? = some line → I.line line := hI.ownLine hn
  have hvalue : ∀ inner ∈ n.children, I.Keeps (e.evaluate scope inner) := fun inner hi =>
    he.evaluate scope (hI.child hn hi)
  have hbranch : ∀ inner ∈ n.children, I.Keeps (e.execute scope inner) := fun inner hi =>
    he.execute scope (hI.child hn hi)
  cases n with
  | block steps => exact bind (hI.newFrame _ _) fun inner => he.executeAll inner fun n hi => hI.child hn hi
  | letDecl name initializer line =>
    exact bind (hvalue initializer List.mem_cons_self) fun v => bind (hI.define (hl rfl) scope name v) fun _ => pure _
  | function name params body line =>
    exact bind (hI.declareFunction (hl rfl) scope name params (hI.child hn List.mem_cons_self)) fun _ => pure _
  | classDecl name methods line =>
    exact bind (hI.declareClass (hl rfl) scope name fun n hi => hI.child hn hi) fun _ => pure _
  | print expression line =>
    exact bind (hvalue expression (by simp [Node.children, Node.parts])) fun v => bind (hI.textOf v) fun text =>
      bind (hI.emit text (.inl (hl rfl))) fun _ => pure _
  | ifElse condition thenBranch elseBranch =>
    refine bind (hvalue condition (by simp [Node.children, Node.parts])) fun v => ?_
    split
    · exact hbranch thenBranch (by simp [Node.children, Node.parts])
    · split
      · exact pure _
      · exact hbranch elseBranch (by simp [Node.children, Node.parts])
  | whileLoop condition body =>
    refine bind (hvalue condition (by simp [Node.children, Node.parts])) fun v => ?_
    split
    · refine bind (hbranch body (by simp [Node.children, Node.parts])) fun signal => ?_
      split
      · exact pure signal
      · exact he.execute scope hn
    · exact pure _
  | returnStep value =>
    show I.Keeps (if value.isAbsent then _ else _)
    split
    · exact pure _
    · exact bind (hvalue value (by simp [Node.children, Node.parts])) fun v => pure _
  | error d =>
    show I.Keeps (MonadExcept.throw (if d.phase = .parse then _ else _))
    split
    · next hphase => exact throw fun m => hI.unread m hn hphase
    · exact hI.internalFault trivial
  | absent | bare => exact hI.internalFault trivial
  | _ => exact bind (he.evaluate scope hn) fun _ => pure _

end KeptBy

/-! ## Programs -/

namespace Lawful

variable {I : Invariant} (hI : I.Lawful)
include hI

theorem ofFuel : ∀ fuel, I.KeptBy (.ofFuel fuel)
  | 0 => ⟨fun _ _ _ => hI.internalFault trivial, fun _ _ _ => hI.internalFault trivial⟩
  | fuel + 1 => ⟨fun scope _ hn => (ofFuel fuel).executeNode hI scope hn,
      fun scope _ hn => (ofFuel fuel).evaluateNode hI scope hn⟩

/-- Every program of trees of the invariant keeps it. -/
theorem program (fuel : Nat) {steps : List Node} (hn : ∀ n ∈ steps, I.node n) : I.Keeps (Exec.program fuel steps) :=
  (hI.ofFuel fuel).executeAll Store.root hn

end Lawful

end Invariant

end LoxLang
