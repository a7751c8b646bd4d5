import Mathlib
import LoxLang.Proofs.DeadSteps
import LoxLang.Proofs.Faults
import LoxLang.Proofs.Sessions

/-!
# Runs without the steps behind a return

A `return` ends the steps around it (`Evaluator.executeAll_return`), so that a program runs the same without the steps
behind it. All that tells the two runs apart are the bodies of the closures in the store: `Machine.Trimmed` relates
machines on which each closure has its own body or what is left of it, and `Trims` says that two computations end alike
on such machines. It passes from the parts of a rule to the whole, and so to programs (`Exec.program_trims`) and to runs
(`Session.runs_without_dead_steps`).
-/

namespace LoxLang

open Node

/-! ## Machines -/

/-- Two closures that differ in what is left of their bodies. -/
inductive Closure.Trimmed (c : Closure) : Closure → Prop
  | intro {body : Node} : c.body.Trimmed body → Trimmed c { c with body }

theorem Closure.Trimmed.refl (c : Closure) : c.Trimmed c := .intro (.same c.body)

theorem Closure.Trimmed.params {c c' : Closure} (h : c.Trimmed c') : c'.params = c.params := by
  cases h
  rfl

/-- Two stores with the same frames and objects whose closures differ in what is left of their bodies. -/
inductive Store.Trimmed (s : Store) : Store → Prop
  | intro {closures : Array Closure} : closures.size = s.closures.size →
      (∀ c, (s.closure c).Trimmed (closures.getD c default)) → Trimmed s { s with closures }

/-- Two machines that differ in what is left of the bodies of their closures. -/
inductive Machine.Trimmed (m : Machine) : Machine → Prop
  | intro {store : Store} : m.store.Trimmed store → Trimmed m { m with store }

namespace Store.Trimmed

variable {s s' : Store} (h : s.Trimmed s')

theorem refl (s : Store) : s.Trimmed s := .intro rfl fun c => .refl (s.closure c)

include h

theorem closure (c : ClosureId) : (s.closure c).Trimmed (s'.closure c) := by
  cases h with
  | intro _ hc => exact hc c

theorem params_length (c : ClosureId) : (s'.closure c).params.length = (s.closure c).params.length :=
  congrArg List.length (h.closure c).params

theorem arity (v : Value) : s'.arity v = s.arity v := by
  cases v with
  | function name c => exact h.params_length c
  | classRef info =>
    show ((initializer? info).map fun c => (s'.closure c).params.length).getD 0 = _
    rw [funext h.params_length]
    rfl
  | _ => rfl

theorem pushClosure {c c' : Closure} (hc : c.Trimmed c') : (s.pushClosure c).Trimmed (s'.pushClosure c') := by
  cases h with
  | @intro closures hn hcs =>
    refine .intro (by rw [Array.size_push, hn]; exact (Array.size_push _).symm) fun d => ?_
    have hleft := s.closure_pushClosure c d
    have hright := Store.closure_pushClosure { s with closures } c' d
    rw [show Store.nextClosure { s with closures } = s.nextClosure from hn] at hright
    rw [hleft, show (closures.push c').getD d default = _ from hright]
    split
    · exact hc
    · exact hcs d

/-- A change that does not concern the closures is made to both. -/
theorem change {φ : Store → Store} (hφ : ∀ closures, φ { s with closures } = { φ s with closures })
    (hc : (φ s).closures = s.closures) : (φ s).Trimmed (φ s') := by
  cases h with
  | @intro closures hn hcs =>
    rw [hφ closures]
    exact .intro (by rw [hn, hc]) fun c => by rw [Store.closure, hc]; exact hcs c

end Store.Trimmed

/-! ## Computations -/

/-- Two computations end alike: with the same answer, or with the same fault. -/
inductive EndsTrimmed {α : Type} : EStateM.Result Fault Machine α → EStateM.Result Fault Machine α → Prop
  | ok {a : α} {m m' : Machine} : m.Trimmed m' → EndsTrimmed (.ok a m) (.ok a m')
  | error {fault : Fault} {m m' : Machine} : m.Trimmed m' → EndsTrimmed (.error fault m) (.error fault m')

/-- Started on machines that differ in what is left of bodies, the computations end alike. -/
def Trims {α : Type} (x y : Exec α) : Prop := ∀ m m', m.Trimmed m' → EndsTrimmed (x m) (y m')

namespace Trims

variable {α β : Type}

theorem pure (a : α) : Trims (Pure.pure a) (Pure.pure a) := fun _ _ h => .ok h

theorem throw (fault : Fault) : Trims (throw fault : Exec α) (throw fault) := fun _ _ h => .error h

theorem failAt (line : Line) (cause : RuntimeCause) :
    Trims (Exec.failAt line cause : Exec α) (Exec.failAt line cause) :=
  .throw _

theorem bind {x y : Exec α} {f g : α → Exec β} (hx : Trims x y) (hf : ∀ a, Trims (f a) (g a)) :
    Trims (x >>= f) (y >>= g) := by
  intro m m' h
  have hr := hx m m' h
  rw [Exec.bind_apply, Exec.bind_apply]
  revert hr
  generalize x m = r
  generalize y m' = r'
  intro hr
  cases hr with
  | ok h₁ => exact hf _ _ _ h₁
  | error h₁ => exact .error h₁

/-- What two stores show alike is looked at. -/
theorem inspect {f : Store → α} (hf : ∀ s s', s.Trimmed s' → f s' = f s) : Trims (Exec.inspect f) (Exec.inspect f) := by
  intro m m' h
  cases h with
  | intro hs =>
    rw [Exec.inspect_apply, Exec.inspect_apply, hf _ _ hs]
    exact .ok (.intro hs)

/-- What does not concern the closures is looked at. -/
theorem look {f : Store → α} (hf : ∀ s closures, f { s with closures } = f s) :
    Trims (Exec.inspect f) (Exec.inspect f) :=
  .inspect fun s _ h => by
    cases h
    exact hf s _

/-- A closure is looked at, and each side goes on with its own. -/
theorem closure (c : ClosureId) {f g : Closure → Exec α} (hf : ∀ t t', t.Trimmed t' → Trims (f t) (g t')) :
    Trims (Exec.inspect (·.closure c) >>= f) (Exec.inspect (·.closure c) >>= g) := by
  intro m m' h
  cases h with
  | intro hs => exact hf _ _ (hs.closure c) _ _ (.intro hs)

theorem update {φ ψ : Store → Store} (hs : ∀ s s', s.Trimmed s' → (φ s).Trimmed (ψ s')) :
    Trims (Exec.update φ) (Exec.update ψ) := by
  intro m m' h
  cases h with
  | intro h => exact .ok (.intro (hs _ _ h))

theorem textOf (v : Value) : Trims (Exec.textOf v) (Exec.textOf v) := by
  unfold Exec.textOf
  split
  · exact .pure _
  · exact .throw _

theorem orFail (line : Line) (answer : Except OperatorFault α) :
    Trims (Exec.orFail line answer) (Exec.orFail line answer) := by
  cases answer with
  | ok a => exact .pure a
  | error fault => cases fault <;> exact .throw _

/-! ### Frames -/

theorem bindName (f : FrameId) (name : String) (v : Value) :
    Trims (Exec.update (·.bind f name v)) (Exec.update (·.bind f name v)) :=
  .update fun _ _ hs => hs.change (φ := (·.bind f name v)) (fun _ => rfl) rfl

theorem newFrame (parent : Option FrameId) (bindings : Table Value) :
    Trims (Exec.newFrame parent bindings) (Exec.newFrame parent bindings) :=
  .bind (.look fun _ _ => rfl) fun f =>
    .bind (.update fun _ _ hs => hs.change (φ := fun s => s.pushFrame ((parent.map s.chain).getD []) bindings)
      (fun _ => rfl) rfl) fun _ => .pure f

theorem define (f : FrameId) (name : String) (v : Value) (line : Line) :
    Trims (Exec.define f name v line) (Exec.define f name v line) := by
  refine .bind (.look fun _ _ => rfl) fun bound => ?_
  split
  · exact .failAt _ _
  · exact .bindName f name v

theorem ancestor (f : FrameId) (depth : Nat) : Trims (Exec.ancestor f depth) (Exec.ancestor f depth) := by
  refine .bind (.look fun _ _ => rfl) fun found => ?_
  cases found with
  | some g => exact .pure g
  | none => exact .throw _

theorem lookupAt (f : FrameId) (depth : Nat) (name : String) (line : Line) :
    Trims (Exec.lookupAt f depth name line) (Exec.lookupAt f depth name line) := by
  refine .bind (.ancestor f depth) fun g => .bind (.look fun _ _ => rfl) fun found => ?_
  cases found with
  | some v => exact .pure v
  | none => exact .failAt _ _

theorem readName (f : FrameId) (name : String) (line : Line) (depth : Depth) :
    Trims (Exec.readName f name line depth) (Exec.readName f name line depth) := by
  cases depth with
  | none =>
    refine .bind (.look fun _ _ => rfl) fun found => ?_
    cases found with
    | some v => exact .pure v
    | none => exact .failAt _ _
  | some d => exact .lookupAt f d name line

theorem writeName (f : FrameId) (name : String) (v : Value) (line : Line) (depth : Depth) :
    Trims (Exec.writeName f name v line depth) (Exec.writeName f name v line depth) := by
  cases depth with
  | none =>
    refine .bind (.look fun _ _ => rfl) fun found => ?_
    cases found with
    | some g => exact .bind (.bindName g name v) fun _ => .pure v
    | none => exact .failAt _ _
  | some d => exact .bind (.ancestor f d) fun g => .bind (.bindName g name v) fun _ => .pure v

/-! ### Closures and objects -/

theorem newClosure {c c' : Closure} (hc : c.Trimmed c') : Trims (Exec.newClosure c) (Exec.newClosure c') :=
  .bind (.inspect fun _ _ hs => by cases hs with | intro hn _ => exact hn) fun id =>
    .bind (.update fun _ _ hs => hs.pushClosure hc) fun _ => .pure id

theorem newObject (info : ClassInfo) : Trims (Exec.newObject info) (Exec.newObject info) :=
  .bind (.look fun _ _ => rfl) fun id =>
    .bind (.update fun _ _ hs => hs.change (φ := (·.pushObject ⟨info, []⟩)) (fun _ => rfl) rfl) fun _ => .pure id

theorem bindMethod (c : ClosureId) (receiver : Value) :
    Trims (Exec.bindMethod c receiver) (Exec.bindMethod c receiver) :=
  .closure c fun _ _ ht => by
    cases ht with
    | intro hbody => exact .bind (.newFrame _ _) fun f => .newClosure (.intro hbody)

theorem property (v : Value) (o : ObjectId) (name : String) (line : Line) :
    Trims (Exec.property v o name line) (Exec.property v o name line) := by
  refine .bind (.look fun _ _ => rfl) fun object => ?_
  cases object.fields.get? name with
  | some field => exact .pure field
  | none =>
    dsimp only
    cases object.info.method? name with
    | some c =>
      refine .bind (.bindMethod c v) fun bound => .closure bound fun _ _ ht => ?_
      cases ht
      exact .pure _
    | none => exact .failAt _ _

theorem receiver (v : Value) (line : Line) : Trims (Exec.receiver v line) (Exec.receiver v line) := by
  cases v with
  | object name o => exact .pure o
  | _ => exact .failAt _ _

/-! ### Calls and effects -/

theorem emit (message : String) (line : Line) : Trims (Exec.emit message line) (Exec.emit message line) := by
  intro m m' h
  cases h with
  | @intro store hs =>
    have hnext : (Exec.emitted m message).Trimmed (Exec.emitted { m with store } message) := .intro hs
    have hsame : Machine.refusesLine { m with store } m.writes = m.refusesLine m.writes := rfl
    rw [Exec.emit_apply, Exec.emit_apply, hsame]
    by_cases hrefused : m.refusesLine m.writes = true
    · rw [if_pos hrefused, if_pos hrefused]
      exact .error hnext
    · rw [if_neg hrefused, if_neg hrefused]
      exact .ok hnext

theorem readClock : Trims Exec.readClock Exec.readClock := by
  intro m m' h
  cases h with
  | intro hs => exact .ok (.intro hs)

theorem askHost (index : Nat) (call : HostCall) : Trims (Exec.askHost index call) (Exec.askHost index call) := by
  intro m m' h
  cases h with
  | intro hs =>
    unfold Exec.askHost
    dsimp only
    cases m.hosts[index]? with
    | none => exact .ok (.intro hs)
    | some host => exact .ok (.intro hs)

theorem enterCall (a : Activation) : Trims (Exec.enterCall a) (Exec.enterCall a) := by
  intro m m' h
  cases h with
  | intro hs =>
    rw [Exec.enterCall_apply, Exec.enterCall_apply]
    split
    · exact .error (.intro hs)
    · split
      · exact .error (.intro hs)
      · exact .ok (.intro hs)

theorem leaveCall : Trims Exec.leaveCall Exec.leaveCall := by
  intro m m' h
  cases h with
  | intro hs => exact .ok (.intro hs)

theorem checkCallable (callee : Value) (received : Nat) (line : Line) :
    Trims (Exec.checkCallable callee received line) (Exec.checkCallable callee received line) := by
  by_cases hobject : ∃ c o, callee = .object c o
  · obtain ⟨c, o, rfl⟩ := hobject
    exact .failAt _ _
  · rw [Exec.checkCallable_eq fun c o ho => hobject ⟨c, o, ho⟩]
    cases Exec.callableName? callee with
    | none => exact .failAt _ _
    | some name =>
      refine .bind (.inspect fun _ _ hs => hs.arity _) fun expected => ?_
      split
      · exact .pure _
      · exact .failAt _ _

theorem bindParameters (f : FrameId) (line : Line) : ∀ (params : List String) (arguments : List Value),
    Trims (Exec.bindParameters f line params arguments) (Exec.bindParameters f line params arguments)
  | p :: ps, v :: vs => .bind (.define f p v line) fun _ => bindParameters f line ps vs
  | [], _ | _ :: _, [] => .pure _

theorem callService (name : String) (arguments : List Value) (line : Line) (service : Service) :
    Trims (Exec.callService name arguments line service) (Exec.callService name arguments line service) := by
  cases service with
  | clock => exact .readClock
  | println =>
    unfold Exec.callService Exec.printLine
    dsimp only
    split
    · exact .bind (.emit _ _) fun _ => .pure _
    · exact .failAt _ _
  | argumentCount => exact .pure _
  | host index =>
    refine .bind (.askHost index _) fun reply => ?_
    unfold Exec.acceptReply
    split
    · exact .pure _
    · exact .failAt _ _
    · split
      · exact .failAt _ _
      · exact .throw _
    · exact .throw _

/-! ### Declarations -/

theorem declareFunction (scope : FrameId) (name : String) (params : List String) {body body' : Node}
    (hb : body.Trimmed body') (line : Line) :
    Trims (Exec.declareFunction scope name params body line) (Exec.declareFunction scope name params body' line) :=
  .bind (.newClosure (.intro hb)) fun _ => .define scope name _ line

theorem methodTable_same (scope : FrameId) (methods : List Node) :
    Trims (Exec.methodTable scope methods) (Exec.methodTable scope methods) := by
  induction methods with
  | nil => exact .pure []
  | cons n methods ih =>
    cases n with
    | function => exact .bind (.newClosure (.refl _)) fun _ => .bind ih fun _ => .pure _
    | _ => exact ih

theorem methodTable (scope : FrameId) {methods methods' : List Node} (hm : TrimmedMethods methods methods') :
    Trims (Exec.methodTable scope methods) (Exec.methodTable scope methods') := by
  cases hm with
  | same => exact .methodTable_same scope methods
  | cons hb hs => exact .bind (.newClosure (.intro hb)) fun _ => .bind (methodTable scope hs) fun _ => .pure _

theorem declareClass (scope : FrameId) (name : String) {methods methods' : List Node}
    (hm : TrimmedMethods methods methods') (line : Line) :
    Trims (Exec.declareClass scope name methods line) (Exec.declareClass scope name methods' line) :=
  .bind (.methodTable scope hm) fun _ => .define scope name _ line

end Trims

/-! ## Rules -/

/-- Executed returns answer with the signal of a return. -/
def Evaluator.Returns (e : Evaluator) : Prop :=
  ∀ scope value line m signal m', e.execute scope (.returnStep value line) m = .ok signal m' → signal.isReturn = true

/-- The steps behind a return are not executed. -/
theorem Evaluator.executeAll_return {e : Evaluator} (h : e.Returns) (scope : FrameId) (value : Node) (line : Line)
    (dead : List Node) :
    e.executeAll scope (.returnStep value line :: dead) = e.execute scope (.returnStep value line) := by
  funext m
  rw [executeAll, Exec.bind_apply]
  cases hr : e.execute scope (.returnStep value line) m with
  | ok signal m₁ =>
    dsimp only
    rw [if_pos (h _ _ _ _ _ _ hr)]
    rfl
  | error fault m₁ => rfl

theorem Evaluator.ofFuel_returns : ∀ fuel, (ofFuel fuel).Returns
  | 0 => fun _ _ _ _ _ _ hr => by cases hr
  | fuel + 1 => fun scope value line m signal m' hr => by
    change (if value.isAbsent then (pure .returnNil : Exec Signal) else _) m = _ at hr
    split at hr
    · cases hr
      rfl
    · rw [Exec.bind_apply] at hr
      split at hr
      · cases hr
        rfl
      · cases hr

/-- The evaluator ends alike on a node and on what is left of it. -/
structure Evaluator.Trims (e : Evaluator) : Prop where
  execute : ∀ scope n n', n.Trimmed n' → LoxLang.Trims (e.execute scope n) (e.execute scope n')
  evaluate : ∀ scope n, LoxLang.Trims (e.evaluate scope n) (e.evaluate scope n)
  returns : e.Returns

namespace Evaluator.Trims

variable {e : Evaluator} (h : e.Trims)
include h

theorem executeAll (scope : FrameId) {ns ns' : List Node} (hs : TrimmedSteps ns ns') :
    LoxLang.Trims (e.executeAll scope ns) (e.executeAll scope ns') := by
  cases hs with
  | nil => exact .pure Signal.proceed
  | cons hn hs =>
    refine .bind (h.execute scope _ _ hn) fun signal => ?_
    split
    · exact .pure signal
    · exact executeAll scope hs
  | cut value line dead =>
    rw [executeAll_return h.returns, executeAll_return h.returns]
    exact h.execute scope _ _ (.same _)

theorem evaluateAll (scope : FrameId) (ns : List Node) :
    LoxLang.Trims (e.evaluateAll scope ns) (e.evaluateAll scope ns) := by
  induction ns with
  | nil => exact .pure []
  | cons n ns ih => exact .bind (h.evaluate scope n) fun _ => .bind ih fun _ => .pure _

theorem applyClosure (c : ClosureId) (arguments : List Value) (line : Line) :
    LoxLang.Trims (e.applyClosure c arguments line) (e.applyClosure c arguments line) :=
  .closure c fun t _ ht => by
    cases ht with
    | intro hbody =>
      refine .bind (.newFrame _ _) fun f => .bind (.bindParameters f line _ _) fun _ =>
        .bind (h.execute f _ _ hbody) fun signal => ?_
      dsimp only
      split
      · exact .lookupAt _ _ _ _
      · exact .pure _

theorem call (name : String) (callee : Value) (arguments : List Value) (line : Line) :
    LoxLang.Trims (e.call name callee arguments line) (e.call name callee arguments line) := by
  have happly : LoxLang.Trims (e.apply callee arguments line) (e.apply callee arguments line) := by
    cases callee with
    | function name c => exact h.applyClosure c arguments line
    | native name n service => exact .callService name arguments line service
    | classRef info =>
      refine .bind (.newObject info) fun o => ?_
      dsimp only
      cases Store.initializer? info with
      | none => exact .pure _
      | some c =>
        exact .bind (.bindMethod c _) fun bound => .bind (h.applyClosure bound arguments line) fun _ => .pure _
    | _ => exact .failAt _ _
  exact .bind (.enterCall _) fun _ => .bind happly fun v => .bind .leaveCall fun _ => .pure v

theorem evaluateNode (scope : FrameId) (n : Node) :
    LoxLang.Trims (e.evaluateNode scope n) (e.evaluateNode scope n) := by
  cases n with
  | literal value => exact .pure value
  | grouping inner => exact h.evaluate scope inner
  | var name line depth => exact .readName scope name line depth
  | this line depth => exact .readName scope "this" line depth
  | assign name value line depth => exact .bind (h.evaluate scope value) fun v => .writeName scope name v line depth
  | unary op operand line => exact .bind (h.evaluate scope operand) fun v => .orFail line _
  | logical op left right =>
    refine .bind (h.evaluate scope left) fun v => ?_
    split
    · exact .pure v
    · exact h.evaluate scope right
  | binary op left right line =>
    exact .bind (h.evaluate scope left) fun _ => .bind (h.evaluate scope right) fun _ => .orFail line _
  | call callee arguments line =>
    exact .bind (h.evaluate scope callee) fun f => .bind (.checkCallable f _ line) fun name =>
      .bind (h.evaluateAll scope arguments) fun values => h.call name f values line
  | get object name line =>
    exact .bind (h.evaluate scope object) fun v => .bind (.receiver v line) fun o => .property v o name line
  | set object name value line =>
    exact .bind (h.evaluate scope object) fun target => .bind (.receiver target line) fun o =>
      .bind (h.evaluate scope value) fun v =>
        .bind (.update fun _ _ hs => hs.change (φ := (·.setField o name v)) (fun _ => rfl) rfl) fun _ => .pure v
  | _ => exact .throw _

/-! ### Steps -/

theorem block (scope : FrameId) {steps steps' : List Node} (hs : TrimmedSteps steps steps') (line : Line) :
    LoxLang.Trims (e.executeNode scope (.block steps line)) (e.executeNode scope (.block steps' line)) :=
  .bind (.newFrame _ _) fun inner => h.executeAll inner hs

theorem ifElse (scope : FrameId) (condition : Node) {thenBranch thenBranch' elseBranch elseBranch' : Node}
    (ht : thenBranch.Trimmed thenBranch') (he : elseBranch.Trimmed elseBranch') (line : Line) :
    LoxLang.Trims (e.executeNode scope (.ifElse condition thenBranch elseBranch line))
      (e.executeNode scope (.ifElse condition thenBranch' elseBranch' line)) := by
  refine .bind (h.evaluate scope condition) fun v => ?_
  rw [he.isAbsent_eq]
  split
  · exact h.execute scope _ _ ht
  · split
    · exact .pure _
    · exact h.execute scope _ _ he

theorem whileLoop (scope : FrameId) (condition : Node) {body body' : Node} (hb : body.Trimmed body') (line : Line) :
    LoxLang.Trims (e.executeNode scope (.whileLoop condition body line))
      (e.executeNode scope (.whileLoop condition body' line)) := by
  refine .bind (h.evaluate scope condition) fun v => ?_
  split
  · refine .bind (h.execute scope _ _ hb) fun signal => ?_
    split
    · exact .pure signal
    · exact h.execute scope _ _ (.whileLoop hb)
  · exact .pure _

theorem executeNode (scope : FrameId) {n n' : Node} (hn : n.Trimmed n') :
    LoxLang.Trims (e.executeNode scope n) (e.executeNode scope n') := by
  cases hn with
  | block hs => exact h.block scope hs _
  | ifElse ht he => exact h.ifElse scope _ ht he _
  | whileLoop hb => exact h.whileLoop scope _ hb _
  | function hb => exact .bind (.declareFunction scope _ _ hb _) fun _ => .pure _
  | classDecl hm => exact .bind (.declareClass scope _ hm _) fun _ => .pure _
  | same =>
    cases n with
    | block steps => exact h.block scope (.same steps) _
    | ifElse condition thenBranch elseBranch => exact h.ifElse scope _ (.same thenBranch) (.same elseBranch) _
    | whileLoop condition body => exact h.whileLoop scope _ (.same body) _
    | function name params body => exact .bind (.declareFunction scope _ _ (.same body) _) fun _ => .pure _
    | classDecl name methods => exact .bind (.declareClass scope _ (.same methods) _) fun _ => .pure _
    | letDecl name initializer line =>
      exact .bind (h.evaluate scope initializer) fun v => .bind (.define scope name v line) fun _ => .pure _
    | print expression line =>
      exact .bind (h.evaluate scope expression) fun v => .bind (.textOf v) fun text => .bind (.emit text line) fun _ =>
        .pure _
    | returnStep value =>
      show LoxLang.Trims (if value.isAbsent then _ else _) (if value.isAbsent then _ else _)
      split
      · exact .pure _
      · exact .bind (h.evaluate scope value) fun _ => .pure _
    | error | absent | bare => exact .throw _
    | _ => exact .bind (h.evaluate scope _) fun _ => .pure _

end Evaluator.Trims

theorem Evaluator.ofFuel_trims : ∀ fuel, (ofFuel fuel).Trims
  | 0 => ⟨fun _ _ _ _ => .throw _, fun _ _ => .throw _, ofFuel_returns 0⟩
  | fuel + 1 =>
    have h := ofFuel_trims fuel
    ⟨fun scope _ _ hn => h.executeNode scope hn, fun scope n => h.evaluateNode scope n, ofFuel_returns (fuel + 1)⟩

/-- A program ends alike without the steps behind a return. -/
theorem Exec.program_trims (fuel : Nat) {steps steps' : List Node} (h : TrimmedSteps steps steps') :
    Trims (program fuel steps) (program fuel steps') :=
  (Evaluator.ofFuel_trims fuel).executeAll Store.root h

/-! ## Runs -/

/-- Two runs of programs with these texts end alike: with the same value, with the same diagnostic in the same active
calls, or without a result for the same reason. They record the same, apart from the text that a failure is shown in. -/
inductive EndsAside (source source' : String) : Except Escape RunResult → Except Escape RunResult → Prop
  | success {v : Value} {effects : List Effect} :
      EndsAside source source' (.ok ⟨.success v, effects⟩) (.ok ⟨.success v, effects⟩)
  | failure {d : Diagnostic} {calls : List Activation} {effects : List Effect} :
      EndsAside source source'
        (.ok ⟨.failure d [] (Report.message source [d] calls),
          effects ++ [⟨.stderr, Report.message source [d] calls⟩]⟩)
        (.ok ⟨.failure d [] (Report.message source' [d] calls),
          effects ++ [⟨.stderr, Report.message source' [d] calls⟩]⟩)
  | escape {reason : Escape} : EndsAside source source' (.error reason) (.error reason)

namespace Session

variable (s : Session) (source source' : String) {m m' : Machine}

/-- A failure is told alike where the active calls and the effects are the same. -/
theorem failInCalls_trimmed (h : m.Trimmed m') (d : Diagnostic) :
    EndsAside source source' (failInCalls { s with machine := m } source d).1
        (failInCalls { s with machine := m' } source' d).1 ∧
      (failInCalls { s with machine := m' } source' d).2.machine.printed =
        (failInCalls { s with machine := m } source d).2.machine.printed := by
  cases h with
  | @intro store hs =>
    unfold failInCalls
    dsimp only
    split
    · dsimp only [fail, record]
      refine ⟨?_, ?_⟩
      · rw [Array.toList_push, Array.toList_push]
        exact .failure
      · exact (printed_record { s with machine := { m with store } } (by decide) _).trans
          (printed_record { s with machine := m } (by decide) _).symm
    · exact ⟨.escape, rfl⟩

/-- Resolved programs end alike without the steps behind a return. -/
theorem execute_trimmed (fuel : Nat) {steps steps' : List Node} (h : TrimmedSteps steps steps') :
    EndsAside source source' (s.execute fuel source steps).1 (s.execute fuel source' steps').1 ∧
      (s.execute fuel source' steps').2.machine.printed = (s.execute fuel source steps).2.machine.printed := by
  have hrun := Exec.program_trims fuel h s.machine s.machine (.intro (.refl _))
  unfold execute
  generalize Exec.program fuel steps s.machine = r at hrun
  generalize Exec.program fuel steps' s.machine = r' at hrun
  cases hrun with
  | @ok signal m m' hm =>
    cases hm
    exact ⟨.success, rfl⟩
  | @error fault m m' hm =>
    cases fault with
    | runtime line cause => exact s.failInCalls_trimmed source source' hm _
    | overflow =>
      have hkept : Machine.Trimmed { m with activations := m.activations.take keptCalls }
          { m' with activations := m'.activations.take keptCalls } := by
        cases hm with
        | intro hs => exact .intro hs
      have hline : innermostLine m' = innermostLine m := by cases hm; rfl
      dsimp only
      rw [hline]
      exact s.failInCalls_trimmed source source' hkept _
    | _ =>
      cases hm
      exact ⟨.escape, rfl⟩

end Session

/-- A program that resolves goes on to resolve when steps behind a `return` are deleted, in any of its blocks and bodies
and at the top: the nodes that are left have the depths that they had. Both programs print the same, and end with the
same value or the same failure, in every session and on every fuel. -/
theorem Session.runs_without_dead_steps {steps steps' resolved : List Node} (h : TrimmedSteps steps steps')
    (hr : resolve steps = .ok resolved) :
    ∃ resolved', resolve steps' = .ok resolved' ∧ AllWithDepths resolved' steps' ∧ TrimmedSteps resolved resolved' ∧
      ∀ (s : Session) (fuel : Nat) (source source' : String),
        EndsAside source source' (s.runSteps fuel source steps).1 (s.runSteps fuel source' steps').1 ∧
        (s.runSteps fuel source' steps').2.machine.printed = (s.runSteps fuel source steps).2.machine.printed := by
  obtain ⟨resolved', hr', htrimmed⟩ := resolve_trimmed h hr
  have hmeets := resolve_meets steps'
  rw [hr'] at hmeets
  refine ⟨resolved', hr', hmeets.2, htrimmed, fun s fuel source source' => ?_⟩
  rw [runSteps, runSteps, hr, hr']
  exact s.execute_trimmed source source' fuel htrimmed

/-- A function that returns a function which reads `x`; the steps behind its `return` are left open. -/
def readerSteps (dead : List Node) : List Node :=
  [.function "f" [] (.block (.function "g" [] (.block [.returnStep (.var "x" 1 none) 1] 1) 1 ::
      .returnStep (.var "g" 2 none) 2 :: dead) 1) 1,
    .letDecl "x" (.literal (.bool true) 4) 4, .print (.call (.call (.var "f" 5 none) [] 5) [] 5) 5]

theorem readerSteps_trimmed (dead : List Node) : TrimmedSteps (readerSteps dead) (readerSteps []) :=
  .cons (.function (.block (.cons (.same _) (.cut _ _ dead)))) (.same _)

/-- A declaration of `x` behind the `return` is not what the inner function reads. -/
theorem dead_declaration_not_read :
    ∃ resolved, resolve (readerSteps [.letDecl "x" (.literal .nil 3) 3]) = .ok resolved ∧
      ∃ resolved', resolve (readerSteps []) = .ok resolved' ∧ AllWithDepths resolved' (readerSteps []) ∧
        TrimmedSteps resolved resolved' ∧
        ((Session.start {}).runSteps 20 "" (readerSteps [])).2.machine.printed = ["true"] ∧
        ((Session.start {}).runSteps 20 ""
          (readerSteps [.letDecl "x" (.literal .nil 3) 3])).2.machine.printed = ["true"] := by
  obtain ⟨resolved', hr', hdepths, htrimmed, hruns⟩ := Session.runs_without_dead_steps
    (readerSteps_trimmed [.letDecl "x" (.literal .nil 3) 3]) rfl
  have hprinted : ((Session.start {}).runSteps 20 "" (readerSteps [])).2.machine.printed =
      ["true"] := by cbv
  refine ⟨_, rfl, resolved', hr', hdepths, htrimmed, hprinted, ?_⟩
  rw [← (hruns (Session.start {}) 20 "" "").2, hprinted]

end LoxLang
