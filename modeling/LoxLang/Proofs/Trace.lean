import LoxLang.Proofs.Steps

/-!
# What a run does on the way

A run executes steps and evaluates expressions in frames, invokes closures and binds methods to instances. `Traced`
computations are `Exec` computations that also list these visits in the order of time, each with the machine on which
it starts. The rules below are those of `Evaluator` with the visits noted; they change no result
(`Traced.ofFuel_erases`, `Traced.program_erases`).
-/

namespace LoxLang

/-- What a run is at. -/
inductive Activity
  | execute (scope : FrameId) (step : Node)
  | evaluate (scope : FrameId) (expression : Node)
  | invoke (c : ClosureId) (arguments : List Value) (line : Line)
  /-- A method is closed over its receiver. -/
  | bind (c : ClosureId) (receiver : Value)

/-- An activity with the machine on which it starts. -/
structure Visit where
  activity : Activity
  machine : Machine

/-- A computation with the visits on its way. -/
def Traced (α : Type) : Type := Machine → List Visit × EStateM.Result Fault Machine α

namespace Traced

instance : Monad Traced where
  pure a := fun m => ([], .ok a m)
  bind x f := fun m =>
    match x m with
    | (visits, .ok a m₁) => (visits ++ (f a m₁).1, (f a m₁).2)
    | (visits, .error fault m₁) => (visits, .error fault m₁)

instance : MonadLift Exec Traced := ⟨fun x m => ([], x m)⟩

theorem bind_apply {α β : Type} (x : Traced α) (f : α → Traced β) (m : Machine) :
    (x >>= f) m = match x m with
      | (visits, .ok a m₁) => (visits ++ (f a m₁).1, (f a m₁).2)
      | (visits, .error fault m₁) => (visits, .error fault m₁) := rfl

theorem lift_bind {α β : Type} (x : Exec α) (f : α → Exec β) :
    (liftM (x >>= f) : Traced β) = (do let a ← liftM x; liftM (f a)) := by
  funext m
  rw [bind_apply, show (liftM x : Traced α) m = ([], x m) from rfl]
  show ([], (x >>= f) m) = _
  rw [Exec.bind_apply]
  cases x m <;> rfl

/-- Start an activity. -/
def note (a : Activity) : Traced Unit := fun m => ([⟨a, m⟩], .ok () m)

/-! ## The rules with their visits -/

open Exec

structure Evaluator where
  execute : FrameId → Node → Traced Signal
  evaluate : FrameId → Node → Traced Value

def bindMethod (c : ClosureId) (receiver : Value) : Traced ClosureId := do
  note (.bind c receiver)
  Exec.bindMethod c receiver

def property (v : Value) (o : ObjectId) (name : String) (line : Line) : Traced Value := do
  let object ← inspect (·.object o)
  match object.fields.get? name with
  | some field => pure field
  | none =>
    match object.info.method? name with
    | some c =>
      let bound ← bindMethod c v
      return .function (← inspect (·.closure bound)).name bound
    | none => failAt line (.unknownProperty name)

section Rules

variable (e : Evaluator)

def executeAll (scope : FrameId) : List Node → Traced Signal
  | [] => pure .proceed
  | n :: ns => do
    let signal ← e.execute scope n
    if signal.isReturn then pure signal else executeAll scope ns

def evaluateAll (scope : FrameId) : List Node → Traced (List Value)
  | [] => pure []
  | n :: ns => do
    let v ← e.evaluate scope n
    let vs ← evaluateAll scope ns
    pure (v :: vs)

def applyClosure (c : ClosureId) (arguments : List Value) (line : Line) : Traced Value := do
  note (.invoke c arguments line)
  let closure ← inspect (·.closure c)
  let f ← newFrame (some closure.frame) []
  bindParameters f line closure.params arguments
  let signal ← e.execute f closure.body
  if closure.isInitializer then lookupAt closure.frame 0 "this" line else pure signal.value

def construct (info : ClassInfo) (arguments : List Value) (line : Line) : Traced Value := do
  let made := Value.object info.name (← newObject info)
  match Store.initializer? info with
  | none => pure made
  | some c =>
    let _ ← applyClosure e (← bindMethod c made) arguments line
    pure made

def apply (callee : Value) (arguments : List Value) (line : Line) : Traced Value :=
  match callee with
  | .function _ c => applyClosure e c arguments line
  | .native name _ service => callService name arguments line service
  | .classRef info => construct e info arguments line
  | _ => failAt line (.notCallable callee)

def call (name : String) (callee : Value) (arguments : List Value) (line : Line) : Traced Value := do
  enterCall ⟨name, arguments, line⟩
  let result ← apply e callee arguments line
  leaveCall
  pure result

def evaluateNode (scope : FrameId) (expression : Node) : Traced Value :=
  match expression with
  | .literal value _ => pure value
  | .grouping inner _ => e.evaluate scope inner
  | .var name line depth => readName scope name line depth
  | .this line depth => readName scope "this" line depth
  | .assign name value line depth => do
    let v ← e.evaluate scope value
    writeName scope name v line depth
  | .unary op operand line => do
    let v ← e.evaluate scope operand
    orFail line (Value.unary op v)
  | .logical op left right _ => do
    let v ← e.evaluate scope left
    if Value.decides op v then pure v else e.evaluate scope right
  | .binary op left right line => do
    let a ← e.evaluate scope left
    let b ← e.evaluate scope right
    orFail line (Value.binary op a b)
  | .call callee arguments line => do
    let f ← e.evaluate scope callee
    let name ← checkCallable f arguments.length line
    let values ← evaluateAll e scope arguments
    call e name f values line
  | .get object name line => do
    let v ← e.evaluate scope object
    let o ← receiver v line
    property v o name line
  | .set object name value line => do
    let target ← e.evaluate scope object
    let o ← receiver target line
    let v ← e.evaluate scope value
    update (·.setField o name v)
    pure v
  | .block .. | .letDecl .. | .print .. | .ifElse .. | .whileLoop .. | .function .. | .returnStep .. | .classDecl ..
  | .error _ | .absent | .bare _ => (throw (.notAnExpression expression.shape) : Exec Value)

def executeNode (scope : FrameId) (step : Node) : Traced Signal :=
  match step with
  | .block steps _ => do
    let inner ← newFrame (some scope) []
    executeAll e inner steps
  | .letDecl name initializer line => do
    let v ← e.evaluate scope initializer
    define scope name v line
    pure .proceed
  | .function name params body line => do
    declareFunction scope name params body line
    pure .proceed
  | .classDecl name methods line => do
    declareClass scope name methods line
    pure .proceed
  | .print expression line => do
    let v ← e.evaluate scope expression
    let text ← textOf v
    emit text line
    pure .proceed
  | .ifElse condition thenBranch elseBranch _ => do
    let v ← e.evaluate scope condition
    if v.truthy then e.execute scope thenBranch
    else if elseBranch.isAbsent then pure .proceed
    else e.execute scope elseBranch
  | .whileLoop condition body _ => do
    let v ← e.evaluate scope condition
    if v.truthy then
      let signal ← e.execute scope body
      if signal.isReturn then pure signal else e.execute scope step
    else pure .proceed
  | .returnStep value _ => do
    if value.isAbsent then pure .returnNil
    else
      let v ← e.evaluate scope value
      pure (.returnValue v)
  | .literal .. | .grouping .. | .unary .. | .binary .. | .logical .. | .var .. | .assign .. | .this ..
  | .call .. | .get .. | .set .. => do
    let _ ← e.evaluate scope step
    pure .proceed
  | .error d => (throw (if d.phase = .parse then .raised d else .notAStep d.phase.family) : Exec Signal)
  | .absent | .bare _ => (throw (.notAStep step.shape) : Exec Signal)

end Rules

/-- The rules tied together as in `Evaluator.ofFuel`, with a note before every node. -/
def ofFuel : (fuel : Nat) → Evaluator
  | 0 => ⟨fun _ _ => (throw .outOfFuel : Exec Signal), fun _ _ => (throw .outOfFuel : Exec Value)⟩
  | fuel + 1 =>
    ⟨fun scope n => do note (.execute scope n); executeNode (ofFuel fuel) scope n,
      fun scope n => do note (.evaluate scope n); evaluateNode (ofFuel fuel) scope n⟩

/-- The steps of a program in the global frame. -/
def program (fuel : Nat) (steps : List Node) : Traced Signal := executeAll (ofFuel fuel) Store.root steps

/-! ## Traced computations and plain ones -/

/-- A relation between traced and plain computations that visits do not disturb, and that composition keeps. -/
structure Compares (Q : {α : Type} → Traced α → Exec α → Prop) : Prop where
  lift : ∀ {α : Type} (x : Exec α), Q (liftM x) x
  note : ∀ {α : Type} {x : Traced α} {y : Exec α} (a : Activity), Q x y → Q (do Traced.note a; x) y
  bind : ∀ {α β : Type} {x : Traced α} {y : Exec α} {f : α → Traced β} {g : α → Exec β}, Q x y →
    (∀ a, Q (f a) (g a)) → Q (x >>= f) (y >>= g)

namespace Compares

variable {Q : {α : Type} → Traced α → Exec α → Prop} (h : Compares @Q)
include h

theorem pure {α : Type} (a : α) : Q (Pure.pure a) (Pure.pure a) := h.lift (Pure.pure a)

theorem bindMethod (c : ClosureId) (v : Value) : Q (Traced.bindMethod c v) (Exec.bindMethod c v) :=
  h.note _ (h.lift _)

theorem property (v : Value) (o : ObjectId) (name : String) (line : Line) :
    Q (Traced.property v o name line) (Exec.property v o name line) := by
  refine h.bind (h.lift _) fun object => ?_
  cases object.fields.get? name with
  | some field => exact h.pure _
  | none =>
    cases object.info.method? name with
    | some c => exact h.bind (h.bindMethod c v) fun bound => h.bind (h.lift _) fun closure => h.pure _
    | none => exact h.lift _

section Rules

variable {e : Evaluator} {e' : LoxLang.Evaluator} (hx : ∀ scope n, Q (e.execute scope n) (e'.execute scope n))
  (he : ∀ scope n, Q (e.evaluate scope n) (e'.evaluate scope n))

include hx in
theorem executeAll (scope : FrameId) (ns : List Node) : Q (Traced.executeAll e scope ns) (e'.executeAll scope ns) := by
  induction ns with
  | nil => exact h.pure _
  | cons n ns ih =>
    refine h.bind (hx scope n) fun signal => ?_
    split
    · exact h.pure _
    · exact ih

include he in
theorem evaluateAll (scope : FrameId) (ns : List Node) :
    Q (Traced.evaluateAll e scope ns) (e'.evaluateAll scope ns) := by
  induction ns with
  | nil => exact h.pure _
  | cons n ns ih => exact h.bind (he scope n) fun _ => h.bind ih fun _ => h.pure _

include hx in
theorem applyClosure (c : ClosureId) (arguments : List Value) (line : Line) :
    Q (Traced.applyClosure e c arguments line) (e'.applyClosure c arguments line) := by
  refine h.note _ (h.bind (h.lift _) fun closure => h.bind (h.lift _) fun f => h.bind (h.lift _) fun _ =>
    h.bind (hx f closure.body) fun signal => ?_)
  split
  · exact h.lift _
  · exact h.pure _

include hx in
theorem apply (callee : Value) (arguments : List Value) (line : Line) :
    Q (Traced.apply e callee arguments line) (e'.apply callee arguments line) := by
  cases callee with
  | function name c => exact h.applyClosure hx c arguments line
  | classRef info =>
    refine h.bind (h.lift _) fun o => ?_
    dsimp only
    cases Store.initializer? info with
    | none => exact h.pure _
    | some c =>
      exact h.bind (h.bindMethod _ _) fun bound => h.bind (h.applyClosure hx bound arguments line) fun _ => h.pure _
  | _ => exact h.lift _

include hx he

theorem evaluateNode (scope : FrameId) (n : Node) : Q (Traced.evaluateNode e scope n) (e'.evaluateNode scope n) := by
  cases n with
  | literal => exact h.pure _
  | grouping inner => exact he scope inner
  | assign name value => exact h.bind (he scope value) fun _ => h.lift _
  | unary op operand => exact h.bind (he scope operand) fun _ => h.lift _
  | logical op left right =>
    refine h.bind (he scope left) fun v => ?_
    split
    · exact h.pure _
    · exact he scope right
  | binary op left right => exact h.bind (he scope left) fun _ => h.bind (he scope right) fun _ => h.lift _
  | call callee arguments line =>
    exact h.bind (he scope callee) fun f => h.bind (h.lift _) fun name =>
      h.bind (h.evaluateAll he scope arguments) fun values =>
      h.bind (h.lift _) fun _ => h.bind (h.apply hx f values line) fun _ => h.bind (h.lift _) fun _ => h.pure _
  | get object name line =>
    exact h.bind (he scope object) fun v => h.bind (h.lift _) fun o => h.property v o name line
  | set object name value =>
    exact h.bind (he scope object) fun _ => h.bind (h.lift _) fun _ => h.bind (he scope value) fun _ =>
      h.bind (h.lift _) fun _ => h.pure _
  | _ => exact h.lift _

theorem executeNode (scope : FrameId) (n : Node) : Q (Traced.executeNode e scope n) (e'.executeNode scope n) := by
  cases n with
  | block steps => exact h.bind (h.lift _) fun inner => h.executeAll hx inner steps
  | letDecl name initializer => exact h.bind (he scope initializer) fun _ => h.bind (h.lift _) fun _ => h.pure _
  | function => exact h.bind (h.lift _) fun _ => h.pure _
  | classDecl => exact h.bind (h.lift _) fun _ => h.pure _
  | print expression =>
    exact h.bind (he scope expression) fun _ => h.bind (h.lift _) fun _ => h.bind (h.lift _) fun _ => h.pure _
  | ifElse condition thenBranch elseBranch =>
    refine h.bind (he scope condition) fun v => ?_
    split
    · exact hx scope thenBranch
    · split
      · exact h.pure _
      · exact hx scope elseBranch
  | whileLoop condition body line =>
    refine h.bind (he scope condition) fun v => ?_
    split
    · refine h.bind (hx scope body) fun signal => ?_
      split
      · exact h.pure _
      · exact hx scope (.whileLoop condition body line)
    · exact h.pure _
  | returnStep value =>
    show Q (if value.isAbsent then _ else _) (if value.isAbsent then _ else _)
    split
    · exact h.pure _
    · exact h.bind (he scope value) fun _ => h.pure _
  | error | absent | bare => exact h.lift _
  | _ => exact h.bind (he scope _) fun _ => h.pure _

end Rules

end Compares

/-! ## Noting visits changes no result -/

/-- The traced computation gives the results of the plain one. -/
def Erases {α : Type} (x : Traced α) (y : Exec α) : Prop := ∀ m, (x m).2 = y m

theorem erases_compares : Compares @Erases where
  lift _ _ := rfl
  note _ h m := h m
  bind {_ _ x y f g} h hf m := by
    have hm := h m
    rw [Exec.bind_apply, bind_apply, ← hm]
    rcases x m with ⟨visits, a | fault⟩
    · exact hf _ _
    · rfl

/-- A traced evaluator that gives the results of a plain one. -/
structure Evaluator.Erases (e : Evaluator) (e' : LoxLang.Evaluator) : Prop where
  execute : ∀ scope n, Traced.Erases (e.execute scope n) (e'.execute scope n)
  evaluate : ∀ scope n, Traced.Erases (e.evaluate scope n) (e'.evaluate scope n)

theorem ofFuel_erases : ∀ fuel, (ofFuel fuel).Erases (LoxLang.Evaluator.ofFuel fuel)
  | 0 => ⟨fun _ _ => erases_compares.lift _, fun _ _ => erases_compares.lift _⟩
  | fuel + 1 =>
    have ⟨hx, he⟩ := ofFuel_erases fuel
    ⟨fun scope n => erases_compares.note _ (erases_compares.executeNode hx he scope n),
      fun scope n => erases_compares.note _ (erases_compares.evaluateNode hx he scope n)⟩

theorem program_erases (fuel : Nat) (steps : List Node) (m : Machine) :
    (program fuel steps m).2 = Exec.program fuel steps m :=
  erases_compares.executeAll (ofFuel_erases fuel).execute Store.root steps m

end Traced

end LoxLang
