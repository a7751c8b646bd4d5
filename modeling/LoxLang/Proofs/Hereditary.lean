import LoxLang.Proofs.Scoped

/-!
# Induction on what a run does

Where neither the frame matters nor the names that are declared in it, the induction of `HereditaryIn` has a plainer
form: to know something of every run of a program it is enough to know it of the elementary computations, and that it
passes from computations to those that are composed of them. `Elementary` is for what evaluates no node, and
`Hereditary` for the rest (`Hereditary.ofFuel`, `Hereditary.program`).
-/

namespace LoxLang

open Exec Traced

/-- The evaluation of an assignment: the value comes first. -/
theorem Traced.ofFuel_assign (fuel : Nat) (f : FrameId) (name : String) (value : Node) (line : Line) (depth : Depth) :
    (Traced.ofFuel (fuel + 1)).evaluate f (.assign name value line depth) =
      note (.evaluate f (.assign name value line depth)) >>= fun _ =>
        (Traced.ofFuel fuel).evaluate f value >>= fun v => liftM (writeName f name v line depth) := rfl

/-- A property of computations that a machine's elementary changes have, and that is passed on by composition. -/
structure Elementary (Q : {α : Type} → Exec α → Prop) : Prop where
  pure : ∀ {α : Type} (a : α), Q (Pure.pure a)
  throw : ∀ {α : Type} {fault : Fault}, fault ≠ .outOfFuel → Q (throw fault : Exec α)
  bind : ∀ {α β : Type} {x : Exec α} {f : α → Exec β}, Q x → (∀ a, Q (f a)) → Q (x >>= f)
  closure : ∀ c : ClosureId, Q (inspect (·.closure c))
  object : ∀ o : ObjectId, Q (inspect (·.object o))
  arity : ∀ v : Value, Q (inspect (·.arity v))
  newFrame : ∀ (f : FrameId) (bindings : Table Value), Q (newFrame (some f) bindings)
  define : ∀ (f : FrameId) (name : String) (v : Value) (line : Line), Q (define f name v line)
  readName : ∀ (f : FrameId) (name : String) (line : Line) (depth : Depth), Q (readName f name line depth)
  newClosure : ∀ c : Closure, Q (newClosure c)
  newObject : ∀ info : ClassInfo, Q (newObject info)
  setField : ∀ (o : ObjectId) (name : String) (v : Value), Q (update (·.setField o name v))
  emit : ∀ (message : String) (line : Line), Q (emit message line)
  readClock : Q readClock
  askHost : ∀ (index : Nat) (call : HostCall), Q (askHost index call)

namespace Elementary

variable {Q : {α : Type} → Exec α → Prop} (h : Elementary @Q)
include h

/-- Whatever the frame, and whatever is declared there. -/
theorem anywhere : ElementaryIn (fun _ => True) fun _ _ {α} (x : Exec α) => Q x where
  pure _ := h.pure
  throw _ _ _ _ := h.throw
  bind := h.bind
  weaken _ hx := hx
  closure _ := h.closure
  object _ := h.object
  arity _ := h.arity
  define := h.define
  readName _ := h.readName
  newClosure _ _ := h.newClosure _
  newObject _ := h.newObject
  setField _ := h.setField
  emit _ := h.emit
  readClock _ := h.readClock
  askHost _ := h.askHost

theorem failAt {α : Type} (line : Line) (cause : RuntimeCause) : Q (failAt line cause : Exec α) := by
  refine h.throw ?_
  split <;> exact nofun

theorem textOf (v : Value) : Q (textOf v) := h.anywhere.textOf Store.root v

theorem orFail {α : Type} (line : Line) (answer : Except OperatorFault α) : Q (orFail line answer) := by
  cases answer with
  | ok a => exact h.pure a
  | error fault =>
    cases fault with
    | cause cause => exact h.failAt line cause
    | outOfRange => exact h.throw nofun

theorem receiver (v : Value) (line : Line) : Q (receiver v line) := h.anywhere.receiver Store.root v line

theorem checkCallable (callee : Value) (received : Nat) (line : Line) : Q (checkCallable callee received line) :=
  h.anywhere.checkCallable Store.root callee received line

theorem bindParameters (f : FrameId) (line : Line) (params : List String) (arguments : List Value) :
    Q (bindParameters f line params arguments) :=
  h.anywhere.bindParameters f line params arguments

theorem bindMethod (c : ClosureId) (receiver : Value) : Q (Exec.bindMethod c receiver) :=
  h.bind (h.closure c) fun _ => h.bind (h.newFrame _ _) fun _ => h.newClosure _

theorem property (v : Value) (o : ObjectId) (name : String) (line : Line) : Q (property v o name line) := by
  refine h.bind (h.object o) fun object => ?_
  cases object.fields.get? name with
  | some field => exact h.pure field
  | none =>
    cases object.info.method? name with
    | some c => exact h.bind (h.bindMethod c v) fun bound => h.bind (h.closure bound) fun _ => h.pure _
    | none => exact h.failAt line _

theorem declareFunction (f : FrameId) (name : String) (params : List String) (body : Node) (line : Line) :
    Q (declareFunction f name params body line) :=
  h.anywhere.declareFunction f (.true _)

theorem methodTable (f : FrameId) (methods : List Node) : Q (methodTable f methods) :=
  h.anywhere.methodTable f fun n _ => .true n

theorem declareClass (f : FrameId) (name : String) (methods : List Node) (line : Line) :
    Q (declareClass f name methods line) :=
  h.anywhere.declareClass f line fun n _ => .true n

theorem callService (name : String) (arguments : List Value) (line : Line) (service : Service) :
    Q (callService name arguments line service) :=
  h.anywhere.callService Store.root name arguments line service

end Elementary

/-- A property of computations that elementary ones have, and that is passed on by composition. Two compositions are
named of their own: a call, whose end undoes its beginning, and the evaluation of an assignment, which alone may
overwrite a name. -/
structure Hereditary (Q : {α : Type} → Traced α → Prop) : Prop where
  pure : ∀ {α : Type} (a : α), Q (Pure.pure a)
  throw : ∀ {α : Type} {fault : Fault}, fault ≠ .outOfFuel → Q (liftM (throw fault : Exec α))
  bind : ∀ {α β : Type} {x : Traced α} {f : α → Traced β}, Q x → (∀ a, Q (f a)) → Q (x >>= f)
  note : ∀ a : Activity, Q (Traced.note a)
  closure : ∀ c : ClosureId, Q (liftM (inspect (·.closure c)))
  object : ∀ o : ObjectId, Q (liftM (inspect (·.object o)))
  arity : ∀ v : Value, Q (liftM (inspect (·.arity v)))
  newFrame : ∀ (f : FrameId) (bindings : Table Value), Q (liftM (newFrame (some f) bindings))
  define : ∀ (f : FrameId) (name : String) (v : Value) (line : Line), Q (liftM (define f name v line))
  readName : ∀ (f : FrameId) (name : String) (line : Line) (depth : Depth), Q (liftM (readName f name line depth))
  newClosure : ∀ c : Closure, Q (liftM (newClosure c))
  newObject : ∀ info : ClassInfo, Q (liftM (newObject info))
  setField : ∀ (o : ObjectId) (name : String) (v : Value), Q (liftM (update (·.setField o name v)))
  emit : ∀ (message : String) (line : Line), Q (liftM (emit message line))
  readClock : Q (liftM readClock)
  askHost : ∀ (index : Nat) (call : HostCall), Q (liftM (askHost index call))
  call : ∀ (a : Activation) {x : Traced Value}, Q x → Q (do enterCall a; let v ← x; leaveCall; Pure.pure v)
  assign : ∀ (fuel : Nat) (f : FrameId) (name : String) (value : Node) (line : Line) (depth : Depth),
    Q ((Traced.ofFuel fuel).evaluate f value) →
      Q ((Traced.ofFuel (fuel + 1)).evaluate f (.assign name value line depth))

namespace Hereditary

variable {Q : {α : Type} → Traced α → Prop} (h : Hereditary @Q)
include h

/-- The computations without visits. -/
theorem elementary : Elementary fun x => Q (liftM x : Traced _) where
  pure := h.pure
  throw := h.throw
  bind hx hf := by
    rw [Traced.lift_bind]
    exact h.bind hx hf
  closure := h.closure
  object := h.object
  arity := h.arity
  newFrame := h.newFrame
  define := h.define
  readName := h.readName
  newClosure := h.newClosure
  newObject := h.newObject
  setField := h.setField
  emit := h.emit
  readClock := h.readClock
  askHost := h.askHost

/-- Whatever the frame, and whatever is declared there. -/
theorem anywhere : HereditaryIn (fun _ => True) fun _ _ {α} (x : Traced α) => Q x where
  elementary := h.elementary.anywhere
  bind := h.bind
  note _ _ := h.note _
  part _ _ hx := hx
  block f _ _ _ _ _ hk := h.bind (h.newFrame f []) hk
  invoke _ _ c _ line _ hk := h.bind (h.closure c) fun closure => h.bind (h.newFrame _ _) fun g =>
    h.bind (h.elementary.bindParameters g line _ _) fun _ => hk closure g ⟨line, .true _⟩
  bindMethod _ c v := h.bind (h.note _) fun _ => h.elementary.bindMethod c v
  call _ a _ hx := h.call a hx
  assign fuel f _ _ _ _ _ hx := h.assign fuel f _ _ _ _ hx
  classDecl _ f _ _ line _ := h.bind (h.note _) fun _ => h.bind (h.elementary.declareClass f _ _ line) fun _ => h.pure _

section Runs

variable (hgiven : ∀ {α : Type}, Q (liftM (MonadExcept.throw Fault.outOfFuel : Exec α)))
include hgiven

theorem ofFuel (fuel : Nat) :
    (∀ f n, Q ((Traced.ofFuel fuel).execute f n)) ∧ ∀ f n, Q ((Traced.ofFuel fuel).evaluate f n) :=
  have hnodes := h.anywhere.ofFuel (fun _ => hgiven) fuel
  ⟨fun f n => hnodes.1 f (.true n), fun f n => hnodes.2 f (.true n)⟩

/-- What is passed on from part to whole is known of every program. -/
theorem program (fuel : Nat) (steps : List Node) : Q (Traced.program fuel steps) :=
  h.anywhere.program (fun _ => hgiven) fuel fun n _ => .true n

end Runs

end Hereditary

/-! ## Computations apart from their visits -/

namespace Traced

/-- The computation apart from its visits. -/
def untraced {α : Type} (x : Traced α) : Exec α := fun m => (x m).2

theorem untraced_bind {α β : Type} (x : Traced α) (f : α → Traced β) :
    (x >>= f).untraced = x.untraced >>= fun a => (f a).untraced := by
  funext m
  rw [Exec.bind_apply]
  unfold untraced
  rw [bind_apply]
  rcases x m with ⟨visits, a | fault⟩
  · rfl
  · rfl

theorem evaluate_untraced (fuel : Nat) (f : FrameId) (n : Node) :
    ((ofFuel fuel).evaluate f n).untraced = (LoxLang.Evaluator.ofFuel fuel).evaluate f n :=
  funext ((ofFuel_erases fuel).evaluate f n)

theorem program_untraced (fuel : Nat) (steps : List Node) :
    (program fuel steps).untraced = Exec.program fuel steps :=
  funext (program_erases fuel steps)

end Traced

end LoxLang
