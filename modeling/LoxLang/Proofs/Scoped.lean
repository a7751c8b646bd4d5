import LoxLang.Proofs.Everywhere
import LoxLang.Proofs.Trace

/-!
# Induction on what a run does, frame by frame

`Q f names x` says of a computation `x` what it does to the frame `f`, in which it may declare the `names` and no
others. To know it of every run it is enough to know it of the elementary computations (`ElementaryIn`), and that it
passes from computations to those that are composed of them (`HereditaryIn`): steps one behind the other declare their
names one behind the other, and whatever a block or a call declares goes to a frame of its own. What is executed comes
from nodes in which a property `p` holds everywhere, and so the compositions may rely on it.
-/

namespace LoxLang

open Exec

/-- A name is declared that its frame binds already. -/
def Fault.IsRedefinition : Fault → Prop
  | .runtime _ (.alreadyDefined _) => True
  | _ => False

/-- The closure is of a function in which the property holds everywhere. -/
def Closure.From (p : Node → Prop) (c : Closure) : Prop :=
  ∃ line, (Node.function c.name c.params c.body line).Everywhere p

/-- Something is made in the store that belongs to the activity: a bound method, or the methods of a class. -/
def Activity.Makes : Activity → Prop
  | .bind .. => True
  | .execute _ (.classDecl ..) => True
  | _ => False

/-- What the activity executes or evaluates, it executes or evaluates in the frame. -/
def Activity.In (f : FrameId) : Activity → Prop
  | .execute g _ => g = f
  | .evaluate g _ => g = f
  | _ => True

/-! ## Operators declare nothing -/

namespace Value

/-- The answer does not say that a name is declared already. -/
def DeclaresNothing {α : Type} (answer : Except OperatorFault α) : Prop :=
  ∀ name, answer ≠ .error (.cause (.alreadyDefined name))

theorem onNumbers_declaresNothing {cause : Value → Value → RuntimeCause}
    {f : Numeral → Numeral → Except OperatorFault Value} (hc : ∀ a b name, cause a b ≠ .alreadyDefined name)
    (hf : ∀ m n, DeclaresNothing (f m n)) (a b : Value) : DeclaresNothing (onNumbers cause f a b) := by
  intro name h
  unfold onNumbers at h
  split at h
  · exact hf _ _ name h
  · exact hc a b name (by injection h with h; injection h)

theorem arithmetic_declaresNothing {cause : Value → Value → RuntimeCause}
    (hc : ∀ a b name, cause a b ≠ .alreadyDefined name)
    (f : Numeral → Numeral → Option Numeral) (a b : Value) : DeclaresNothing (arithmetic cause f a b) := by
  refine onNumbers_declaresNothing hc (fun m n name h => ?_) a b
  split at h <;> cases h

theorem ordered_declaresNothing (holds : Ordering → Bool) (a b : Value) : DeclaresNothing (ordered holds a b) :=
  onNumbers_declaresNothing (fun _ _ _ h => by cases h) (fun _ _ _ h => by cases h) a b

theorem equality_declaresNothing (wanted : Bool) (a b : Value) : DeclaresNothing (equality wanted a b) := by
  intro name h
  unfold equality at h
  split at h <;> cases h

theorem sum_declaresNothing (a b : Value) : DeclaresNothing (sum a b) := by
  unfold sum
  split
  · exact fun _ h => by cases h
  · exact arithmetic_declaresNothing (fun _ _ _ h => by cases h) _ a b

theorem binary_declaresNothing (op : BinaryOp) (a b : Value) : DeclaresNothing (binary op a b) := by
  cases op with
  | equal | notEqual => exact equality_declaresNothing _ a b
  | greater | greaterEqual | less | lessEqual => exact ordered_declaresNothing _ a b
  | add => exact sum_declaresNothing a b
  | subtract | multiply | divide => exact arithmetic_declaresNothing (fun _ _ _ h => by cases h) _ a b
  | other => exact fun _ h => by cases h

theorem unary_declaresNothing (op : UnaryOp) (v : Value) : DeclaresNothing (unary op v) := by
  have hnegation : DeclaresNothing (negation v) := by
    intro name h
    unfold negation at h
    split at h
    · cases h
    · split at h <;> cases h
  cases op with
  | not => exact fun _ h => by cases h
  | negate | other => exact hnegation

end Value

/-! ## Elementary computations -/

/-- A property of computations in a frame that a machine's elementary changes have, and that is passed on by
composition. -/
structure ElementaryIn (p : Node → Prop) (Q : FrameId → List String → {α : Type} → Exec α → Prop) : Prop where
  pure : ∀ (f : FrameId) {α : Type} (a : α), Q f [] (Pure.pure a)
  throw : ∀ (f : FrameId) {α : Type} {fault : Fault}, ¬ fault.IsRedefinition → fault ≠ .outOfFuel →
    Q f [] (throw fault : Exec α)
  bind : ∀ {f : FrameId} {names names' : List String} {α β : Type} {x : Exec α} {k : α → Exec β}, Q f names x →
    (∀ a, Q f names' (k a)) → Q f (names ++ names') (x >>= k)
  weaken : ∀ {f : FrameId} {names names' : List String} {α : Type} {x : Exec α}, names.Sublist names' →
    Q f names x → Q f names' x
  closure : ∀ (f : FrameId) (c : ClosureId), Q f [] (inspect (·.closure c))
  object : ∀ (f : FrameId) (o : ObjectId), Q f [] (inspect (·.object o))
  arity : ∀ (f : FrameId) (v : Value), Q f [] (inspect (·.arity v))
  define : ∀ (f : FrameId) (name : String) (v : Value) (line : Line), Q f [name] (define f name v line)
  readName : ∀ (f g : FrameId) (name : String) (line : Line) (depth : Depth), Q f [] (readName g name line depth)
  newClosure : ∀ {f : FrameId} {c : Closure}, c.frame = f → c.From p → Q f [] (newClosure c)
  newObject : ∀ (f : FrameId) (info : ClassInfo), Q f [] (newObject info)
  setField : ∀ (f : FrameId) (o : ObjectId) (name : String) (v : Value), Q f [] (update (·.setField o name v))
  emit : ∀ (f : FrameId) (message : String) (line : Line), Q f [] (emit message line)
  readClock : ∀ f : FrameId, Q f [] readClock
  askHost : ∀ (f : FrameId) (index : Nat) (call : HostCall), Q f [] (askHost index call)

namespace ElementaryIn

variable {p : Node → Prop} {Q : FrameId → List String → {α : Type} → Exec α → Prop} (h : ElementaryIn p @Q)
include h

/-- What comes first declares nothing. -/
theorem andThen {f : FrameId} {names : List String} {α β : Type} {x : Exec α} {k : α → Exec β} (hx : Q f [] x)
    (hk : ∀ a, Q f names (k a)) : Q f names (x >>= k) := h.bind hx hk

theorem failAt (f : FrameId) {α : Type} (line : Line) {cause : RuntimeCause}
    (hc : ∀ name, cause ≠ .alreadyDefined name) : Q f [] (failAt line cause : Exec α) := by
  refine h.throw f (fun hr => ?_) ?_
  · split at hr
    · cases cause <;> first | exact hr | exact hc _ rfl
    · exact hr
  · split <;> exact nofun

theorem textOf (f : FrameId) (v : Value) : Q f [] (textOf v) := by
  unfold Exec.textOf
  split
  · exact h.pure f _
  · exact h.throw f nofun nofun

theorem orFail (f : FrameId) {α : Type} (line : Line) {answer : Except OperatorFault α}
    (ha : Value.DeclaresNothing answer) : Q f [] (orFail line answer) := by
  cases answer with
  | ok a => exact h.pure f a
  | error fault =>
    cases fault with
    | cause cause => exact h.failAt f line fun name hc => ha name (by rw [hc])
    | outOfRange => exact h.throw f nofun nofun

theorem receiver (f : FrameId) (v : Value) (line : Line) : Q f [] (receiver v line) := by
  cases v with
  | object _ o => exact h.pure f o
  | _ => exact h.failAt f line fun _ => nofun

theorem checkCallable (f : FrameId) (callee : Value) (received : Nat) (line : Line) :
    Q f [] (checkCallable callee received line) := by
  by_cases hv : ∃ c o, callee = .object c o
  · obtain ⟨c, o, rfl⟩ := hv
    exact h.failAt f line fun _ => nofun
  · have heq := checkCallable_eq (fun c o he => hv ⟨c, o, he⟩) received line
    rw [heq]
    cases callableName? callee with
    | none => exact h.failAt f line fun _ => nofun
    | some name =>
      refine h.andThen (h.arity f callee) fun expected => ?_
      split
      · exact h.pure f name
      · exact h.failAt f line fun _ => nofun

theorem bindParameters (f : FrameId) (line : Line) (params : List String) (arguments : List Value) :
    Q f params (bindParameters f line params arguments) := by
  induction params generalizing arguments with
  | nil => exact h.pure f ()
  | cons param params ih =>
    cases arguments with
    | nil => exact h.weaken (List.nil_sublist _) (h.pure f ())
    | cons v arguments => exact h.bind (h.define f param v line) fun _ => ih arguments

theorem declareFunction (f : FrameId) {name : String} {params : List String} {body : Node} {line : Line}
    (hn : (Node.function name params body line).Everywhere p) : Q f [name] (declareFunction f name params body line) :=
  h.andThen (h.newClosure rfl ⟨line, hn⟩) fun _ => h.define f name _ line

theorem methodTable (f : FrameId) {methods : List Node} (hm : ∀ n ∈ methods, n.Everywhere p) :
    Q f [] (methodTable f methods) := by
  induction methods with
  | nil => exact h.pure f []
  | cons n methods ih =>
    have hrest := ih fun m hmem => hm m (List.mem_cons_of_mem n hmem)
    cases n with
    | function _ _ _ line =>
      exact h.andThen (h.newClosure rfl ⟨line, hm _ List.mem_cons_self⟩) fun _ => h.andThen hrest fun _ => h.pure f _
    | _ => exact hrest

theorem declareClass (f : FrameId) {name : String} {methods : List Node} (line : Line)
    (hm : ∀ n ∈ methods, n.Everywhere p) : Q f [name] (declareClass f name methods line) :=
  h.andThen (h.methodTable f hm) fun _ => h.define f name _ line

theorem acceptReply (f : FrameId) (name : String) (line : Line) (reply : HostReply) :
    Q f [] (acceptReply name line reply) := by
  cases reply with
  | value v => exact h.pure f v
  | failure text => exact h.failAt f line fun _ => nofun
  | overflow => exact h.throw f nofun nofun
  | raised d =>
    show Q f [] (if d.phase = .runtime then _ else _ : Exec Value)
    split
    · exact h.failAt f _ fun _ => nofun
    · exact h.throw f nofun nofun

theorem callService (f : FrameId) (name : String) (arguments : List Value) (line : Line) (service : Service) :
    Q f [] (callService name arguments line service) := by
  cases service with
  | clock => exact h.readClock f
  | argumentCount => exact h.pure f _
  | host index => exact h.andThen (h.askHost f index _) fun reply => h.acceptReply f name line reply
  | println =>
    show Q f [] (printLine name (arguments.headD .nil) line)
    unfold printLine
    split
    · exact h.andThen (h.emit f _ _) fun _ => h.pure f _
    · exact h.failAt f line fun _ => nofun

end ElementaryIn

/-! ## Compositions -/

/-- A property of computations in a frame that elementary ones have, and that is passed on by composition. Compositions
with a rule of their own are the declaration of a class, whose closures belong to its visit, the binding of a method,
a call, whose end undoes its beginning, the evaluation of an assignment, which alone may overwrite a name, and what
makes a frame. -/
structure HereditaryIn (p : Node → Prop) (Q : FrameId → List String → {α : Type} → Traced α → Prop) : Prop where
  elementary : ElementaryIn p fun f names {α} x => Q f names (liftM x : Traced α)
  bind : ∀ {f : FrameId} {names names' : List String} {α β : Type} {x : Traced α} {k : α → Traced β}, Q f names x →
    (∀ a, Q f names' (k a)) → Q f (names ++ names') (x >>= k)
  note : ∀ {f : FrameId} {a : Activity}, a.In f → ¬ a.Makes → Q f [] (Traced.note a)
  /-- What a part of a node would declare is declared by a block around it, or nothing. -/
  part : ∀ {f : FrameId} {α : Type} {x : Traced α} {n inner : Node}, n.Everywhere p → inner ∈ n.parts →
    Q f inner.declares?.toList x → Q f [] x
  block : ∀ (f : FrameId) {α : Type} {steps : List Node} {line : Line} {k : FrameId → Traced α},
    (Node.block steps line).Everywhere p → (∀ inner, Q inner (Node.stepNames steps) (k inner)) →
      Q f [] (do let inner ← newFrame (some f) []; k inner)
  invoke : ∀ (f : FrameId) {α : Type} (c : ClosureId) (arguments : List Value) (line : Line)
    {k : Closure → FrameId → Traced α},
      (∀ closure g, closure.From p → Q g closure.body.declares?.toList (k closure g)) →
      Q f [] (do
        let closure ← inspect (·.closure c)
        let g ← newFrame (some closure.frame) []
        bindParameters g line closure.params arguments
        k closure g)
  bindMethod : ∀ (f : FrameId) (c : ClosureId) (v : Value), Q f [] (Traced.bindMethod c v)
  call : ∀ (f : FrameId) (a : Activation) {x : Traced Value}, Q f [] x →
    Q f [] (do enterCall a; let v ← x; leaveCall; Pure.pure v)
  assign : ∀ (fuel : Nat) (f : FrameId) {name : String} {value : Node} {line : Line} {depth : Depth},
    (Node.assign name value line depth).Everywhere p → Q f [] ((Traced.ofFuel fuel).evaluate f value) →
      Q f [] ((Traced.ofFuel (fuel + 1)).evaluate f (.assign name value line depth))
  classDecl : ∀ (fuel : Nat) (f : FrameId) {name : String} {methods : List Node} {line : Line},
    (Node.classDecl name methods line).Everywhere p →
      Q f [name] ((Traced.ofFuel (fuel + 1)).execute f (.classDecl name methods line))

namespace HereditaryIn

variable {p : Node → Prop} {Q : FrameId → List String → {α : Type} → Traced α → Prop} (h : HereditaryIn p @Q)
include h

section Compositions

variable {f : FrameId} {names : List String} {α β : Type} {x : Traced α} {k : α → Traced β}

/-- What comes first declares nothing. -/
theorem andThen (hx : Q f [] x) (hk : ∀ a, Q f names (k a)) : Q f names (x >>= k) := h.bind hx hk

/-- What comes last declares nothing. -/
theorem andLast (hx : Q f names x) (hk : ∀ a, Q f [] (k a)) : Q f names (x >>= k) :=
  List.append_nil names ▸ h.bind hx hk

end Compositions

theorem property (f : FrameId) (v : Value) (o : ObjectId) (name : String) (line : Line) :
    Q f [] (Traced.property v o name line) := by
  refine h.andThen (h.elementary.object f o) fun object => ?_
  cases object.fields.get? name with
  | some field => exact h.elementary.pure f field
  | none =>
    cases object.info.method? name with
    | some c =>
      exact h.andThen (h.bindMethod f c v) fun bound => h.andThen (h.elementary.closure f bound) fun _ =>
        h.elementary.pure f _
    | none => exact h.elementary.failAt f line fun _ => nofun

section Rules

variable {e : Traced.Evaluator} (hx : ∀ f {n : Node}, n.Everywhere p → Q f n.declares?.toList (e.execute f n))
  (he : ∀ f {n : Node}, n.Everywhere p → Q f [] (e.evaluate f n))

include hx in
theorem executeAll (f : FrameId) {ns : List Node} (hn : ∀ n ∈ ns, n.Everywhere p) :
    Q f (Node.stepNames ns) (Traced.executeAll e f ns) := by
  induction ns with
  | nil => exact h.elementary.pure f _
  | cons n ns ih =>
    rw [Node.stepNames_cons]
    refine h.bind (hx f (hn n List.mem_cons_self)) fun signal => ?_
    split
    · exact h.elementary.weaken (List.nil_sublist _) (h.elementary.pure f signal)
    · exact ih fun m hm => hn m (List.mem_cons_of_mem n hm)

include he in
theorem evaluateAll (f : FrameId) {ns : List Node} (hn : ∀ n ∈ ns, n.Everywhere p) :
    Q f [] (Traced.evaluateAll e f ns) := by
  induction ns with
  | nil => exact h.elementary.pure f _
  | cons n ns ih =>
    exact h.andThen (he f (hn n List.mem_cons_self)) fun _ =>
      h.andThen (ih fun m hm => hn m (List.mem_cons_of_mem n hm)) fun _ => h.elementary.pure f _

include hx in
theorem applyClosure (f : FrameId) (c : ClosureId) (arguments : List Value) (line : Line) :
    Q f [] (Traced.applyClosure e c arguments line) := by
  refine h.andThen (h.note trivial not_false) fun _ => h.invoke f c arguments line fun closure g hc => ?_
  obtain ⟨_, hc⟩ := hc
  refine h.andLast (hx g (hc.child List.mem_cons_self)) fun signal => ?_
  split
  · exact h.elementary.readName g closure.frame "this" line (some 0)
  · exact h.elementary.pure g _

include hx in
theorem apply (f : FrameId) (callee : Value) (arguments : List Value) (line : Line) :
    Q f [] (Traced.apply e callee arguments line) := by
  cases callee with
  | function name c => exact h.applyClosure hx f c arguments line
  | native name arity service => exact h.elementary.callService f name arguments line service
  | classRef info =>
    refine h.andThen (h.elementary.newObject f info) fun o => ?_
    dsimp only
    cases Store.initializer? info with
    | none => exact h.elementary.pure f _
    | some c =>
      exact h.andThen (h.bindMethod f c _) fun bound =>
        h.andThen (h.applyClosure hx f bound arguments line) fun _ => h.elementary.pure f _
  | _ => exact h.elementary.failAt f line fun _ => nofun

include hx he

/-- Assignments aside, a node is evaluated as its parts are. -/
theorem evaluateNode (f : FrameId) {n : Node} (hn : n.Everywhere p)
    (hassign : ∀ name value line depth, n ≠ .assign name value line depth) : Q f [] (Traced.evaluateNode e f n) := by
  have hpart : ∀ inner ∈ n.parts, Q f [] (e.evaluate f inner) := fun inner hi => he f (hn.part hi)
  cases n with
  | literal => exact h.elementary.pure f _
  | grouping inner => exact hpart inner (by simp [Node.parts])
  | var name line depth => exact h.elementary.readName f f name line depth
  | this line depth => exact h.elementary.readName f f "this" line depth
  | assign name value line depth => exact absurd rfl (hassign name value line depth)
  | unary op operand line =>
    exact h.andThen (hpart operand (by simp [Node.parts])) fun v =>
      h.elementary.orFail f line (Value.unary_declaresNothing op v)
  | binary op left right line =>
    exact h.andThen (hpart left (by simp [Node.parts])) fun a => h.andThen (hpart right (by simp [Node.parts])) fun b =>
      h.elementary.orFail f line (Value.binary_declaresNothing op a b)
  | logical op left right =>
    refine h.andThen (hpart left (by simp [Node.parts])) fun v => ?_
    split
    · exact h.elementary.pure f v
    · exact hpart right (by simp [Node.parts])
  | call callee arguments line =>
    refine h.andThen (hpart callee (by simp [Node.parts])) fun v =>
      h.andThen (h.elementary.checkCallable f v arguments.length line) fun name =>
      h.andThen (h.evaluateAll he f fun a ha => hn.part (List.mem_cons_of_mem _ ha)) fun values => ?_
    exact h.call f ⟨name, values, line⟩ (h.apply hx f v values line)
  | get object name line =>
    exact h.andThen (hpart object (by simp [Node.parts])) fun v => h.andThen (h.elementary.receiver f v line) fun o =>
      h.property f v o name line
  | set object name value line =>
    exact h.andThen (hpart object (by simp [Node.parts])) fun v => h.andThen (h.elementary.receiver f v line) fun o =>
      h.andThen (hpart value (by simp [Node.parts])) fun u => h.andThen (h.elementary.setField f o name u) fun _ =>
        h.elementary.pure f u
  | _ => exact h.elementary.throw f nofun nofun

/-- Declarations of classes aside, a step is executed as its parts are. -/
theorem executeNode (f : FrameId) {n : Node} (hn : n.Everywhere p)
    (hclass : ∀ name methods line, n ≠ .classDecl name methods line) :
    Q f n.declares?.toList (Traced.executeNode e f n) := by
  have hvalue : ∀ inner ∈ n.parts, Q f [] (e.evaluate f inner) := fun inner hi => he f (hn.part hi)
  have hbranch : ∀ inner ∈ n.parts, Q f [] (e.execute f inner) := fun inner hi => h.part hn hi (hx f (hn.part hi))
  cases n with
  | block steps => exact h.block f hn fun inner => h.executeAll hx inner fun m hm => hn.child hm
  | letDecl name initializer line =>
    exact h.andThen (he f (hn.child List.mem_cons_self)) fun v => h.andLast (h.elementary.define f name v line) fun _ =>
      h.elementary.pure f _
  | function name params body line => exact h.andLast (h.elementary.declareFunction f hn) fun _ => h.elementary.pure f _
  | classDecl name methods line => exact absurd rfl (hclass name methods line)
  | print expression line =>
    exact h.andThen (hvalue expression (by simp [Node.parts])) fun v => h.andThen (h.elementary.textOf f v) fun text =>
      h.andThen (h.elementary.emit f text line) fun _ => h.elementary.pure f _
  | ifElse condition thenBranch elseBranch =>
    refine h.andThen (hvalue condition (by simp [Node.parts])) fun v => ?_
    split
    · exact hbranch thenBranch (by simp [Node.parts])
    · split
      · exact h.elementary.pure f _
      · exact hbranch elseBranch (by simp [Node.parts])
  | whileLoop condition body line =>
    refine h.andThen (hvalue condition (by simp [Node.parts])) fun v => ?_
    split
    · refine h.andThen (hbranch body (by simp [Node.parts])) fun signal => ?_
      split
      · exact h.elementary.pure f signal
      · exact hx f hn
    · exact h.elementary.pure f _
  | returnStep value =>
    show Q f [] (if value.isAbsent then _ else _)
    split
    · exact h.elementary.pure f _
    · exact h.andThen (hvalue value (by simp [Node.parts])) fun v => h.elementary.pure f _
  | error d =>
    refine h.elementary.throw f ?_ ?_ <;> split <;> exact nofun
  | absent | bare => exact h.elementary.throw f nofun nofun
  | _ => exact h.andThen (he f hn) fun _ => h.elementary.pure f _

end Rules

/-! ## Runs -/

section Runs

variable (hgiven : ∀ (f : FrameId) {α : Type}, Q f [] (liftM (throw .outOfFuel : Exec α)))
include hgiven

theorem ofFuel (fuel : Nat) :
    (∀ f {n : Node}, n.Everywhere p → Q f n.declares?.toList ((Traced.ofFuel fuel).execute f n)) ∧
      ∀ f {n : Node}, n.Everywhere p → Q f [] ((Traced.ofFuel fuel).evaluate f n) := by
  induction fuel with
  | zero =>
    exact ⟨fun f n _ => h.elementary.weaken (List.nil_sublist _) (hgiven f), fun f n _ => hgiven f⟩
  | succ fuel ih =>
    obtain ⟨hx, he⟩ := ih
    refine ⟨fun f n hn => ?_, fun f n hn => ?_⟩
    · by_cases hclass : ∃ name methods line, n = .classDecl name methods line
      · obtain ⟨name, methods, line, rfl⟩ := hclass
        exact h.classDecl fuel f hn
      · have hmakes : ¬ (Activity.execute f n).Makes := by
          cases n <;> first | exact not_false | exact fun _ => hclass ⟨_, _, _, rfl⟩
        refine h.andThen (h.note rfl hmakes) fun _ => h.executeNode hx he f hn fun name methods line heq => ?_
        exact hclass ⟨name, methods, line, heq⟩
    · by_cases hassign : ∃ name value line depth, n = .assign name value line depth
      · obtain ⟨name, value, line, depth, rfl⟩ := hassign
        exact h.assign fuel f hn (he f (hn.child List.mem_cons_self))
      · refine h.andThen (h.note rfl not_false) fun _ => h.evaluateNode hx he f hn fun name value line depth heq => ?_
        exact hassign ⟨name, value, line, depth, heq⟩

/-- What is passed on from part to whole is known of every program. -/
theorem program (fuel : Nat) {steps : List Node} (hn : ∀ n ∈ steps, n.Everywhere p) :
    Q Store.root (Node.stepNames steps) (Traced.program fuel steps) :=
  h.executeAll (h.ofFuel hgiven fuel).1 Store.root hn

end Runs

end HereditaryIn

end LoxLang
