import LoxLang.Proofs.Hereditary
import LoxLang.Proofs.Store

/-!
# Machines that no program can tell apart

A program sees of a frame what each name means there, and not in which order the frame lists its names; and it sees
that a line was printed, but not whether there is a live output that takes it. Two machines that differ in nothing else
are `Indistinct`: a computation that starts on one and on the other gives the same answer, or the same fault, and leaves
two such machines (`Uniform`). Every program is uniform (`Exec.program_uniform`).
-/

namespace LoxLang

/-! ## Stores -/

/-- Two stores with the same frames as far as names and their meanings go, the same closures and the same objects. -/
structure Store.Indistinct (s s' : Store) : Prop where
  nextFrame : s'.nextFrame = s.nextFrame
  parents : ∀ f, (s'.frame f).parents = (s.frame f).parents
  own? : ∀ f name, s'.own? f name = s.own? f name
  closures : s'.closures = s.closures
  objects : s'.objects = s.objects

namespace Store.Indistinct

variable {s s' : Store}

theorem refl (s : Store) : s.Indistinct s := ⟨rfl, fun _ => rfl, fun _ _ => rfl, rfl, rfl⟩

/-! ### What they show -/

section

variable (h : s.Indistinct s')
include h

theorem chain (f : FrameId) : s'.chain f = s.chain f := by rw [Store.chain, h.parents, Store.chain]

theorem binds (name : String) (f : FrameId) : s'.binds name f = s.binds name f := by
  rw [Store.binds_eq_isSome, h.own?, Store.binds_eq_isSome]

theorem owner? (f : FrameId) (name : String) : s'.owner? f name = s.owner? f name := by
  have hb : s'.binds name = s.binds name := funext (h.binds name)
  rw [Store.owner?, h.chain, hb, Store.owner?]

theorem lookup? (f : FrameId) (name : String) : s'.lookup? f name = s.lookup? f name := by
  have ho : (fun g => s'.own? g name) = fun g => s.own? g name := funext fun g => h.own? g name
  rw [Store.lookup?, h.owner?, ho, Store.lookup?]

theorem ancestor? (f : FrameId) (depth : Nat) : s'.ancestor? f depth = s.ancestor? f depth := by
  rw [Store.ancestor?, h.chain, Store.ancestor?]

theorem closure (c : ClosureId) : s'.closure c = s.closure c := by rw [Store.closure, h.closures, Store.closure]

theorem object (o : ObjectId) : s'.object o = s.object o := by rw [Store.object, h.objects, Store.object]

theorem nextClosure : s'.nextClosure = s.nextClosure := congrArg Array.size h.closures

theorem nextObject : s'.nextObject = s.nextObject := congrArg Array.size h.objects

theorem arity (v : Value) : s'.arity v = s.arity v := by
  cases v with
  | function name c => exact congrArg (·.params.length) (h.closure c)
  | classRef info =>
    have hc : s'.closure = s.closure := funext h.closure
    show ((initializer? info).map fun c => (s'.closure c).params.length).getD 0 = _
    rw [hc]
    rfl
  | _ => rfl

/-! ### Changes made to both -/

theorem pushFrame (parents : List FrameId) (bindings : Table Value) :
    (s.pushFrame parents bindings).Indistinct (s'.pushFrame parents bindings) := by
  refine ⟨?_, fun f => ?_, fun f name => ?_, h.closures, h.objects⟩
  · rw [nextFrame_pushFrame, nextFrame_pushFrame, h.nextFrame]
  · rw [frame_pushFrame, frame_pushFrame, h.nextFrame]
    split
    · rfl
    · exact h.parents f
  · rw [own?_pushFrame, own?_pushFrame, h.nextFrame, h.own?]

theorem bind (f : FrameId) (name : String) (v : Value) : (s.bind f name v).Indistinct (s'.bind f name v) := by
  by_cases hf : f < s.nextFrame
  · have hf' : f < s'.nextFrame := by rwa [h.nextFrame]
    refine ⟨?_, fun g => ?_, fun g other => ?_, h.closures, h.objects⟩
    · rw [nextFrame_bind, nextFrame_bind, h.nextFrame]
    · rw [parents_bind, parents_bind, h.parents]
    · rw [s'.own?_bind hf', s.own?_bind hf, h.own?]
  · have hle : s.nextFrame ≤ f := Nat.le_of_not_lt hf
    have hle' : s'.nextFrame ≤ f := by rwa [h.nextFrame]
    rw [s.bind_of_le hle, s'.bind_of_le hle']
    exact h

theorem unbind (f : FrameId) (name : String) : (s.unbind f name).Indistinct (s'.unbind f name) := by
  refine ⟨?_, fun g => ?_, fun g other => ?_, h.closures, h.objects⟩
  · rw [nextFrame_unbind, nextFrame_unbind, h.nextFrame]
  · rw [parents_unbind, parents_unbind, h.parents]
  · rw [own?_unbind, own?_unbind, h.own?]

theorem pushClosure (c : Closure) : (s.pushClosure c).Indistinct (s'.pushClosure c) :=
  { h with closures := congrArg (·.push c) h.closures }

theorem pushObject (o : Object) : (s.pushObject o).Indistinct (s'.pushObject o) :=
  { h with objects := congrArg (·.push o) h.objects }

theorem setField (o : ObjectId) (name : String) (v : Value) :
    (s.setField o name v).Indistinct (s'.setField o name v) :=
  { h with objects := by simp only [Store.setField, h.objects] }

end

end Store.Indistinct

/-! ## Machines -/

/-- Two machines with indistinct stores and with outputs that refuse the same lines; all else is the same. -/
inductive Machine.Indistinct (m : Machine) : Machine → Prop
  | intro {store : Store} {output : Output} :
      m.store.Indistinct store → Machine.refusesLine { m with store, output } = m.refusesLine →
        Indistinct m { m with store, output }

namespace Machine.Indistinct

variable {m m' : Machine}

theorem store (h : m.Indistinct m') : m.store.Indistinct m'.store := by
  cases h with
  | intro hs ho => exact hs

theorem effects (h : m.Indistinct m') : m'.effects = m.effects := by
  cases h
  rfl

theorem activations (h : m.Indistinct m') : m'.activations = m.activations := by
  cases h
  rfl

theorem hosts (h : m.Indistinct m') : m'.hosts = m.hosts := by
  cases h
  rfl

/-- Both machines get stores that are indistinct. -/
theorem withStores (h : m.Indistinct m') {s s' : Store} (hs : s.Indistinct s') :
    Indistinct { m with store := s } { m' with store := s' } := by
  cases h with
  | intro _ ho => exact .intro hs ho

/-- Both machines get the same effects. -/
theorem withEffects (h : m.Indistinct m') (effects : Array Effect) :
    Indistinct { m with effects } { m' with effects } := by
  cases h with
  | intro hs ho => exact .intro hs ho

/-- Both machines get the same active calls. -/
theorem withActivations (h : m.Indistinct m') (activations : Array Activation) :
    Indistinct { m with activations } { m' with activations } := by
  cases h with
  | intro hs ho => exact .intro hs ho

/-- Both machines get the same hosts. -/
theorem withHosts (h : m.Indistinct m') (hosts : Array Host) : Indistinct { m with hosts } { m' with hosts } := by
  cases h with
  | intro hs ho => exact .intro hs ho

theorem emitted (h : m.Indistinct m') (message : String) :
    (Exec.emitted m message).Indistinct (Exec.emitted m' message) := by
  cases h with
  | @intro store output hs ho =>
    exact .intro hs ((Exec.refusesLine_emitted { m with store, output } message).trans
      (ho.trans (Exec.refusesLine_emitted m message).symm))

end Machine.Indistinct

/-! ## Computations -/

/-- A computation ends twice alike: with the same answer, or with the same fault. -/
inductive EndsSame {α : Type} : EStateM.Result Fault Machine α → EStateM.Result Fault Machine α → Prop
  | ok {a : α} {m m' : Machine} : m.Indistinct m' → EndsSame (.ok a m) (.ok a m')
  | error {fault : Fault} {m m' : Machine} : m.Indistinct m' → EndsSame (.error fault m) (.error fault m')

/-- Started on machines that are indistinct, the computation ends alike. -/
def Uniform {α : Type} (x : Exec α) : Prop := ∀ m m', m.Indistinct m' → EndsSame (x m) (x m')

namespace Uniform

variable {α β : Type}

theorem pure (a : α) : Uniform (Pure.pure a : Exec α) := fun _ _ h => .ok h

theorem throw (fault : Fault) : Uniform (throw fault : Exec α) := fun _ _ h => .error h

theorem failAt (line : Line) (cause : RuntimeCause) : Uniform (Exec.failAt line cause : Exec α) := .throw _

theorem bind {x : Exec α} {f : α → Exec β} (hx : Uniform x) (hf : ∀ a, Uniform (f a)) : Uniform (x >>= f) := by
  intro m m' h
  have hr := hx m m' h
  rw [Exec.bind_apply, Exec.bind_apply]
  revert hr
  generalize x m = r
  generalize x m' = r'
  intro hr
  cases hr with
  | ok h₁ => exact hf _ _ _ h₁
  | error h₁ => exact .error h₁

/-- What indistinct stores show alike can be looked at. -/
theorem inspect {f : Store → α} (hf : ∀ s s', s.Indistinct s' → f s' = f s) : Uniform (Exec.inspect f) := by
  intro m m' h
  rw [Exec.inspect_apply, Exec.inspect_apply, hf _ _ h.store]
  exact .ok h

theorem update {f : Store → Store} (hf : ∀ s s', s.Indistinct s' → (f s).Indistinct (f s')) :
    Uniform (Exec.update f) :=
  fun _ _ h => .ok (h.withStores (hf _ _ h.store))

/-! ### Frames -/

theorem newFrame (f : FrameId) (bindings : Table Value) : Uniform (Exec.newFrame (some f) bindings) := by
  refine .bind (.inspect fun s s' hs => hs.nextFrame) fun g => .bind (.update fun s s' hs => ?_) fun _ => .pure g
  rw [Option.map_some, Option.map_some, hs.chain]
  exact hs.pushFrame _ _

theorem define (f : FrameId) (name : String) (v : Value) (line : Line) : Uniform (Exec.define f name v line) := by
  refine .bind (.inspect fun s s' hs => hs.binds name f) fun bound => ?_
  split
  · exact .failAt _ _
  · exact .update fun s s' hs => hs.bind f name v

theorem lookup (f : FrameId) (name : String) (line : Line) : Uniform (Exec.lookup f name line) := by
  refine .bind (.inspect fun s s' hs => hs.lookup? f name) fun found => ?_
  cases found with
  | some v => exact .pure v
  | none => exact .failAt _ _

theorem assign (f : FrameId) (name : String) (v : Value) (line : Line) : Uniform (Exec.assign f name v line) := by
  refine .bind (.inspect fun s s' hs => hs.owner? f name) fun found => ?_
  cases found with
  | some g => exact .bind (.update fun s s' hs => hs.bind g name v) fun _ => .pure v
  | none => exact .failAt _ _

theorem ancestor (f : FrameId) (depth : Nat) : Uniform (Exec.ancestor f depth) := by
  refine .bind (.inspect fun s s' hs => hs.ancestor? f depth) fun found => ?_
  cases found with
  | some g => exact .pure g
  | none => exact .throw _

theorem readName (f : FrameId) (name : String) (line : Line) (depth : Depth) :
    Uniform (Exec.readName f name line depth) := by
  cases depth with
  | none => exact .lookup f name line
  | some d =>
    refine .bind (.ancestor f d) fun g => .bind (.inspect fun s s' hs => hs.own? g name) fun found => ?_
    cases found with
    | some v => exact .pure v
    | none => exact .failAt _ _

theorem writeName (f : FrameId) (name : String) (v : Value) (line : Line) (depth : Depth) :
    Uniform (Exec.writeName f name v line depth) := by
  cases depth with
  | none => exact .assign f name v line
  | some d => exact .bind (.ancestor f d) fun g => .bind (.update fun s s' hs => hs.bind g name v) fun _ => .pure v

/-! ### Calls and effects -/

theorem emit (message : String) (line : Line) : Uniform (Exec.emit message line) := by
  intro m m' h
  have hnext := h.emitted message
  rw [Exec.emit_apply, Exec.emit_apply]
  cases h with
  | intro hs ho =>
    rw [ho]
    by_cases hrefused : m.refusesLine m.writes = true
    · rw [if_pos hrefused, if_pos hrefused]
      exact .error hnext
    · rw [if_neg hrefused, if_neg hrefused]
      exact .ok hnext

theorem readClock : Uniform Exec.readClock := by
  intro m m' h
  cases h with
  | intro hs ho => exact .ok (.intro hs ho)

theorem askHost (index : Nat) (call : HostCall) : Uniform (Exec.askHost index call) := by
  intro m m' h
  cases h with
  | intro hs ho =>
    unfold Exec.askHost
    dsimp only
    cases m.hosts[index]? with
    | none => exact .ok (.intro hs ho)
    | some host => exact .ok (.intro hs ho)

theorem enterCall (a : Activation) : Uniform (Exec.enterCall a) := by
  intro m m' h
  cases h with
  | intro hs ho =>
    rw [Exec.enterCall_apply, Exec.enterCall_apply]
    split
    · exact .error (.intro hs ho)
    · split
      · exact .error (.intro hs ho)
      · exact .ok (.intro hs ho)

theorem leaveCall : Uniform Exec.leaveCall := by
  intro m m' h
  cases h with
  | intro hs ho => exact .ok (.intro hs ho)

end Uniform

/-! ## Programs -/

/-- Being uniform is passed on from parts to the whole. -/
theorem uniform_hereditary : Hereditary fun x => Uniform x.untraced where
  pure := .pure
  throw _ := .throw _
  bind hx hf := by
    rw [Traced.untraced_bind]
    exact .bind hx hf
  note _ := .pure ()
  closure c := .inspect fun s s' hs => hs.closure c
  object o := .inspect fun s s' hs => hs.object o
  arity v := .inspect fun s s' hs => hs.arity v
  newFrame := .newFrame
  define := .define
  readName := .readName
  newClosure c :=
    .bind (.inspect fun s s' hs => hs.nextClosure) fun i => .bind (.update fun s s' hs => hs.pushClosure c) fun _ =>
      .pure i
  newObject info :=
    .bind (.inspect fun s s' hs => hs.nextObject) fun i => .bind (.update fun s s' hs => hs.pushObject _) fun _ =>
      .pure i
  setField o name v := .update fun s s' hs => hs.setField o name v
  emit := .emit
  readClock := .readClock
  askHost := .askHost
  call a x hx := by
    simp only [Traced.untraced_bind]
    exact .bind (.enterCall a) fun _ => .bind hx fun v => .bind .leaveCall fun _ => .pure v
  assign fuel f name value line depth he := by
    rw [Traced.ofFuel_assign]
    simp only [Traced.untraced_bind]
    exact .bind (.pure ()) fun _ => .bind he fun v => .writeName f name v line depth

/-- A program ends alike on machines that it cannot tell apart. -/
theorem Exec.program_uniform (fuel : Nat) (steps : List Node) : Uniform (Exec.program fuel steps) := by
  rw [← Traced.program_untraced]
  exact uniform_hereditary.program (.throw _) fuel steps

end LoxLang
