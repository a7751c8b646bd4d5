import LoxLang.Proofs.Hereditary
import LoxLang.Proofs.Store

/-!
# What happens to a machine

A computation takes a machine from one state to another by a few kinds of changes, whether it succeeds or fails. A
relation between the machine before and the machine after that every such change satisfies, and that composes
(`Accrues`), holds between the two ends of every run (`Accrues.program`). The visits on the way are part of the
relation, and so it can say of an overwritten name which assignment wrote it.
-/

namespace LoxLang

open Exec

/-- The machine that a computation leaves, with an answer or without. -/
def machineLeft {α : Type} : EStateM.Result Fault Machine α → Machine
  | .ok _ m => m
  | .error _ m => m

/-- The answer of a computation that does not fail. -/
def answer? {α : Type} : EStateM.Result Fault Machine α → Option α
  | .ok a _ => some a
  | .error .. => none

theorem eq_ok_of_answer? {α : Type} {r : EStateM.Result Fault Machine α} {a : α} (h : answer? r = some a) :
    r = .ok a (machineLeft r) := by
  cases r with
  | ok a m =>
    cases h
    rfl
  | error fault m => cases h

/-- The frame that a write to a name changes. -/
def Store.written? (s : Store) (f : FrameId) (name : String) : Depth → Option FrameId
  | some d => s.ancestor? f d
  | none => s.owner? f name

theorem Exec.writeName_of_written {m : Machine} {f g : FrameId} {name : String} {depth : Depth}
    (h : m.store.written? f name depth = some g) (v : Value) (line : Line) :
    writeName f name v line depth m = .ok v { m with store := m.store.bind g name v } := by
  cases depth with
  | none =>
    have howner : m.store.owner? f name = some g := h
    rw [writeName, assign_apply, howner]
  | some d => exact assignAt_apply m h name v

/-- A write changes the frame that it finds, and fails where it finds none, but not because a name is declared. -/
theorem Exec.writeName_cases (m : Machine) (f : FrameId) (name : String) (v : Value) (line : Line) (depth : Depth) :
    (∃ g, m.store.written? f name depth = some g ∧
      writeName f name v line depth m = .ok v { m with store := m.store.bind g name v }) ∨
    ∃ fault, ¬ fault.IsRedefinition ∧ writeName f name v line depth m = .error fault m := by
  cases hw : m.store.written? f name depth with
  | some g => exact .inl ⟨g, rfl, writeName_of_written hw v line⟩
  | none =>
    cases depth with
    | none =>
      have howner : m.store.owner? f name = none := hw
      refine .inr ⟨.runtime line (.notDefined name), not_false, ?_⟩
      rw [writeName, assign_apply, howner]
    | some d =>
      have hancestor : m.store.ancestor? f d = none := hw
      refine .inr ⟨.shortChain d, not_false, ?_⟩
      rw [writeName, assignAt, bind_apply, ancestor, bind_apply, inspect_apply]
      dsimp only
      rw [hancestor]
      rfl

/-- A read leaves the machine alone, whether it finds the name or not. -/
theorem Exec.readName_leaves (m : Machine) (f : FrameId) (name : String) (line : Line) (depth : Depth) :
    machineLeft (readName f name line depth m) = m := by
  cases depth with
  | none =>
    rw [readName, lookup_apply]
    cases m.store.lookup? f name <;> rfl
  | some d =>
    rw [readName, lookupAt, bind_apply, ancestor, bind_apply, inspect_apply]
    dsimp only
    cases m.store.ancestor? f d with
    | none => rfl
    | some g =>
      show machineLeft ((inspect (·.own? g name) >>= _ : Exec Value) m) = m
      rw [bind_apply, inspect_apply]
      dsimp only
      cases m.store.own? g name <;> rfl

/-- A relation that composes, and that every change of a machine satisfies. -/
structure Accrues (P : List Visit → Machine → Machine → Prop) : Prop where
  refl : ∀ m, P [] m m
  trans : ∀ {visits visits' m m₁ m₂}, P visits m m₁ → P visits' m₁ m₂ → P (visits ++ visits') m m₂
  visit : ∀ activity m, P [⟨activity, m⟩] m m
  /-- A frame is added. -/
  frame : ∀ m parents bindings, P [] m { m with store := m.store.pushFrame parents bindings }
  /-- A name is added to a frame. -/
  define : ∀ m f name v, m.store.binds name f = false → P [] m { m with store := m.store.bind f name v }
  /-- Closures and objects change. -/
  heap : ∀ m store, store.frames = m.store.frames → P [] m { m with store }
  emit : ∀ m message, P [] m (emitted m message)
  tick : ∀ m, P [] m { m with ticks := m.ticks + 1 }
  /-- A host remembers something. -/
  ask : ∀ (m : Machine) index (host : Host) memory, m.hosts[index]? = some host →
    P [] m { m with hosts := m.hosts.set! index { host with memory } }
  log : ∀ m a, P [] m (logged m a)
  enter : ∀ m a, P [] m (entered m a)
  leave : ∀ m, P [] m { m with activations := m.activations.pop }
  /-- An assignment has its value, and then writes it. -/
  assign : ∀ fuel f name value line depth {m visits v m₁ g},
    (Traced.ofFuel fuel).evaluate f value m = (visits, .ok v m₁) → P visits m m₁ →
      m₁.store.written? f name depth = some g →
        P (⟨.evaluate f (.assign name value line depth), m⟩ :: visits) m { m₁ with store := m₁.store.bind g name v }

/-- The relation holds between the two ends of a computation. -/
def Leads (P : List Visit → Machine → Machine → Prop) {α : Type} (x : Traced α) : Prop :=
  ∀ m, P (x m).1 m (machineLeft (x m).2)

namespace Leads

variable {P : List Visit → Machine → Machine → Prop} (hP : Accrues P) {α β : Type}
include hP

theorem bind {x : Traced α} {f : α → Traced β} (hx : Leads P x) (hf : ∀ a, Leads P (f a)) : Leads P (x >>= f) := by
  intro m
  have h := hx m
  rw [Traced.bind_apply]
  rcases hr : x m with ⟨visits, ⟨a, m₁⟩ | ⟨fault, m₁⟩⟩
  · rw [hr] at h
    exact hP.trans h (hf a m₁)
  · rw [hr] at h
    exact h

/-- A computation that leaves the machine alone. -/
theorem still {x : Exec α} (hx : ∀ m, machineLeft (x m) = m) : Leads P (liftM x : Traced α) := by
  intro m
  show P [] m (machineLeft (x m))
  rw [hx]
  exact hP.refl m

theorem define (f : FrameId) (name : String) (v : Value) (line : Line) :
    Leads P (liftM (Exec.define f name v line)) := by
  intro m
  show P [] m (machineLeft (Exec.define f name v line m))
  rw [define_apply]
  by_cases hb : m.store.binds name f = true
  · rw [if_pos hb]
    exact hP.refl m
  · rw [if_neg hb]
    exact hP.define m f name v (Bool.eq_false_iff.mpr hb)

theorem readName (f : FrameId) (name : String) (line : Line) (depth : Depth) :
    Leads P (liftM (Exec.readName f name line depth)) :=
  still hP fun m => readName_leaves m f name line depth

theorem emit (message : String) (line : Line) : Leads P (liftM (Exec.emit message line)) := by
  intro m
  show P [] m (machineLeft (Exec.emit message line m))
  rw [emit_apply]
  split
  · exact hP.emit m message
  · exact hP.emit m message

theorem askHost (index : Nat) (call : HostCall) : Leads P (liftM (Exec.askHost index call)) := by
  intro m
  show P [] m (machineLeft (Exec.askHost index call m))
  unfold Exec.askHost
  cases hm : m.hosts[index]? with
  | none => exact hP.refl m
  | some host => exact hP.ask m index host _ hm

theorem enterCall (a : Activation) : Leads P (liftM (Exec.enterCall a)) := by
  intro m
  show P [] m (machineLeft (Exec.enterCall a m))
  rw [enterCall_apply]
  split
  · exact hP.log m a
  · split
    · exact hP.enter m a
    · exact hP.enter m a

theorem assign (fuel : Nat) (f : FrameId) (name : String) (value : Node) (line : Line) (depth : Depth)
    (he : Leads P ((Traced.ofFuel fuel).evaluate f value)) :
    Leads P ((Traced.ofFuel (fuel + 1)).evaluate f (.assign name value line depth)) := by
  intro m
  have h := he m
  rw [Traced.ofFuel_assign, Traced.bind_apply]
  dsimp only [Traced.note]
  rw [Traced.bind_apply]
  rcases hv : (Traced.ofFuel fuel).evaluate f value m with ⟨visits, ⟨v, m₁⟩ | ⟨fault, m₁⟩⟩
  · rw [hv] at h
    show P (_ :: (visits ++ [])) m (machineLeft (writeName f name v line depth m₁))
    rw [List.append_nil]
    obtain ⟨g, hg, hw⟩ | ⟨fault, -, hw⟩ := writeName_cases m₁ f name v line depth
    · rw [hw]
      exact hP.assign fuel f name value line depth hv h hg
    · rw [hw]
      exact hP.trans (hP.visit _ m) h
  · rw [hv] at h
    exact hP.trans (hP.visit _ m) h

end Leads

namespace Accrues

variable {P : List Visit → Machine → Machine → Prop} (hP : Accrues P)
include hP

theorem hereditary : Hereditary (Leads P) where
  pure _ := .still hP fun _ => rfl
  throw _ := .still hP fun _ => rfl
  bind := .bind hP
  note activity m := hP.visit activity m
  closure _ := .still hP fun _ => rfl
  object _ := .still hP fun _ => rfl
  arity _ := .still hP fun _ => rfl
  newFrame _ bindings m := hP.frame m _ bindings
  define := .define hP
  readName := .readName hP
  newClosure _ m := hP.heap m _ rfl
  newObject _ m := hP.heap m _ rfl
  setField _ _ _ m := hP.heap m _ rfl
  emit := .emit hP
  readClock m := hP.tick m
  askHost := .askHost hP
  call a _ hx := .bind hP (.enterCall hP a) fun _ => .bind hP hx fun _ =>
    .bind hP (fun m => hP.leave m) fun _ => .still hP fun _ => rfl
  assign := .assign hP

/-- From the machine on which a program starts to the one that it leaves, however it ends. -/
theorem program (fuel : Nat) (steps : List Node) (m : Machine) :
    P (Traced.program fuel steps m).1 m (machineLeft (Exec.program fuel steps m)) := by
  rw [← Traced.program_erases]
  exact hP.hereditary.program (.still hP fun _ => rfl) fuel steps m

end Accrues

/-! ## Hosts -/

/-- A host that remembers nothing. -/
def Host.blank (h : Host) : Host := { h with memory := ⟨0, []⟩ }

end LoxLang
