import LoxLang.Proofs.Hereditary
import LoxLang.Proofs.Store

/-!
# What a computation conserves

A computation that succeeds leaves the active calls as they were, and takes no name out of a frame (`Conserves`): a call
that becomes active is left again before its result is given. Only a fault leaves calls behind. So a program that runs
to its end leaves none (`Exec.program_conserves`).
-/

namespace LoxLang

/-- The same calls are active, and the store has grown. -/
structure Machine.Onward (m m₁ : Machine) : Prop where
  calls : m₁.activations = m.activations
  store : m.store.Grows m₁.store

theorem Machine.Onward.trans {m m₁ m₂ : Machine} (h : m.Onward m₁) (h' : m₁.Onward m₂) : m.Onward m₂ :=
  ⟨h'.calls.trans h.calls, h.store.trans h'.store⟩

/-- A computation that succeeds leaves the active calls as they were, and lets the store grow. -/
def Conserves {α : Type} (x : Exec α) : Prop := ∀ m a m₁, x m = .ok a m₁ → m.Onward m₁

namespace Conserves

variable {α β : Type}

/-! ## Single steps -/

theorem pure (a : α) : Conserves (Pure.pure a : Exec α) := fun m _ _ h => by
  cases h
  exact ⟨rfl, .refl m.store⟩

theorem throw (fault : Fault) : Conserves (throw fault : Exec α) := fun _ _ _ h => by cases h

theorem bind {x : Exec α} {f : α → Exec β} (hx : Conserves x) (hf : ∀ a, Conserves (f a)) : Conserves (x >>= f) := by
  intro m b m₂ h
  rw [Exec.bind_apply] at h
  cases hr : x m with
  | error fault m₁ => rw [hr] at h; cases h
  | ok a m₁ =>
    rw [hr] at h
    exact (hx m a m₁ hr).trans (hf a m₁ b m₂ h)

theorem ite {c : Prop} [Decidable c] {x y : Exec α} (hx : Conserves x) (hy : Conserves y) :
    Conserves (if c then x else y) := by
  split
  · exact hx
  · exact hy

theorem failAt (line : Line) (cause : RuntimeCause) : Conserves (Exec.failAt line cause : Exec α) := .throw _

theorem inspect (f : Store → α) : Conserves (Exec.inspect f) := fun m _ _ h => by
  cases h
  exact ⟨rfl, .refl m.store⟩

theorem update {f : Store → Store} (hf : ∀ s, Store.Grows s (f s)) : Conserves (Exec.update f) := fun m _ _ h => by
  cases h
  exact ⟨rfl, hf m.store⟩

/-! ## Frames -/

theorem newFrame (parent : Option FrameId) (bindings : Table Value) : Conserves (Exec.newFrame parent bindings) :=
  .bind (.inspect _) fun _ => .bind (.update fun s => .pushFrame s _ _) fun _ => .pure _

theorem define (f : FrameId) (name : String) (v : Value) (line : Line) : Conserves (Exec.define f name v line) :=
  .bind (.inspect _) fun _ => .ite (.failAt _ _) (.update fun s => .bind s _ _ _)

theorem lookup (f : FrameId) (name : String) (line : Line) : Conserves (Exec.lookup f name line) :=
  .bind (.inspect _) fun found => by cases found <;> first | exact .failAt _ _ | exact .pure _

theorem assign (f : FrameId) (name : String) (v : Value) (line : Line) : Conserves (Exec.assign f name v line) :=
  .bind (.inspect _) fun found => by
    cases found with
    | none => exact .failAt _ _
    | some g => exact .bind (.update fun s => .bind s _ _ _) fun _ => .pure _

theorem ancestor (f : FrameId) (depth : Nat) : Conserves (Exec.ancestor f depth) :=
  .bind (.inspect _) fun found => by cases found <;> first | exact .throw _ | exact .pure _

theorem lookupAt (f : FrameId) (depth : Nat) (name : String) (line : Line) :
    Conserves (Exec.lookupAt f depth name line) :=
  .bind (.ancestor f depth) fun _ => .bind (.inspect _) fun found => by
    cases found <;> first | exact .failAt _ _ | exact .pure _

theorem assignAt (f : FrameId) (depth : Nat) (name : String) (v : Value) : Conserves (Exec.assignAt f depth name v) :=
  .bind (.ancestor f depth) fun _ => .bind (.update fun s => .bind s _ _ _) fun _ => .pure _

theorem readName (scope : FrameId) (name : String) (line : Line) (depth : Depth) :
    Conserves (Exec.readName scope name line depth) := by
  cases depth with
  | none => exact .lookup scope name line
  | some d => exact .lookupAt scope d name line

theorem writeName (scope : FrameId) (name : String) (v : Value) (line : Line) (depth : Depth) :
    Conserves (Exec.writeName scope name v line depth) := by
  cases depth with
  | none => exact .assign scope name v line
  | some d => exact .assignAt scope d name v

/-! ## Closures and objects -/

theorem newClosure (c : Closure) : Conserves (Exec.newClosure c) :=
  .bind (.inspect _) fun _ => .bind (.update fun _ => .of_frames rfl) fun _ => .pure _

theorem newObject (info : ClassInfo) : Conserves (Exec.newObject info) :=
  .bind (.inspect _) fun _ => .bind (.update fun _ => .of_frames rfl) fun _ => .pure _

/-! ## Calls and effects -/

theorem emit (message : String) (line : Line) : Conserves (Exec.emit message line) := by
  intro m a m₁ h
  rw [Exec.emit_apply] at h
  split at h <;> cases h
  exact ⟨rfl, .refl m.store⟩

theorem readClock : Conserves Exec.readClock := fun m _ _ h => by
  cases h
  exact ⟨rfl, .refl m.store⟩

theorem askHost (index : Nat) (call : HostCall) : Conserves (Exec.askHost index call) := by
  intro m reply m₁ h
  unfold Exec.askHost at h
  split at h <;> cases h
  · exact ⟨rfl, .refl m.store⟩
  · exact ⟨rfl, .refl m.store⟩

/-- A call is entered and left. -/
theorem call (a : Activation) {x : Exec Value} (hx : Conserves x) :
    Conserves (do Exec.enterCall a; let v ← x; Exec.leaveCall; Pure.pure v) := by
  intro m v m₁ h
  rw [Exec.bind_apply] at h
  split at h
  · next heq =>
    obtain rfl := Exec.eq_entered heq
    rw [Exec.bind_apply] at h
    cases hr : x (Exec.entered m a) with
    | error fault m₂ => rw [hr] at h; cases h
    | ok result m₂ =>
      rw [hr] at h
      cases h
      have hinside := hx _ _ _ hr
      refine ⟨?_, hinside.store⟩
      show m₂.activations.pop = _
      rw [hinside.calls]
      simp [Exec.entered]
  · cases h

end Conserves

/-! ## Programs -/

/-- What parts conserve, the whole conserves. -/
theorem conserves_hereditary : Hereditary fun x => Conserves x.untraced where
  pure := .pure
  throw _ := .throw _
  bind hx hf := by
    rw [Traced.untraced_bind]
    exact .bind hx hf
  note _ := .pure ()
  closure c := .inspect (·.closure c)
  object o := .inspect (·.object o)
  arity v := .inspect (·.arity v)
  newFrame f := .newFrame (some f)
  define := .define
  readName := .readName
  newClosure := .newClosure
  newObject := .newObject
  setField o name v := .update (f := (·.setField o name v)) fun _ => .of_frames rfl
  emit := .emit
  readClock := .readClock
  askHost := .askHost
  call a x hx := by
    simp only [Traced.untraced_bind]
    exact .call a hx
  assign fuel f name value line depth he := by
    rw [Traced.ofFuel_assign]
    simp only [Traced.untraced_bind]
    exact .bind (.pure ()) fun _ => .bind he fun v => .writeName f name v line depth

theorem Evaluator.evaluate_conserves (fuel : Nat) (f : FrameId) (n : Node) :
    Conserves ((ofFuel fuel).evaluate f n) := by
  rw [← Traced.evaluate_untraced]
  exact (conserves_hereditary.ofFuel (.throw _) fuel).2 f n

/-- A program that runs to its end leaves no call active that was not active before, and no name unbound. -/
theorem Exec.program_conserves (fuel : Nat) (steps : List Node) : Conserves (Exec.program fuel steps) := by
  rw [← Traced.program_untraced]
  exact conserves_hereditary.program (.throw _) fuel steps

end LoxLang
