import LoxLang.Proofs.Hereditary

/-!
# Fuel bounds nothing but the nesting

A run that is not given up ends the same on any more fuel (`Exec.program_of_le`): giving up is the only thing that a
run does because of its fuel, and no computation behind it undoes that. And nothing else gives a run up: one that is
given up has made at least as many visits as it had fuel (`Traced.visits_of_given_up`).
-/

namespace LoxLang

namespace Traced

variable {α : Type}

/-- The first computation is given up, or both end the same. -/
def Settles (x : Traced α) (y : Exec α) : Prop := ∀ m, (∃ m', (x m).2 = .error .outOfFuel m') ∨ (x m).2 = y m

theorem settles_compares : Compares @Settles where
  lift _ _ := .inr rfl
  note _ h m := h m
  bind {_ _ x y f g} h hf m := by
    have hm := h m
    rw [Exec.bind_apply, bind_apply]
    rcases hx : x m with ⟨visits, ⟨a, m₁⟩ | ⟨fault, m₁⟩⟩
    · rw [hx] at hm
      obtain ⟨m', hgiven⟩ | hm := hm
      · cases hgiven
      · rw [← hm]
        exact hf a m₁
    · rw [hx] at hm
      obtain ⟨m', hgiven⟩ | hm := hm
      · cases hgiven
        exact .inl ⟨m₁, rfl⟩
      · rw [← hm]
        exact .inr rfl

/-- On more fuel a node does the same, unless it is given up on less. -/
theorem ofFuel_settles : ∀ {fuel more : Nat}, fuel ≤ more →
    (∀ scope n, Settles ((ofFuel fuel).execute scope n) ((LoxLang.Evaluator.ofFuel more).execute scope n)) ∧
    ∀ scope n, Settles ((ofFuel fuel).evaluate scope n) ((LoxLang.Evaluator.ofFuel more).evaluate scope n)
  | 0, _, _ => ⟨fun _ _ m => .inl ⟨m, rfl⟩, fun _ _ m => .inl ⟨m, rfl⟩⟩
  | _ + 1, _ + 1, hle =>
    have ⟨hx, he⟩ := ofFuel_settles (Nat.le_of_succ_le_succ hle)
    ⟨fun scope n => settles_compares.note _ (settles_compares.executeNode hx he scope n),
      fun scope n => settles_compares.note _ (settles_compares.evaluateNode hx he scope n)⟩

end Traced

/-- A run that is not given up ends the same on any more fuel. -/
theorem Exec.program_of_le {fuel more : Nat} (hle : fuel ≤ more) {steps : List Node} {m : Machine}
    (h : ∀ m', Exec.program fuel steps m ≠ .error .outOfFuel m') :
    Exec.program more steps m = Exec.program fuel steps m := by
  have hsettles := Traced.settles_compares.executeAll (Traced.ofFuel_settles hle).1 Store.root steps m
  rw [← Traced.program, Traced.program_erases] at hsettles
  obtain ⟨m', hgiven⟩ | hsame := hsettles
  · exact absurd hgiven (h m')
  · exact hsame.symm

/-! ## What gives a run up -/

namespace Exec

variable {α β : Type}

/-- The computation is never given up. -/
def Lasts (x : Exec α) : Prop := ∀ m m', x m ≠ .error .outOfFuel m'

namespace Lasts

theorem of_ok {x : Exec α} (h : ∀ m, ∃ a m', x m = .ok a m') : Lasts x := by
  intro m m' hgiven
  obtain ⟨a, m₁, hx⟩ := h m
  cases hx.symm.trans hgiven

theorem pure (a : α) : Lasts (Pure.pure a) := .of_ok fun m => ⟨a, m, rfl⟩

theorem throw {fault : Fault} (h : fault ≠ .outOfFuel) : Lasts (MonadExcept.throw fault : Exec α) := by
  intro m m' hgiven
  cases hgiven
  exact h rfl

theorem failAt (line : Line) (cause : RuntimeCause) : Lasts (failAt line cause : Exec α) := by
  refine throw ?_
  split <;> exact nofun

theorem inspect (f : Store → α) : Lasts (inspect f) := .of_ok fun m => ⟨_, m, rfl⟩

theorem update (f : Store → Store) : Lasts (update f) := .of_ok fun _ => ⟨(), _, rfl⟩

theorem bind {x : Exec α} {f : α → Exec β} (hx : Lasts x) (hf : ∀ a, Lasts (f a)) : Lasts (x >>= f) := by
  intro m m' hgiven
  rw [bind_apply] at hgiven
  cases hr : x m with
  | ok a m₁ =>
    rw [hr] at hgiven
    exact hf a m₁ m' hgiven
  | error fault m₁ =>
    rw [hr] at hgiven
    cases hgiven
    exact hx m m' hr

theorem ancestor (f : FrameId) (depth : Nat) : Lasts (ancestor f depth) := by
  refine bind (inspect _) fun found => ?_
  cases found with
  | none => exact throw nofun
  | some g => exact pure g

theorem lookup (f : FrameId) (name : String) (line : Line) : Lasts (lookup f name line) := by
  refine bind (inspect _) fun found => ?_
  cases found with
  | none => exact failAt line _
  | some v => exact pure v

theorem lookupAt (f : FrameId) (depth : Nat) (name : String) (line : Line) : Lasts (lookupAt f depth name line) := by
  refine bind (ancestor f depth) fun g => bind (inspect _) fun found => ?_
  cases found with
  | none => exact failAt line _
  | some v => exact pure v

theorem readName (f : FrameId) (name : String) (line : Line) (depth : Depth) : Lasts (readName f name line depth) := by
  cases depth with
  | none => exact lookup f name line
  | some d => exact lookupAt f d name line

theorem writeName (f : FrameId) (name : String) (v : Value) (line : Line) (depth : Depth) :
    Lasts (writeName f name v line depth) := by
  cases depth with
  | some d => exact bind (ancestor f d) fun g => bind (update _) fun _ => pure v
  | none =>
    refine bind (inspect _) fun found => ?_
    cases found with
    | none => exact failAt line _
    | some g => exact bind (update _) fun _ => pure v

theorem enterCall (a : Activation) : Lasts (enterCall a) := by
  intro m m' hgiven
  rw [enterCall_apply] at hgiven
  split at hgiven
  · cases hgiven
  · split at hgiven <;> cases hgiven

theorem elementary : Elementary @Lasts where
  pure := .pure
  throw := .throw
  bind := .bind
  closure c := .inspect (·.closure c)
  object o := .inspect (·.object o)
  arity v := .inspect (·.arity v)
  newFrame _ _ := .of_ok fun _ => ⟨_, _, rfl⟩
  define f name v line := by
    intro m m' hgiven
    rw [define_apply] at hgiven
    split at hgiven <;> cases hgiven
  readName := .readName
  newClosure _ := .of_ok fun _ => ⟨_, _, rfl⟩
  newObject _ := .of_ok fun _ => ⟨_, _, rfl⟩
  setField o name v := .update (·.setField o name v)
  emit message line := by
    intro m m' hgiven
    rw [emit_apply] at hgiven
    split at hgiven <;> cases hgiven
  readClock := .of_ok fun _ => ⟨_, _, rfl⟩
  askHost index call := .of_ok fun m => by
    unfold Exec.askHost
    cases m.hosts[index]? <;> exact ⟨_, _, rfl⟩

end Lasts

end Exec

namespace Traced

open Exec

variable {α β : Type} {k : Nat}

/-- The computation is not given up before it has made so many visits. -/
def GivesUpBehind (k : Nat) (x : Traced α) : Prop := ∀ m m', (x m).2 = .error .outOfFuel m' → k ≤ (x m).1.length

namespace GivesUpBehind

theorem lift {x : Exec α} (hx : Lasts x) : GivesUpBehind k (liftM x : Traced α) :=
  fun m m' hgiven => absurd hgiven (hx m m')

theorem bind {x : Traced α} {f : α → Traced β} (hx : GivesUpBehind k x) (hf : ∀ a, GivesUpBehind k (f a)) :
    GivesUpBehind k (x >>= f) := by
  intro m m' hgiven
  have hm := hx m
  rw [bind_apply] at hgiven ⊢
  rcases hr : x m with ⟨visits, ⟨a, m₁⟩ | ⟨fault, m₁⟩⟩
  · rw [hr] at hgiven
    have hle := hf a m₁ m' hgiven
    show k ≤ (visits ++ (f a m₁).1).length
    rw [List.length_append]
    omega
  · rw [hr] at hgiven hm
    cases hgiven
    exact hm m' rfl

/-- A visit ahead counts. -/
theorem note {x : Traced α} (a : Activity) (hx : GivesUpBehind k x) :
    GivesUpBehind (k + 1) (do Traced.note a; x) := by
  intro m m' hgiven
  have hle := hx m m' hgiven
  show k + 1 ≤ (⟨a, m⟩ :: (x m).1).length
  rw [List.length_cons]
  omega

theorem hereditary : Hereditary fun x => GivesUpBehind k x where
  pure a := .lift (.pure a)
  throw h := .lift (.throw h)
  bind := .bind
  note _ _ _ hgiven := nomatch hgiven
  closure c := .lift (Lasts.elementary.closure c)
  object o := .lift (Lasts.elementary.object o)
  arity v := .lift (Lasts.elementary.arity v)
  newFrame f bindings := .lift (Lasts.elementary.newFrame f bindings)
  define f name v line := .lift (Lasts.elementary.define f name v line)
  readName f name line depth := .lift (.readName f name line depth)
  newClosure c := .lift (Lasts.elementary.newClosure c)
  newObject info := .lift (Lasts.elementary.newObject info)
  setField o name v := .lift (Lasts.elementary.setField o name v)
  emit message line := .lift (Lasts.elementary.emit message line)
  readClock := .lift Lasts.elementary.readClock
  askHost index call := .lift (Lasts.elementary.askHost index call)
  call a _ hx := .bind (.lift (.enterCall a)) fun _ => .bind hx fun v =>
    .bind (.lift (.of_ok fun m => ⟨(), _, leaveCall_apply m⟩)) fun _ => .lift (.pure v)
  assign fuel f name value line depth he := by
    rw [ofFuel_assign]
    exact .bind (fun _ _ hgiven => nomatch hgiven) fun _ => .bind he fun v => .lift (.writeName f name v line depth)

end GivesUpBehind

end Traced

end LoxLang
