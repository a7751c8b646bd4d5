import LoxLang.Proofs.Captures
import LoxLang.Proofs.Retention

/-!
# Receivers

A method is bound to its receiver when it is accessed as a property, or when a constructor runs it: a frame holds the
receiver as `this`, and nothing else ever makes or changes such a name. So wherever a `this` is evaluated in a call of
the bound method, it is that receiver, and an initializer answers with it however it ends; a class answers with a new
instance (`Session.receivers_kept`).
-/

namespace LoxLang

open Exec

/-! ## Layers of receivers -/

/-- The layer of a receiver holds `this`, which is ready. -/
theorem Within.receiver_layer {program : List Node} {layers : List Layer} {ns : List Node}
    (h : Within program layers ns) : ∀ layer ∈ layers, ∀ methods, layer.opening = .receiver methods →
      layer = Layer.ofReceiver methods := by
  -- The innermost layer around a place is never that of a receiver, and no other one is marked.
  suffices hall : ∃ first outer, layers = first :: outer ∧ (∀ methods, first.opening ≠ .receiver methods) ∧
      ∀ layer ∈ outer, ∀ methods, layer.opening = .receiver methods → layer = Layer.ofReceiver methods by
    obtain ⟨first, outer, rfl, hfirst, houter⟩ := hall
    exact List.forall_mem_cons.mpr ⟨fun methods heq => absurd heq (hfirst methods), houter⟩
  induction h with
  | program => exact ⟨_, [], rfl, nofun, nofun⟩
  | @next layers n _ _ ih =>
    obtain ⟨first, outer, rfl, hfirst, houter⟩ := ih
    unfold behind
    cases n.declares? with
    | none => exact ⟨first, outer, rfl, hfirst, houter⟩
    | some name => exact ⟨_, outer, rfl, hfirst, houter⟩
  | part _ _ ih => exact ih
  | initializer _ ih =>
    obtain ⟨first, outer, rfl, hfirst, houter⟩ := ih
    exact ⟨_, outer, rfl, hfirst, houter⟩
  | block _ ih =>
    obtain ⟨first, outer, rfl, hfirst, houter⟩ := ih
    exact ⟨_, _, rfl, nofun, List.forall_mem_cons.mpr ⟨fun methods heq => absurd heq (hfirst methods), houter⟩⟩
  | body _ ih =>
    obtain ⟨first, outer, rfl, hfirst, houter⟩ := ih
    exact ⟨_, _, rfl, nofun, List.forall_mem_cons.mpr ⟨fun methods heq => absurd heq (hfirst methods), houter⟩⟩
  | method _ _ ih =>
    obtain ⟨first, outer, rfl, hfirst, houter⟩ := ih
    refine ⟨_, _, rfl, nofun, List.forall_mem_cons.mpr ⟨fun methods heq => ?_, List.forall_mem_cons.mpr
      ⟨fun methods heq => absurd heq (hfirst methods), houter⟩⟩⟩
    cases heq
    rfl

theorem Store.ancestor?_of_chain {s : Store} {f g : FrameId} {inner outer : List FrameId}
    (h : s.chain f = inner ++ g :: outer) : s.ancestor? f inner.length = some g := by
  rw [ancestor?, h, List.getElem?_append_right (Nat.le_refl _), Nat.sub_self, List.getElem?_cons_zero]

/-- A depth is counted up to a layer that holds the name, if not to a nearer one. -/
theorem depthOf?_le {layers : List Layer} {i : Nat} {layer : Layer} {name : String} (hl : layers[i]? = some layer)
    (hn : layer.names.contains name = true) : ∃ d, (scopesOf layers).depthOf? name = some d ∧ d ≤ i := by
  obtain ⟨hi, rfl⟩ := List.getElem?_eq_some_iff.mp hl
  cases hd : (scopesOf layers).depthOf? name with
  | none =>
    have hnone := List.findIdx?_eq_none_iff.mp hd _ (List.mem_map_of_mem (List.getElem_mem hi))
    rw [hn] at hnone
    cases hnone
  | some d =>
    refine ⟨d, rfl, Nat.le_of_not_lt fun hlt => ?_⟩
    have hfirst := not_contains_of_depthOf? hd hlt hl
    rw [hn] at hfirst
    cases hfirst

/-! ## What a binding leaves behind -/

section Bindings

variable {s s' : Store} {c : ClosureId} {receiver : Value}

theorem nextClosure_boundStore : (boundStore s c receiver).nextClosure = s.nextClosure + 1 := by
  rw [boundStore, Store.nextClosure_pushClosure]
  rfl

theorem nextFrame_boundStore : (boundStore s c receiver).nextFrame = s.nextFrame + 1 :=
  Store.nextFrame_pushFrame s _ _

namespace Store.Persists

variable (h : (boundStore s c receiver).Persists IsReceiver s')
include h

theorem nextFrame_lt_of_bound : s.nextFrame < s'.nextFrame :=
  Nat.lt_of_succ_le (nextFrame_boundStore.symm.trans_le h.frames)

theorem nextClosure_lt_of_bound : s.nextClosure < s'.nextClosure :=
  Nat.lt_of_succ_le (nextClosure_boundStore.symm.trans_le h.closures)

/-- The frame that a binding makes holds the receiver. -/
theorem own?_of_bound (hroot : s.nextFrame ≠ root) : s'.own? s.nextFrame "this" = some receiver := by
  refine h.own? _ _ _ ⟨hroot, rfl⟩ ?_
  show (s.pushFrame _ _).own? s.nextFrame "this" = _
  rw [own?_pushFrame, if_pos rfl]
  rfl

/-- The closure that a binding makes is the method, closed over that frame. -/
theorem closure_of_bound : s'.closure s.nextClosure = { s.closure c with frame := s.nextFrame } := by
  rw [h.closure _ (nextClosure_boundStore ▸ Nat.lt_succ_self _), boundStore, closure_pushClosure]
  exact if_pos rfl

end Store.Persists

end Bindings

/-- The closures of methods are initializers if they are named so. -/
theorem Store.isInitializer_withMethods (s : Store) (f : FrameId) {methods : List Node}
    (hm : ∀ n ∈ methods, n.functionName?.isSome) {c : ClosureId} (hlo : s.nextClosure ≤ c)
    (hhi : c < s.nextClosure + methods.length) :
    c < (s.withMethods f methods).nextClosure ∧
      ((s.withMethods f methods).closure c).isInitializer = (((s.withMethods f methods).closure c).name == "init") := by
  induction methods generalizing s with
  | nil => exact absurd hhi (Nat.not_lt.mpr hlo)
  | cons n methods ih =>
    have hn := hm n List.mem_cons_self
    cases n with
    | function name params body line =>
      have hpush : (s.pushClosure ⟨name, params, body, f, name == "init"⟩).Persists IsReceiver
          ((s.pushClosure ⟨name, params, body, f, name == "init"⟩).withMethods f methods) := .withMethods _ f methods
      rw [Store.withMethods]
      obtain rfl | hlt := Nat.eq_or_lt_of_le hlo
      · have hnew : s.nextClosure < (s.pushClosure ⟨name, params, body, f, name == "init"⟩).nextClosure := by
          rw [nextClosure_pushClosure]
          exact Nat.lt_succ_self _
        refine ⟨Nat.lt_of_lt_of_le hnew hpush.closures, ?_⟩
        rw [hpush.closure _ hnew, closure_pushClosure, if_pos rfl]
      · rw [List.length_cons, Nat.add_comm methods.length, ← Nat.add_assoc] at hhi
        refine ih _ (fun k hk => hm k (List.mem_cons_of_mem _ hk)) ?_ ?_ <;> rw [nextClosure_pushClosure]
        · exact hlt
        · exact hhi
    | _ => cases hn

/-! ## What is known of a session's visits -/

/-- A session whose runs are done: its store is as the world describes it, and its visits lie in order. -/
structure Session.Done (closes : Prop) (rs : List Run) (w : World) (s₀ s : Session) : Prop where
  sound : s.Sound closes (programsOf rs) w
  regular : ∀ v ∈ w.visits, v.machine.From Node.IsRegular
  retains : Retains IsReceiver w.visits s₀.machine.store s.machine.store
  rooted : Store.root < s₀.machine.store.nextFrame

theorem Session.done (e : Surroundings) {events : List Event} (he : ∀ event ∈ events, event.Honest) :
    ∃ w, w.visits = (start e).visited events ∧
      Done e.log.CanClose (runsIn events) w (start e) ((start e).meetAll events) := by
  obtain ⟨w, hv, -, hs⟩ := events_sound e he
  obtain ⟨-, hregular, hretains⟩ := visited_retains (start_from e) events
  exact ⟨w, hv, hs, hv ▸ hregular, hv ▸ hretains, Nat.one_pos⟩

namespace Session.Done

variable {closes : Prop} {rs : List Run} {w : World} {s₀ s : Session}
  (h : Session.Done closes rs w s₀ s)
include h

/-- The frame that a binding makes is not the global one. -/
theorem nextFrame_ne_root {c : ClosureId} {receiver : Value} {m : Machine} (hbind : ⟨.bind c receiver, m⟩ ∈ w.visits) :
    m.store.nextFrame ≠ Store.root :=
  Nat.ne_of_gt (Nat.lt_of_lt_of_le h.rooted (h.retains.fromStart _ hbind).frames)

/-- Only the frame of a bound method holds a `this`. -/
theorem receiver_of_own? {f : FrameId} {t : FrameType} (ht : w.frames[f]? = some t) (hroot : f ≠ Store.root) {v : Value}
    (hv : s.machine.store.own? f "this" = some v) :
    ∃ methods c receiver m, t.opening = .receiver methods ∧ ⟨.bind c receiver, m⟩ ∈ w.visits ∧
      m.store.nextFrame = f ∧ MethodOf w.visits c methods := by
  have hdeclared := (h.sound.lockstep.stores.sound.frames f t ht).declared "this" (Store.binds_iff.mpr ⟨v, hv⟩)
  have hinstance := h.sound.lockstep.chronicle.instances f t ht
  revert hdeclared hinstance
  generalize t.opening = opening
  rintro hdeclared (- | hblock | hcall | ⟨hbind, hmethod⟩)
  · exact absurd rfl hroot
  · obtain ⟨n, hn, hd⟩ := hdeclared
    cases h.sound.lockstep.chronicle.visits _ hblock with
    | execute _ _ _ hs =>
      exact absurd rfl (hs.isRegular.self.named "this" (List.mem_filterMap.mpr ⟨n, hn, hd⟩))
  · obtain ⟨line, hc⟩ := h.regular _ hcall _
    exact absurd rfl (hc.self.named "this" hdeclared)
  · exact ⟨_, _, _, _, rfl, hbind, rfl, hmethod⟩

/-- The frame that a binding makes is that of a receiver, and what is bound is a method. -/
theorem receiver_of_bind {c : ClosureId} {receiver : Value} {m : Machine} (hbind : ⟨.bind c receiver, m⟩ ∈ w.visits)
    {t : FrameType} (ht : w.frames[m.store.nextFrame]? = some t) :
    ∃ methods, t.opening = .receiver methods ∧ MethodOf w.visits c methods := by
  have hroot := h.nextFrame_ne_root hbind
  obtain ⟨methods, c', receiver', m', ho, hbind', heq, hmethod⟩ := h.receiver_of_own? ht hroot
    ((h.retains.toEnd ⟨.bind c receiver, m⟩ hbind).own?_of_bound hroot)
  refine ⟨methods, ho, ?_⟩
  -- Two bindings make two frames.
  obtain hsame | hbefore | hafter := h.retains.compare hbind hbind'
  · cases hsame
    exact hmethod
  · exact absurd heq (Nat.ne_of_gt hbefore.nextFrame_lt_of_bound)
  · exact absurd heq (Nat.ne_of_lt hafter.nextFrame_lt_of_bound)

/-- What is bound to a receiver is a method. -/
theorem methodOf_of_bind {c : ClosureId} {receiver : Value} {m : Machine}
    (hbind : ⟨.bind c receiver, m⟩ ∈ w.visits) : ∃ methods, MethodOf w.visits c methods := by
  have hlt : m.store.nextFrame < w.frames.length := by
    rw [h.sound.lockstep.stores.sound.frameCount]
    exact (h.retains.toEnd ⟨.bind c receiver, m⟩ hbind).nextFrame_lt_of_bound
  obtain ⟨methods, -, hmethod⟩ := h.receiver_of_bind hbind (List.getElem?_eq_getElem hlt)
  exact ⟨methods, hmethod⟩

/-- A method that is bound to a receiver is an initializer if it is named so. -/
theorem isInitializer_of_bind {c : ClosureId} {receiver : Value} {m : Machine}
    (hbind : ⟨.bind c receiver, m⟩ ∈ w.visits) (hname : (m.store.closure c).name = "init") :
    (m.store.closure c).isInitializer = true := by
  obtain ⟨methods, scope, name, line, m', hclass, hlo, hhi⟩ := h.methodOf_of_bind hbind
  have hfunctions : ∀ n ∈ methods, n.functionName?.isSome := by
    cases h.sound.lockstep.chronicle.visits _ hclass with
    | execute _ _ _ hs => exact hs.isRegular.self.methods _ _ _ rfl
  obtain ⟨hlt, hinit⟩ := m'.store.isInitializer_withMethods scope hfunctions hlo hhi
  obtain heq | hbefore | hafter := h.retains.compare hclass hbind
  · cases heq
  · have hkept : m.store.closure c = (m'.store.withMethods scope methods).closure c := hbefore.closure c hlt
    rw [hkept] at hname ⊢
    rw [hinit]
    exact beq_iff_eq.mpr hname
  · -- Before its class is declared, there is no closure to be bound.
    have hle : m.store.nextClosure ≤ c :=
      Nat.le_trans (Nat.le_of_lt hafter.nextClosure_lt_of_bound) hlo
    rw [Store.closure, Array.getD_eq_getD_getElem?, Array.getElem?_eq_none hle] at hname
    exact absurd hname (by decide)

end Session.Done

/-! ## Calls -/

/-- A call of a closure retains what is there. -/
theorem Evaluator.applyClosure_persists {p : Node → Prop} {kept : FrameId → String → Prop}
    (hp : ∀ f name value line depth, p (.assign name value line depth) → ¬ kept f name) {fuel : Nat} {c : ClosureId}
    {arguments : List Value} {line : Line} {m m₁ : Machine} {v : Value} (hm : m.From p)
    (h : (ofFuel fuel).applyClosure c arguments line m = .ok v m₁) : m.store.Persists kept m₁.store := by
  have hretains := retains_accruesIn hp
  have hends := (hretains.hereditaryIn.applyClosure (hretains.ofFuel fuel).1 Store.root c arguments line m hm).2.2.ends
  rwa [Traced.erases_compares.applyClosure (Traced.ofFuel_erases fuel).execute c arguments line m, h] at hends

/-- An initializer that comes to its end answers with what `this` is then. -/
theorem Evaluator.applyClosure_initializer {e : Evaluator} {c : ClosureId} {arguments : List Value} {line : Line}
    {m m₁ : Machine} {v : Value} (hinit : (m.store.closure c).isInitializer = true)
    (h : e.applyClosure c arguments line m = .ok v m₁) :
    lookupAt (m.store.closure c).frame 0 "this" line m₁ = .ok v m₁ := by
  rw [applyClosure_apply, callBody, Exec.bind_apply] at h
  cases hb : bindParameters m.store.nextFrame line (m.store.closure c).params arguments (m.called c) with
  | error => rw [hb] at h; cases h
  | ok _ m₂ =>
    rw [hb] at h
    dsimp only at h
    rw [Exec.bind_apply] at h
    cases hx : e.execute m.store.nextFrame (m.store.closure c).body m₂ with
    | error => rw [hx] at h; cases h
    | ok signal m₃ =>
      rw [hx] at h
      dsimp only at h
      rw [if_pos hinit] at h
      have hleft := readName_leaves m₃ (m.store.closure c).frame "this" line (some 0)
      rw [readName, h] at hleft
      obtain rfl : m₁ = m₃ := hleft
      exact h

/-- A class that answers to a call answers with an instance that was not there before. -/
theorem Evaluator.construct_new {fuel : Nat} {info : ClassInfo} {arguments : List Value} {line : Line}
    {m m₁ : Machine} {v : Value} (h : (ofFuel fuel).construct info arguments line m = .ok v m₁) :
    v = .object info.name m.store.nextObject ∧ m.store.nextObject < m₁.store.nextObject ∧
      (m₁.store.object m.store.nextObject).info = info := by
  -- What is there once the instance is made is there at the end.
  suffices hends : v = .object info.name m.store.nextObject ∧
      (m.store.pushObject ⟨info, []⟩).Persists (fun _ _ => False) m₁.store by
    have hlt : m.store.nextObject < (m.store.pushObject ⟨info, []⟩).nextObject := by
      rw [Store.nextObject_pushObject]
      exact Nat.lt_succ_self _
    refine ⟨hends.1, Nat.lt_of_lt_of_le hlt hends.2.objects, ?_⟩
    rw [hends.2.info _ hlt, Store.object_pushObject, if_pos rfl]
  rw [construct, Exec.bind_apply, newObject_apply] at h
  dsimp only at h
  cases hi : Store.initializer? info with
  | none =>
    rw [hi] at h
    cases h
    exact ⟨rfl, .refl _⟩
  | some c =>
    rw [hi] at h
    dsimp only at h
    rw [Exec.bind_apply, bindMethod_apply] at h
    dsimp only at h
    rw [Exec.bind_apply] at h
    have hbound : (m.store.pushObject ⟨info, []⟩).Persists (fun _ _ => False)
        (boundStore (m.store.pushObject ⟨info, []⟩) c (.object info.name m.store.nextObject)) := .bound _ _ _
    split at h
    · next heq =>
      have hfrom : ∀ m : Machine, m.From fun _ => True := fun m c => ⟨line, .true _⟩
      cases h
      exact ⟨rfl, hbound.trans (applyClosure_persists (fun _ _ _ _ _ _ => id) (hfrom _) heq)⟩
    · cases h

theorem Evaluator.call_new {fuel : Nat} {name : String} {info : ClassInfo} {arguments : List Value} {line : Line}
    {m m₁ : Machine} {v : Value} (h : (ofFuel fuel).call name (.classRef info) arguments line m = .ok v m₁) :
    v = .object info.name m.store.nextObject ∧ m.store.nextObject < m₁.store.nextObject ∧
      (m₁.store.object m.store.nextObject).info = info := by
  rw [call, Exec.bind_apply] at h
  split at h
  · next hentered =>
    obtain rfl := eq_entered hentered
    rw [Exec.bind_apply] at h
    split at h
    · next hmade =>
      obtain h' := construct_new hmade
      cases h
      exact h'
    · cases h
  · cases h

/-! ## Bound methods -/

theorem Traced.bindMethod_apply (c : ClosureId) (receiver : Value) (m : Machine) :
    Traced.bindMethod c receiver m =
      ([⟨.bind c receiver, m⟩], .ok m.store.nextClosure { m with store := boundStore m.store c receiver }) := rfl

/-- A property that is no field of an instance is a method: it is bound to the instance, under a new closure. -/
theorem Traced.property_binds {m : Machine} {o : ObjectId} {name : String} {c : ClosureId}
    (hfield : (m.store.object o).fields.get? name = none) (hmethod : (m.store.object o).info.method? name = some c)
    (v : Value) (line : Line) :
    Traced.property v o name line m = ([⟨.bind c v, m⟩],
      .ok (.function (m.store.closure c).name m.store.nextClosure) { m with store := boundStore m.store c v }) := by
  have hclosure := (Store.Persists.refl (boundStore m.store c v)).closure_of_bound
  simp only [Traced.property, Traced.bind_apply, Traced.lift_apply, inspect_apply, hfield, hmethod,
    Traced.bindMethod_apply, hclosure]
  rfl

/-- The initializer of a class is bound to the instance that is made, and then it is called. -/
theorem Traced.construct_binds (e : Traced.Evaluator) {info : ClassInfo} {c : ClosureId}
    (hinit : Store.initializer? info = some c) (arguments : List Value) (line : Line) (m : Machine) :
    ∃ m₁ m₂ rest, m₁.store = m.store.pushObject ⟨info, []⟩ ∧
      (Traced.construct e info arguments line m).1 = ⟨.bind c (.object info.name m.store.nextObject), m₁⟩ ::
        ⟨.invoke m₁.store.nextClosure arguments line, m₂⟩ :: rest := by
  simp only [Traced.construct, Traced.bind_apply, Traced.lift_apply, newObject_apply, hinit, Traced.bindMethod_apply,
    Traced.applyClosure_apply]
  split <;> next heq =>
    obtain ⟨rfl, -⟩ := Prod.mk.inj heq
    exact ⟨{ m with store := m.store.pushObject ⟨info, []⟩ }, _, _, rfl, rfl⟩

/-- Among the visits a method is bound to a receiver, on machine `m`, and what was bound is called, on machine `m'`. -/
structure BoundCall (visits : List Visit) (c : ClosureId) (receiver : Value) (m : Machine) (arguments : List Value)
    (line : Line) (m' : Machine) : Prop where
  bind : ⟨.bind c receiver, m⟩ ∈ visits
  call : ⟨.invoke m.store.nextClosure arguments line, m'⟩ ∈ visits

/-- A `this` is evaluated inside a frame, and no frame nearer than that one has a `this` of its own. -/
structure Visit.ReadsThisIn (v : Visit) (scope : FrameId) (line : Line) (depth : Depth) (f : FrameId) : Prop where
  activity : v.activity = .evaluate scope (.this line depth)
  inside : ∃ inner outer, v.machine.store.chain scope = inner ++ f :: outer ∧
    ∀ g ∈ inner, v.machine.store.binds "this" g = false

namespace BoundCall

variable {closes : Prop} {rs : List Run} {w : World} {s₀ s : Session} {c : ClosureId} {receiver : Value}
  {m m' : Machine} {arguments : List Value} {line : Line}

/-- What the binding made is there when the bound method is called. -/
theorem persists (h : BoundCall w.visits c receiver m arguments line m') (hs : Session.Done closes rs w s₀ s) :
    (boundStore m.store c receiver).Persists IsReceiver m'.store := by
  obtain heq | hbefore | hafter := hs.retains.compare h.bind h.call
  · cases heq
  · exact hbefore
  · cases hs.sound.lockstep.chronicle.visits _ h.call with
    | invoke _ hsound ht =>
      have hlt := (List.getElem?_eq_some_iff.mp ht).1
      rw [hsound.closureCount] at hlt
      exact absurd (Nat.lt_of_lt_of_le hlt hafter.closures) (Nat.lt_irrefl _)

/-- A visit in a frame that was made behind the binding is behind it as well. -/
theorem persists_of_frame (h : BoundCall w.visits c receiver m arguments line m') (hs : Session.Done closes rs w s₀ s)
    {v : Visit} (hv : v ∈ w.visits) (hmakes : ¬ v.activity.Makes)
    (hframe : m'.store.nextFrame < v.machine.store.nextFrame) :
    (boundStore m.store c receiver).Persists IsReceiver v.machine.store := by
  obtain heq | hbefore | hafter := hs.retains.compare h.bind hv
  · exact absurd (heq ▸ trivial) hmakes
  · exact hbefore
  · rw [show v.after = v.machine.store from Visit.after_of_not_makes hmakes] at hafter
    have hmade : m.store.nextFrame ≤ m'.store.nextFrame := Nat.le_of_lt (h.persists hs).nextFrame_lt_of_bound
    exact absurd (Nat.lt_of_lt_of_le hframe (Nat.le_trans hafter.frames hmade)) (Nat.lt_irrefl _)

/-- Around the place of a use inside a call of a bound method: the frame and the layer of the call do not have a `this`,
and right behind them stand those of the receiver. -/
theorem around (h : BoundCall w.visits c receiver m arguments line m') (hs : Session.Done closes rs w s₀ s) {v : Visit}
    {u : UseVisit} {w₁ : World} {layers : List Layer} (hw : w₁ ≤ w) (hp : u.Placed (programsOf rs) w₁ v layers)
    {i : Nat} (ha : v.machine.store.ancestor? u.scope i = some m'.store.nextFrame) :
    v.machine.store.binds "this" m'.store.nextFrame = false ∧ m'.store.nextFrame < v.machine.store.nextFrame ∧
      v.machine.store.ancestor? u.scope (i + 1) = some m.store.nextFrame ∧
      ∃ methods, layers[i + 1]? = some (Layer.ofReceiver methods) := by
  obtain ⟨t, t', names, hclosed, hin⟩ :=
    hp.inCall hw hs.sound.lockstep.chronicle hs.sound.lockstep.stores.sound h.call ha
  have hframe : t.frame = m.store.nextFrame := by rw [← hin.frame, (h.persists hs).closure_of_bound]
  have hcall : layers[i]? = some ⟨.parameters (m'.store.closure m.store.nextClosure).name
      (m'.store.closure m.store.nextClosure).params (m'.store.closure m.store.nextClosure).body, names⟩ := by
    have hget := congrArg (·[0]?) hin.layers
    rwa [List.getElem?_drop, List.getElem?_cons_zero] at hget
  have hparams : "this" ∉ (m'.store.closure m.store.nextClosure).params := fun hmem => by
    obtain ⟨line, hc⟩ := hs.regular _ h.call m.store.nextClosure
    exact hc.self.named "this" hmem rfl
  -- the frame of the call is the one at layer `i`, and its parent is the frame of the receiver
  obtain ⟨g, tg, hg, htg, -⟩ := hp.fits.ancestor hp.sound hcall
  obtain rfl : g = m'.store.nextFrame := Option.some.inj (hg.symm.trans ha)
  refine ⟨hp.fits.unbound hp.sound hcall hparams ha, hp.sound.frame_lt htg, ?_, ?_⟩
  · have hget := congrArg (·[0]?) hin.beyond
    rwa [List.getElem?_drop, List.getElem?_cons_zero, hframe] at hget
  · obtain ⟨tr, names', htr, hsite, -⟩ := hclosed.fits
    have hget := congrArg (·[1]?) hin.layers
    rw [List.getElem?_drop, List.getElem?_cons_succ, hsite, List.getElem?_cons_zero] at hget
    rw [hframe] at htr
    obtain ⟨methods, ho, -⟩ := hs.receiver_of_bind h.bind htr
    obtain ⟨_, -, program, -, ns, hwithin⟩ := hp.stands
    rw [hwithin.receiver_layer _ (List.mem_of_getElem? hget) methods ho] at hget
    exact ⟨methods, hget⟩

/-- A `this` inside a call of a bound method is resolved to the frame of its receiver, right behind that of the call. -/
theorem depth_eq (h : BoundCall w.visits c receiver m arguments line m')
    (hs : Session.Done closes rs w s₀ s) {v : Visit}
    {u : UseVisit} {w₁ : World} {layers : List Layer} (hw : w₁ ≤ w) (hp : u.Placed (programsOf rs) w₁ v layers)
    (hname : u.name = "this") (hreads : u.reads = true) {inner outer : List FrameId}
    (hchain : v.machine.store.chain u.scope = inner ++ m'.store.nextFrame :: outer)
    (hinner : ∀ g ∈ inner, v.machine.store.binds "this" g = false) : u.depth = some (inner.length + 1) := by
  have ha := Store.ancestor?_of_chain hchain
  obtain ⟨hcall, -, hbehind, methods, hreceiver⟩ := h.around hs hw hp ha
  obtain ⟨d, hd, hle⟩ : ∃ d, u.depth = some d ∧ d ≤ inner.length + 1 := by
    rw [hp.resolved, hname]
    exact depthOf?_le hreceiver rfl
  obtain hlt | rfl : d < inner.length + 1 ∨ d = inner.length + 1 := Nat.lt_or_eq_of_le hle
  · -- The frame at the depth holds a `this`, or it is the global one: then none stands behind it.
    obtain ⟨f, hf, hbound | ⟨rfl, -⟩⟩ := hp.fits.frame_of_ready hp.sound (hp.ready hreads d hd)
    · rw [hname] at hbound
      obtain hlt | rfl := Nat.lt_or_eq_of_le (Nat.le_of_lt_succ hlt)
      · rw [Store.ancestor?, hchain, List.getElem?_append_left hlt] at hf
        rw [hinner f (List.mem_of_getElem? hf)] at hbound
        cases hbound
      · rw [Option.some.inj (hf.symm.trans ha), hcall] at hbound
        cases hbound
    · have hlength := (List.getElem?_eq_some_iff.mp hbehind).1
      rw [hp.fits.length_chain_of_root hp.sound hf] at hlength
      exact absurd hlength (Nat.not_lt.mpr hlt)
  · exact hd

/-- A `this` inside a call of a bound method is the receiver. -/
theorem this_eq (h : BoundCall w.visits c receiver m arguments line m') (hs : Session.Done closes rs w s₀ s) {v : Visit}
    (hv : v ∈ w.visits) {scope : FrameId} {line' : Line} {depth : Depth}
    (hthis : v.ReadsThisIn scope line' depth m'.store.nextFrame) :
    readName scope "this" line' depth v.machine = .ok receiver v.machine := by
  obtain ⟨inner, outer, hchain, hinner⟩ := hthis.inside
  have huse : v.use? = some ⟨scope, "this", line', depth, true⟩ := by rw [Visit.use?, hthis.activity]
  obtain ⟨w₁, layers, hw, hp⟩ := (hs.sound.lockstep.chronicle.visits v hv).placed huse
  obtain rfl := h.depth_eq hs hw hp rfl rfl hchain hinner
  obtain ⟨-, hlt, hframe, -⟩ := h.around hs hw hp (Store.ancestor?_of_chain hchain)
  have hpersists := h.persists_of_frame hs hv (by rw [hthis.activity]; exact not_false) hlt
  rw [readName, lookupAt_apply _ hframe, hpersists.own?_of_bound (hs.nextFrame_ne_root h.bind)]

/-- An initializer that comes to its end answers with the receiver. -/
theorem answer_eq (h : BoundCall w.visits c receiver m arguments line m') (hs : Session.Done closes rs w s₀ s)
    (hname : (m.store.closure c).name = "init") {fuel : Nat} {v : Value} {m₁ : Machine}
    (hcall : (Evaluator.ofFuel fuel).applyClosure m.store.nextClosure arguments line m' = .ok v m₁) : v = receiver := by
  have hclosure := (h.persists hs).closure_of_bound
  have hinit : (m'.store.closure m.store.nextClosure).isInitializer = true := by
    rw [hclosure]
    exact hs.isInitializer_of_bind h.bind hname
  have hends : m'.store.Persists IsReceiver m₁.store :=
    Evaluator.applyClosure_persists (fun _ _ _ _ _ hn hthis => hn.assigned _ _ _ _ rfl hthis.2) (hs.regular _ h.call)
      hcall
  have hread := Evaluator.applyClosure_initializer hinit hcall
  rw [hclosure, lookupAt_apply (g := m.store.nextFrame) m₁ rfl,
    ((h.persists hs).trans hends).own?_of_bound (hs.nextFrame_ne_root h.bind)] at hread
  cases hread
  rfl

end BoundCall

/-! ## The receiver -/

/-- A property of an instance that is a method is bound to the instance, and so is the initializer that a class runs, to
the instance it makes. In a call of a method that is bound to a receiver, `this` is the receiver, and an initializer
answers with it. A class answers with an instance of its own, which takes the next place among the objects. -/
theorem Session.receivers_kept (e : Surroundings) {events : List Event} (he : ∀ event ∈ events, event.Honest) :
    (∀ m o name c v line, (m.store.object o).fields.get? name = none → (m.store.object o).info.method? name = some c →
      Traced.property v o name line m = ([⟨.bind c v, m⟩],
        .ok (.function (m.store.closure c).name m.store.nextClosure) { m with store := boundStore m.store c v })) ∧
    (∀ e info c arguments line m, Store.initializer? info = some c →
      ∃ m₁ m₂ rest, m₁.store = m.store.pushObject ⟨info, []⟩ ∧
        (Traced.construct e info arguments line m).1 = ⟨.bind c (.object info.name m.store.nextObject), m₁⟩ ::
          ⟨.invoke m₁.store.nextClosure arguments line, m₂⟩ :: rest) ∧
    (∀ c receiver m arguments line m', BoundCall ((start e).visited events) c receiver m arguments line m' →
      (∀ v ∈ (start e).visited events, ∀ scope line' depth, v.ReadsThisIn scope line' depth m'.store.nextFrame →
        ∀ fuel, (Evaluator.ofFuel (fuel + 1)).evaluate scope (.this line' depth) v.machine = .ok receiver v.machine) ∧
      ((m.store.closure c).name = "init" → ∀ fuel v m₁,
        (Evaluator.ofFuel fuel).applyClosure m.store.nextClosure arguments line m' = .ok v m₁ → v = receiver)) ∧
    ∀ fuel name info arguments line m v m₁,
      (Evaluator.ofFuel fuel).call name (.classRef info) arguments line m = .ok v m₁ →
        v = .object info.name m.store.nextObject ∧ m.store.nextObject < m₁.store.nextObject ∧
          (m₁.store.object m.store.nextObject).info = info := by
  obtain ⟨w, hw, hs⟩ := Session.done e he
  refine ⟨fun _ _ _ _ v line hfield hmethod => Traced.property_binds hfield hmethod v line,
    fun e _ _ arguments line m hinit => Traced.construct_binds e hinit arguments line m,
    fun c receiver m arguments line m' h => ?_, fun _ _ _ _ _ _ _ _ => Evaluator.call_new⟩
  rw [← hw] at h ⊢
  exact ⟨fun v hv _ _ _ hthis _ => h.this_eq hs hv hthis, fun hname _ _ _ => h.answer_eq hs hname⟩

/-- A bound call is picked from a list of visits by the places of the binding and of the call. -/
theorem BoundCall.pick (visits : List Visit) (i j : Nat) {c bound : ClosureId} {receiver : Value}
    {arguments : List Value} {line : Line}
    (hbind : visits[i]?.map (fun v => (v.activity, v.machine.store.nextClosure)) = some (.bind c receiver, bound))
    (hcall : visits[j]?.map Visit.activity = some (.invoke bound arguments line)) :
    ∃ m m', visits[i]? = some ⟨.bind c receiver, m⟩ ∧ visits[j]? = some ⟨.invoke bound arguments line, m'⟩ ∧
      m.store.nextClosure = bound ∧ BoundCall visits c receiver m arguments line m' := by
  obtain ⟨⟨activity, m⟩, hi, hbind⟩ := Option.map_eq_some_iff.mp hbind
  obtain ⟨⟨activity', m'⟩, hj, rfl⟩ := Option.map_eq_some_iff.mp hcall
  obtain ⟨rfl, rfl⟩ := Prod.mk.inj hbind
  exact ⟨m, m', hi, hj, rfl, List.mem_of_getElem? hi, List.mem_of_getElem? hj⟩

/-- A host hands a bound method back, which is called, and then the function that it returns. -/
def nestedThis : List Session.Event :=
  [.attach Host.game, .run ⟨30,
    "class A \x7b me() \x7b fun f() \x7b return this; \x7d return f; \x7d \x7d identity(A().me)()();"⟩]

theorem Session.nestedThis_honest : ∀ event ∈ nestedThis, event.Honest :=
  List.forall_mem_cons.mpr ⟨Host.game_honest, List.forall_mem_singleton.mpr trivial⟩

set_option maxRecDepth 2000 in
theorem Session.nested_function_reads_this : ∃ m m' v,
    BoundCall ((start {}).visited nestedThis) 0 (.object "A" 0) m [] 1 m' ∧
    v ∈ (start {}).visited nestedThis ∧ v.ReadsThisIn 5 1 (some 4) m'.store.nextFrame := by
  obtain ⟨m, m', hi, hj, -, h⟩ := BoundCall.pick ((start {}).visited nestedThis) 9 10 (by cbv) (by cbv)
  have hframe : ((start {}).visited nestedThis)[10]?.map (·.machine.store.nextFrame) = some 2 := by cbv
  have hthis : ((start {}).visited nestedThis)[18]?.map (fun v => (v.activity, v.machine.store.chain 5,
      v.machine.store.binds "this" 5 || v.machine.store.binds "this" 4 || v.machine.store.binds "this" 3)) =
      some (.evaluate 5 (.this 1 (some 4)), [5, 4, 3, 2, 1, 0], false) := by cbv
  rw [hj] at hframe
  obtain ⟨v, hv, hthis⟩ := Option.map_eq_some_iff.mp hthis
  simp only [Prod.mk.injEq, Bool.or_eq_false_iff] at hthis
  obtain ⟨hactivity, hchain, ⟨h₅, h₄⟩, h₃⟩ := hthis
  refine ⟨m, m', v, h, List.mem_of_getElem? hv, hactivity, [5, 4, 3], [1, 0], ?_, ?_⟩
  · rw [hchain, show m'.store.nextFrame = 2 from Option.some.inj hframe]
    rfl
  · simp [h₅, h₄, h₃]

/-- The initializer of a class returns nothing. -/
def silentInitializer : String := "class A \x7b init() \x7b return; \x7d \x7d A();"

set_option maxRecDepth 2000 in
theorem Session.silent_initializer_ends : ∃ m m' v m₁,
    BoundCall (visitsOf silentInitializer) 0 (.object "A" 0) m [] 1 m' ∧ (m.store.closure 0).name = "init" ∧
    (Evaluator.ofFuel 9).applyClosure m.store.nextClosure [] 1 m' = .ok v m₁ := by
  obtain ⟨m, m', hi, hj, hbound, h⟩ := BoundCall.pick (visitsOf silentInitializer) 4 5 (by cbv) (by cbv)
  have hname : (visitsOf silentInitializer)[4]?.map (fun v => (v.machine.store.closure 0).name) = some "init" := by cbv
  have hends : (visitsOf silentInitializer)[5]?.map (fun v =>
      (answer? ((Evaluator.ofFuel 9).applyClosure 1 [] 1 v.machine)).isSome) = some true := by cbv
  rw [hi] at hname
  rw [hj] at hends
  obtain ⟨v, hv⟩ := Option.isSome_iff_exists.mp (Option.some.inj hends)
  exact ⟨m, m', _, _, h, Option.some.inj hname, hbound ▸ eq_ok_of_answer? hv⟩

/-- A class with an initializer and a method. -/
def initialized : ClassInfo := ⟨"A", [("init", 0), ("me", 1)]⟩

/-- A machine with an instance of the class. -/
def Machine.withInstance : Machine :=
  { Machine.initial .none with store := Store.initial.pushObject ⟨initialized, []⟩ }

/-- A method and an initializer are bound to their instances, the function finds the receiver of the method that a host
handed back, the initializer answers with the new instance, and so does a class without one. -/
theorem Session.nested_this_is_receiver :
    (Machine.withInstance.store.object 0).fields.get? "me" = none ∧
    (Machine.withInstance.store.object 0).info.method? "me" = some 1 ∧
    (Traced.property (.object "A" 0) 0 "me" 1 Machine.withInstance).1 =
      [⟨.bind 1 (.object "A" 0), Machine.withInstance⟩] ∧
    Store.initializer? initialized = some 0 ∧
    (∃ m₁ m₂ rest, m₁.store = Machine.withInstance.store.pushObject ⟨initialized, []⟩ ∧
      (Traced.construct (Traced.ofFuel 9) initialized [] 1 Machine.withInstance).1 =
        ⟨.bind 0 (.object "A" 1), m₁⟩ :: ⟨.invoke m₁.store.nextClosure [] 1, m₂⟩ :: rest) ∧
    (∀ event ∈ nestedThis, event.Honest) ∧
    (∃ m m' v, BoundCall ((start {}).visited nestedThis) 0 (.object "A" 0) m [] 1 m' ∧
      v ∈ (start {}).visited nestedThis ∧ v.ReadsThisIn 5 1 (some 4) m'.store.nextFrame ∧
      (Evaluator.ofFuel 1).evaluate 5 (.this 1 (some 4)) v.machine = .ok (.object "A" 0) v.machine) ∧
    (∃ m m' v m₁, BoundCall (visitsOf silentInitializer) 0 (.object "A" 0) m [] 1 m' ∧
      (m.store.closure 0).name = "init" ∧
      (Evaluator.ofFuel 9).applyClosure m.store.nextClosure [] 1 m' = .ok v m₁ ∧ v = .object "A" 0) ∧
    ∃ v m₁, (Evaluator.ofFuel 1).call "A" (.classRef ⟨"A", []⟩) [] 1 (start {}).machine = .ok v m₁ ∧
      v = .object "A" 0 := by
  have hquiet : ∀ event ∈ [Event.run ⟨30, silentInitializer⟩], event.Honest := List.forall_mem_singleton.mpr trivial
  obtain ⟨hproperty, hconstruct, -, hcall⟩ := receivers_kept {} hquiet
  refine ⟨rfl, rfl, ?_, rfl, ?_, nestedThis_honest, ?_, ?_, ?_⟩
  · rw [hproperty Machine.withInstance 0 "me" 1 (.object "A" 0) 1 rfl rfl]
  · exact hconstruct (Traced.ofFuel 9) initialized 0 [] 1 Machine.withInstance rfl
  · obtain ⟨m, m', v, h, hv, hthis⟩ := nested_function_reads_this
    have hlaw := (receivers_kept {} nestedThis_honest).2.2.1 _ _ _ _ _ _ h
    exact ⟨m, m', v, h, hv, hthis, hlaw.1 v hv _ _ _ hthis 0⟩
  · obtain ⟨m, m', v, m₁, h, hname, hends⟩ := silent_initializer_ends
    have hlaw := (receivers_kept {} hquiet).2.2.1 _ _ _ _ _ _ h
    exact ⟨m, m', v, m₁, h, hname, hends, hlaw.2 hname 9 v m₁ hends⟩
  · have hends : ∃ v m₁, (Evaluator.ofFuel 1).call "A" (.classRef ⟨"A", []⟩) [] 1
        (start {}).machine = .ok v m₁ := ⟨_, _, rfl⟩
    obtain ⟨v, m₁, hends⟩ := hends
    exact ⟨v, m₁, hends, (hcall 1 "A" ⟨"A", []⟩ [] 1 _ v m₁ hends).1⟩

end LoxLang
