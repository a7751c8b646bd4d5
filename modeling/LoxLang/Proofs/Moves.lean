import LoxLang.Proofs.Lockstep

/-!
# Single steps side by side

Each elementary step of a machine keeps two machines in lockstep: first as changes of the machines, then as
computations, which also say what the later world knows.
-/

namespace LoxLang

variable {programs : List (List Node)} {K : Kinship} {sides : Sides} {w : World} {m m' : Machine}

/-! ## Changes of the machines -/

theorem Chronicle.grow (h : Chronicle programs w) {w₁ : World} (hw : w ≤ w₁) (hf : w₁.frames = w.frames)
    (hv : w₁.visits = w.visits) : Chronicle programs w₁ :=
  ⟨fun f t ht => hv ▸ h.instances f t (hf ▸ ht), fun v hm => (h.visits v (hv ▸ hm)).mono hw⟩

namespace SurfaceAlike

/-- What is seen from outside does not depend on the stores. -/
theorem withStores (h : SurfaceAlike sides m m') (s s' : Store) :
    SurfaceAlike sides { m with store := s } { m' with store := s' } := { h with }

theorem logged (h : SurfaceAlike sides m m') (a a' : Activation) :
    SurfaceAlike sides (Exec.logged m a) (Exec.logged m' a') := by
  obtain ⟨hon, hreply, hoffered⟩ := h.log
  refine { h with log := ?_, closes := fun hc => h.closes (Exec.canClose_of_logged m hc) }
  simp only [Exec.logged, hon]
  cases m.log.isOn with
  | false => exact h.log
  | true => exact ⟨hon, hreply, congrArg (· + 1) hoffered⟩

theorem entered (h : SurfaceAlike sides m m') {a a' : Activation} (ha : a.Alike sides.lines a')
    (ht : sides.lent = [] → a.hasText = true) : SurfaceAlike sides (Exec.entered m a) (Exec.entered m' a') := by
  refine { h.logged a a' with calls := ?_, shown := fun hl b hb => ?_ }
  · simp only [Exec.entered, Array.toList_push]
    exact List.rel_append h.calls (.cons ha .nil)
  · obtain hb | rfl : b ∈ m.activations ∨ b = a := by simpa [Exec.entered] using hb
    · exact h.shown hl b (Array.mem_toList_iff.mpr hb)
    · exact ht hl

theorem depth (h : SurfaceAlike sides m m') : m'.activations.size = m.activations.size := h.calls.length_eq.symm

theorem left (h : SurfaceAlike sides m m') :
    SurfaceAlike sides { m with activations := m.activations.pop } { m' with activations := m'.activations.pop } := by
  refine { h with calls := ?_, shown := fun hl b hb => ?_ }
  · rw [Array.toList_pop, Array.toList_pop, List.dropLast_eq_take, List.dropLast_eq_take, ← h.calls.length_eq]
    exact List.forall₂_take _ h.calls
  · rw [Array.toList_pop] at hb
    exact h.shown hl b (List.dropLast_subset _ hb)

/-- The same lines are refused. -/
theorem refusesLine (h : SurfaceAlike sides m m') : m'.refusesLine = m.refusesLine := by
  unfold Machine.refusesLine
  rw [h.output, h.refuses]

theorem emitted (h : SurfaceAlike sides m m') (message : String) :
    SurfaceAlike sides (Exec.emitted m message) (Exec.emitted m' message) := by
  obtain ⟨new, hm, hm'⟩ := h.effects
  refine { h with effects := ⟨new ++ [⟨.stdout, message⟩], ?_, ?_⟩, output := ?_, writes := congrArg (· + 1) h.writes }
  · simp [Exec.emitted, hm]
  · simp [Exec.emitted, hm']
  · simp only [Exec.emitted, h.refusesLine, h.writes, h.output]

theorem ticked (h : SurfaceAlike sides m m') :
    SurfaceAlike sides { m with ticks := m.ticks + 1 } { m' with ticks := m'.ticks + 1 } :=
  { h with ticks := congrArg (· + 1) h.ticks }

theorem withHosts (h : SurfaceAlike sides m m') (hosts : Array Host) :
    SurfaceAlike sides { m with hosts } { m' with hosts } := { h with hosts := rfl }

end SurfaceAlike

/-! ### Visits and frames -/

theorem StoreSound.visit {s : Store} (hs : StoreSound w s) (v : Visit) : StoreSound (w.visit v) s := by
  have hle := w.le_visit v
  refine ⟨hs.frameCount, hs.closureCount, hs.root, hs.bound, fun f t ht => ?_, hs.closures, fun o =>
    (hs.objects o).mono hle⟩
  have hf := hs.frames f t ht
  exact ⟨hf.enclosed.mono hle, hf.parents, hf.declared, fun name u hu => (hf.values name u hu).mono hle⟩

theorem StoresAlike.visit {s s' : Store} (h : StoresAlike programs K w s s') (v : Visit) :
    StoresAlike programs K (w.visit v) s s' :=
  h.update (h.sound.visit v) h.frames h.objects rfl rfl rfl

theorem StoresAlike.pushFrame {s s' : Store} (h : StoresAlike programs K w s s') {f : FrameId} {layers : List Layer}
    {opening : Opening} {bindings : Table Value} (hf : Fits w f layers)
    (hb : ∀ name v, bindings.get? name = some v → opening.Declares name ∧ ValueSound w v) :
    StoresAlike programs K (w.pushFrame ⟨opening, layers, s.chain f⟩) (s.pushFrame (s.chain f) bindings)
      (s'.pushFrame (s'.chain f) bindings) := by
  refine h.update (h.sound.pushFrame hf hb) ?_ h.objects rfl rfl rfl
  show s'.frames.push _ = s.frames.push _
  rw [h.frames, h.chain_eq]

theorem Chronicle.visit (h : Chronicle programs w) {v : Visit} (hv : VisitSound programs (w.visit v) v) :
    Chronicle programs (w.visit v) := by
  have hle := w.le_visit v
  refine ⟨fun f t ht => (h.instances f t ht).mono fun _ => World.visit_of_le hle, fun u hu => ?_⟩
  obtain hu | rfl : u ∈ w.visits ∨ u = v := by simpa [World.visit] using hu
  · exact (h.visits u hu).mono hle
  · exact hv

theorem Chronicle.pushFrame (h : Chronicle programs w) {t : FrameType}
    (hi : Instance w.visits w.frames.length t.opening) : Chronicle programs (w.pushFrame t) := by
  refine ⟨fun f t' ht => ?_, fun v hv => (h.visits v hv).mono (w.le_pushFrame t)⟩
  obtain ht | ⟨rfl, rfl⟩ := World.frame_pushFrame_cases ht
  · exact h.instances f t' ht
  · exact hi

/-- A visit and the frame made for it come together. -/
theorem Chronicle.visitFrame (h : Chronicle programs w) {v : Visit} {t : FrameType}
    (hv : VisitSound programs ((w.visit v).pushFrame t) v)
    (hi : Instance (w.visit v).visits w.frames.length t.opening) : Chronicle programs ((w.visit v).pushFrame t) := by
  have hle : w ≤ (w.visit v).pushFrame t := World.le_trans (w.le_visit v) (World.le_pushFrame _ t)
  refine ⟨fun f t' ht => ?_, fun u hu => ?_⟩
  · obtain ht | ⟨rfl, rfl⟩ := World.frame_pushFrame_cases ht
    · exact (h.instances f t' ht).mono fun _ => World.visit_of_le hle
    · exact hi
  · obtain hu | rfl : u ∈ w.visits ∨ u = v := by simpa [World.visit, World.pushFrame] using hu
    · exact (h.visits u hu).mono hle
    · exact hv

namespace Lockstep

variable (h : Lockstep programs sides w m m')
include h

/-- The stores may change, and what is known may grow; nothing is lent while programs run. -/
theorem grow {w₁ : World} (hw : w ≤ w₁) (hl : w₁.lent = w.lent) {s s' : Store}
    (hs : StoresAlike programs sides.toKinship w₁ s s') (hc : Chronicle programs w₁) :
    Lockstep programs sides w₁ { m with store := s } { m' with store := s' } :=
  ⟨hs, hc, h.surface.withStores s s', fun host hmem => (h.hosts host hmem).mono hw, hl.trans h.lent⟩

/-- What the stores have no part in may change, and the machines may be compared more loosely. -/
theorem between (sides' : Sides) (hK : sides.Within sides'.toKinship) (hl : sides'.lent = sides.lent)
    {m₁ m₁' : Machine} (hs : m₁.store = m.store) (hs' : m₁'.store = m'.store) (hh : m₁.hosts = m.hosts)
    (hsurface : SurfaceAlike sides' m₁ m₁') : Lockstep programs sides' w m₁ m₁' :=
  ⟨by rw [hs, hs']; exact h.stores.mono hK, h.chronicle, hsurface, hh ▸ h.hosts, h.lent.trans hl.symm⟩

theorem withSurface {m₁ m₁' : Machine} (hs : m₁.store = m.store) (hs' : m₁'.store = m'.store)
    (hh : m₁.hosts = m.hosts) (hsurface : SurfaceAlike sides m₁ m₁') : Lockstep programs sides w m₁ m₁' :=
  h.between sides sides.within_refl rfl hs hs' hh hsurface

theorem visit {v : Visit} (hv : VisitSound programs (w.visit v) v) : Lockstep programs sides (w.visit v) m m' :=
  h.grow (w.le_visit v) rfl (h.stores.visit v) (h.chronicle.visit hv)

theorem pushFrame {f : FrameId} {layers : List Layer} {opening : Opening} (bindings : Table Value)
    (hf : Fits w f layers) (hi : Instance w.visits m.store.nextFrame opening)
    (hb : ∀ name v, bindings.get? name = some v → opening.Declares name ∧ ValueSound w v) :
    Lockstep programs sides (w.pushFrame ⟨opening, layers, m.store.chain f⟩)
      { m with store := m.store.pushFrame (m.store.chain f) bindings }
      { m' with store := m'.store.pushFrame (m'.store.chain f) bindings } :=
  h.grow (w.le_pushFrame _) rfl (h.stores.pushFrame hf hb) (h.chronicle.pushFrame (h.stores.sound.frameCount ▸ hi))

/-- A call starts: it is visited, and its frame is made. -/
theorem invoke {c : ClosureId} {t : ClosureType} (ht : w.closures[c]? = some t) (hf : Fits w t.frame t.site)
    (arguments : List Value) (line : Line) :
    Lockstep programs sides ((w.visit ⟨.invoke c arguments line, m⟩).pushFrame (.ofCall m.store c t)) (m.called c)
      (m'.called c) := by
  rw [Machine.called, Machine.called, (h.stores.closures c t ht).frame, (h.stores.sound.closures c t ht).2]
  have hle := w.le_visit ⟨.invoke c arguments line, m⟩
  refine h.grow (World.le_trans hle (World.le_pushFrame _ _)) rfl
    ((h.stores.visit _).pushFrame (hf.mono hle) (fun name v hv => by cases hv)) (h.chronicle.visitFrame ?_ ?_)
  · refine .invoke (World.le_trans hle (World.le_pushFrame _ _)) h.stores.sound ht ?_
    rw [← h.stores.sound.frameCount]
    exact World.frame_pushFrame _ _
  · rw [h.stores.sound.frameCount]
    exact .call (World.visit_mem _ _)

theorem noteBound {f : FrameId} {name : String} (hb : m.store.binds name f = true) :
    Lockstep programs sides (w.bind f name) m m' :=
  h.grow (w.le_bind f name) rfl
    (h.stores.update (h.stores.sound.noteBound hb) h.stores.frames h.stores.objects rfl rfl rfl)
    (h.chronicle.grow (w.le_bind f name) rfl rfl)

theorem bind {f : FrameId} {t : FrameType} {name : String} {v : Value} (ht : w.frames[f]? = some t)
    (hd : t.opening.Declares name) (hv : ValueSound (w.bind f name) v) :
    Lockstep programs sides (w.bind f name) { m with store := m.store.bind f name v }
      { m' with store := m'.store.bind f name v } := by
  refine h.grow (w.le_bind f name) rfl
    (h.stores.update (h.stores.sound.bind ht hd hv) ?_ h.stores.objects rfl rfl rfl)
    (h.chronicle.grow (w.le_bind f name) rfl rfl)
  simp only [Store.bind, h.stores.frames]

theorem pushClosure {site : List Layer} {c c' : Closure}
    (hc : TwinClosure programs sides.toKinship ⟨site, c.params, c.frame⟩ c c') :
    Lockstep programs sides (w.pushClosure ⟨site, c.params, c.frame⟩)
      { m with store := m.store.pushClosure c } { m' with store := m'.store.pushClosure c' } := by
  refine h.grow (w.le_pushClosure _) rfl
    ⟨h.stores.sound.pushClosure site c, h.stores.frames, h.stores.objects, ?_, fun i t ht => ?_⟩
    (h.chronicle.grow (w.le_pushClosure _) rfl rfl)
  · show (m'.store.closures.push _).size = (m.store.closures.push _).size
    rw [Array.size_push, Array.size_push]
    exact congrArg (· + 1) h.stores.closureCount
  · rw [Store.closure_pushClosure, Store.closure_pushClosure, h.stores.closureCount]
    obtain hold | ⟨rfl, rfl⟩ := World.closure_pushClosure_cases ht
    · have hlt := (List.getElem?_eq_some_iff.mp hold).1
      rw [h.stores.sound.closureCount] at hlt
      rw [if_neg (Nat.ne_of_lt hlt), if_neg (Nat.ne_of_lt hlt)]
      exact h.stores.closures i t hold
    · rw [if_pos h.stores.sound.closureCount, if_pos h.stores.sound.closureCount]
      exact hc

theorem pushObject {info : ClassInfo} (hi : ClassSound w info) :
    Lockstep programs sides w { m with store := m.store.pushObject ⟨info, []⟩ }
      { m' with store := m'.store.pushObject ⟨info, []⟩ } := by
  refine h.grow w.le_refl rfl
    (h.stores.update (h.stores.sound.pushObject hi) h.stores.frames ?_ rfl rfl rfl) h.chronicle
  show m'.store.objects.push _ = m.store.objects.push _
  rw [h.stores.objects]

theorem setField (o : ObjectId) (name : String) {v : Value} (hv : ValueSound w v) :
    Lockstep programs sides w { m with store := m.store.setField o name v }
      { m' with store := m'.store.setField o name v } := by
  refine h.grow w.le_refl rfl (h.stores.update (h.stores.sound.setField o name hv) h.stores.frames ?_ rfl rfl rfl)
    h.chronicle
  simp only [Store.setField, h.stores.objects]

/-- The host remembers what it was handed. -/
theorem remember {index : Nat} {host : Host} (hh : HostSound w host) :
    Lockstep programs sides w { m with hosts := m.hosts.set! index host }
      { m' with hosts := m.hosts.set! index host } := by
  refine ⟨h.stores, h.chronicle, h.surface.withHosts _, fun other hmem => ?_, h.lent⟩
  obtain hmem | rfl := Array.mem_or_eq_of_mem_setIfInBounds hmem
  · exact h.hosts other hmem
  · exact hh

end Lockstep

end LoxLang
