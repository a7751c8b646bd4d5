import LoxLang.Proofs.Moves

/-!
# Computations side by side

`Holds` composes along `>>=` and with the visits that are noted, and every elementary computation has its lemma: started
on two machines in lockstep it ends alike, and what it answers is sound in the later world.
-/

namespace LoxLang

variable {programs : List (List Node)} {sides : Sides} {w : World} {m m' : Machine}

/-! ## Composition -/

/-- What a reply hands over can be used. -/
def ReplySound (w : World) : HostReply → Prop
  | .value v => ValueSound w v
  | _ => True

namespace Holds

variable {α β : Type} {R : World → α → Prop}

theorem pure (h : Lockstep programs sides w m m') {a : α} (hr : R w a) :
    Holds programs sides w m m' (Pure.pure a) (Pure.pure a) R :=
  .ok rfl rfl w.le_refl (List.append_nil _).symm h hr

theorem mono {Q : World → α → Prop} {x : Traced α} {y : Exec α} (hx : Holds programs sides w m m' x y R)
    (hq : ∀ w₁ a, w ≤ w₁ → R w₁ a → Q w₁ a) : Holds programs sides w m m' x y Q := by
  cases hx with
  | ok hx hy hw hv h hr => exact .ok hx hy hw hv h (hq _ _ hw hr)
  | error hx hy ha hw hv h => exact .error hx hy ha hw hv h

theorem bind {Q : World → β → Prop} {x : Traced α} {y : Exec α} {f : α → Traced β} {g : α → Exec β}
    (hx : Holds programs sides w m m' x y R)
    (hf : ∀ w₁ m₁ m₁' a, w ≤ w₁ → Lockstep programs sides w₁ m₁ m₁' → R w₁ a →
      Holds programs sides w₁ m₁ m₁' (f a) (g a) Q) :
    Holds programs sides w m m' (x >>= f) (y >>= g) Q := by
  cases hx with
  | error hx hy ha hw hv h =>
    refine .error ?_ ?_ ha hw hv h
    · rw [Traced.bind_apply, hx]
    · rw [Exec.bind_apply, hy]
  | ok hx hy hw hv h hr =>
    cases hf _ _ _ _ hw h hr with
    | ok hx₂ hy₂ hw₂ hv₂ h₂ hr₂ =>
      refine .ok ?_ ?_ (World.le_trans hw hw₂) (by rw [hv₂, hv, List.append_assoc]) h₂ hr₂
      · rw [Traced.bind_apply, hx]
        simp only [hx₂]
      · rw [Exec.bind_apply, hy]
        exact hy₂
    | error hx₂ hy₂ ha hw₂ hv₂ h₂ =>
      refine .error ?_ ?_ ha (World.le_trans hw hw₂) (by rw [hv₂, hv, List.append_assoc]) h₂
      · rw [Traced.bind_apply, hx]
        simp only [hx₂]
      · rw [Exec.bind_apply, hy]
        exact hy₂

/-- A computation may start with a visit and steps that are known. -/
theorem start {v : Visit} {x x₁ : Traced α} {y y₁ : Exec α} {m₁ m₁' : Machine} {w₁ : World}
    (hx : x m = (v :: (x₁ m₁).1, (x₁ m₁).2)) (hy : y m' = y₁ m₁') (hw : w ≤ w₁) (hv : w₁.visits = w.visits ++ [v])
    (h : Holds programs sides w₁ m₁ m₁' x₁ y₁ R) : Holds programs sides w m m' x y R := by
  cases h with
  | ok hx₁ hy₁ hw₁ hv₁ h₁ hr =>
    exact .ok (by rw [hx, hx₁]) (hy.trans hy₁) (World.le_trans hw hw₁) (by simp [hv₁, hv]) h₁ hr
  | error hx₁ hy₁ ha hw₁ hv₁ h₁ =>
    exact .error (by rw [hx, hx₁]) (hy.trans hy₁) ha (World.le_trans hw hw₁) (by simp [hv₁, hv]) h₁

/-- An activity is noted before it starts. -/
theorem note {activity : Activity} {x : Traced α} {y : Exec α} (h : Lockstep programs sides w m m')
    (hv : VisitSound programs (w.visit ⟨activity, m⟩) ⟨activity, m⟩)
    (hx : Lockstep programs sides (w.visit ⟨activity, m⟩) m m' →
      Holds programs sides (w.visit ⟨activity, m⟩) m m' x y R) :
    Holds programs sides w m m' (do Traced.note activity; x) y R :=
  .start rfl rfl (w.le_visit _) rfl (hx (h.visit hv))

/-! ## Computations without visits -/

theorem ofOk {x y : Exec α} {a : α} {m₁ m₁' : Machine} {w₁ : World} (hx : x m = .ok a m₁) (hy : y m' = .ok a m₁')
    (hw : w ≤ w₁) (hv : w₁.visits = w.visits) (h : Lockstep programs sides w₁ m₁ m₁') (hr : R w₁ a) :
    Holds programs sides w m m' (liftM x) y R :=
  .ok (congrArg (Prod.mk []) hx) hy hw (hv.trans (List.append_nil _).symm) h hr

theorem ofError {x y : Exec α} {fault fault' : Fault} {m₁ m₁' : Machine} (hx : x m = .error fault m₁)
    (hy : y m' = .error fault' m₁') (ha : fault.Alike sides fault') (h : Lockstep programs sides w m₁ m₁') :
    Holds programs sides w m m' (liftM x) y R :=
  .error (congrArg (Prod.mk []) hx) hy ha w.le_refl (List.append_nil _).symm h

variable (h : Lockstep programs sides w m m')
include h

theorem throw {fault : Fault} (ha : fault.Alike sides fault) :
    Holds programs sides w m m' (liftM (MonadExcept.throw fault : Exec α)) (MonadExcept.throw fault) R :=
  .ofError rfl rfl ha h

/-- A message that cannot be written is a fault of its own, on both sides. -/
theorem failAt {line line' : Line} (hl : sides.lines line line') {cause : RuntimeCause}
    (hc : w.lent = [] → cause.hasText = true) :
    Holds programs sides w m m' (liftM (Exec.failAt line cause : Exec α)) (Exec.failAt line' cause) R := by
  unfold Exec.failAt
  cases ht : cause.hasText with
  | true => exact .ofError rfl rfl (.runtime hl) h
  | false => exact .throw h (.outOfRange fun hl => by rw [hc (h.lent.trans hl)] at ht; cases ht)

/-- What both stores show alike can be looked at. -/
theorem inspect {f : Store → α} (hf : f m'.store = f m.store) (hr : R w (f m.store)) :
    Holds programs sides w m m' (liftM (Exec.inspect f)) (Exec.inspect f) R :=
  .ofOk rfl (congrArg (EStateM.Result.ok · m') hf) w.le_refl rfl h hr

theorem textOf {v : Value} (hv : ValueSound w v) :
    Holds programs sides w m m' (liftM (Exec.textOf v)) (Exec.textOf v) fun _ _ => True := by
  unfold Exec.textOf
  cases ht : v.hasText with
  | true => exact .ofOk rfl rfl w.le_refl rfl h trivial
  | false => exact .throw h (.outOfRange fun hl => by rw [(hv.plain (h.lent.trans hl)).hasText] at ht; cases ht)

theorem orFail {line line' : Line} (hl : sides.lines line line') {answer : Except OperatorFault Value}
    (ha : AnswerSound w answer) :
    Holds programs sides w m m' (liftM (Exec.orFail line answer)) (Exec.orFail line' answer) ValueSound := by
  match answer, ha with
  | .ok v, ha => exact .ofOk rfl rfl w.le_refl rfl h ha
  | .error (.cause cause), ha => exact .failAt h hl ha
  | .error .outOfRange, ha => exact .throw h (.outOfRange fun hl => ha (h.lent.trans hl))

/-! ### Names -/

theorem define {f : FrameId} {t : FrameType} {name : String} {v : Value} {line line' : Line}
    (hl : sides.lines line line') (ht : w.frames[f]? = some t) (hd : t.opening.Declares name)
    (hv : ValueSound (w.bind f name) v) :
    Holds programs sides w m m' (liftM (Exec.define f name v line)) (Exec.define f name v line')
      fun w₁ _ => (f, name) ∈ w₁.bound := by
  by_cases hb : m.store.binds name f = true
  · have hb' : m'.store.binds name f = true := by rw [h.stores.binds_eq, hb]
    exact .ofError (by rw [Exec.define_apply, if_pos hb]) (by rw [Exec.define_apply, if_pos hb']) (.runtime hl) h
  · have hb' : ¬ m'.store.binds name f = true := by rwa [h.stores.binds_eq]
    exact .ofOk (by rw [Exec.define_apply, if_neg hb]) (by rw [Exec.define_apply, if_neg hb']) (w.le_bind f name) rfl
      (h.bind ht hd hv) (w.bound_bind f name)

theorem lookup {f : FrameId} {layers : List Layer} (hf : Fits w f layers) (name : String) {line line' : Line}
    (hl : sides.lines line line') :
    Holds programs sides w m m' (liftM (Exec.lookup f name line)) (Exec.lookup f name line') ValueSound := by
  have hx := Exec.lookup_apply m f name line
  have hy := Exec.lookup_apply m' f name line'
  rw [h.stores.lookup?_eq] at hy
  cases hv : m.store.lookup? f name with
  | some v =>
    rw [hv] at hx hy
    exact .ofOk hx hy w.le_refl rfl h (hf.lookup?_sound h.stores.sound hv)
  | none =>
    rw [hv] at hx hy
    exact .ofError hx hy (.runtime hl) h

theorem lookupAt {f : FrameId} {layers : List Layer} (hf : Fits w f layers) {name : String} {i : Nat}
    (hr : ReadyAt layers name i) {line line' : Line} (hl : sides.lines line line') :
    Holds programs sides w m m' (liftM (Exec.lookupAt f i name line)) (Exec.lookupAt f i name line') ValueSound := by
  obtain ⟨layer, hlayer, -⟩ := hr
  obtain ⟨g, ha, hsound⟩ := hf.ancestor_sound h.stores.sound hlayer
  have hx := Exec.lookupAt_apply m ha name line
  have hy := Exec.lookupAt_apply m' (by rw [h.stores.ancestor?_eq, ha]) name line'
  rw [h.stores.own?_eq] at hy
  cases hv : m.store.own? g name with
  | some v =>
    rw [hv] at hx hy
    exact .ofOk hx hy w.le_refl rfl h (hsound name v hv)
  | none =>
    rw [hv] at hx hy
    exact .ofError hx hy (.runtime hl) h

/-- Two reads of a name give the same value. -/
theorem readName {f : FrameId} {layers : List Layer} (hf : Fits w f layers) {name : String} {d d' : Depth}
    (hu : ReadsAlike sides.searches layers name d d') {line line' : Line} (hl : sides.lines line line') :
    Holds programs sides w m m' (liftM (Exec.readName f name line d)) (Exec.readName f name line' d') ValueSound := by
  cases d with
  | none =>
    obtain rfl : d' = none := hu.alike.elim id fun hs => hs.2.1
    exact .lookup h hf name hl
  | some i =>
    have hready := hu.ready i rfl
    obtain rfl | ⟨hs, rfl, hfirst⟩ := hu.alike
    · exact .lookupAt h hf hready hl
    · -- the other side searches, which it does only where no name was ever lent
      have hq : w.lent = [] := h.lent.trans (sides.quiet hs)
      obtain ⟨g, v, ha, hv⟩ := hf.own?_of_ready h.stores.sound hq hready
      have hx : Exec.readName f name line (some i) m = .ok v m := by
        rw [Exec.readName, Exec.lookupAt_apply m ha, hv]
      have ho : m'.store.owner? f name = some g := by
        rw [h.stores.owner?_eq, hf.owner?_of_first h.stores.sound hq hready (hfirst i rfl), ha]
      have hy : Exec.readName f name line' none m' = .ok v m' := by
        rw [Exec.readName, Exec.lookup_apply, Store.lookup?, ho, Option.bind_some, h.stores.own?_eq, hv]
      obtain ⟨layer, hlayer, -⟩ := hready
      obtain ⟨g', ha', hsound⟩ := hf.ancestor_sound h.stores.sound hlayer
      obtain rfl : g' = g := Option.some.inj (ha'.symm.trans ha)
      exact .ofOk hx hy w.le_refl rfl h (hsound name v hv)

/-- Two writes to a name change the same frame. -/
theorem writeName {f : FrameId} {layers : List Layer} (hf : Fits w f layers) {name : String} {d d' : Depth}
    (hu : WritesAlike sides.searches layers name d d') {v : Value} (hv : ValueSound w v) {line line' : Line}
    (hl : sides.lines line line') :
    Holds programs sides w m m' (liftM (Exec.writeName f name v line d)) (Exec.writeName f name v line' d')
      ValueSound := by
  have hs := h.stores.sound
  have hx := Exec.assign_apply m f name v line
  have hy := Exec.assign_apply m' f name v line'
  rw [h.stores.owner?_eq] at hy
  cases d with
  | none =>
    obtain rfl : d' = none := hu.alike.elim id fun hs => hs.2.1
    cases ho : m.store.owner? f name with
    | none =>
      rw [ho] at hx hy
      exact .ofError hx hy (.runtime hl) h
    | some g =>
      rw [ho] at hx hy
      obtain ⟨hb, t, ht⟩ := hf.owner?_frame hs ho
      have hle := w.le_bind g name
      exact .ofOk hx hy hle rfl (h.bind ht ((hs.frames g t ht).declared name hb) (hv.mono hle)) (hv.mono hle)
  | some i =>
    obtain ⟨layer, hlayer⟩ : ∃ layer, layers[i]? = some layer := by
      have hi := List.findIdx?_eq_some_iff_getElem.mp hu.resolved.symm
      obtain ⟨hlt, -⟩ := hi
      rw [List.length_map] at hlt
      exact ⟨_, List.getElem?_eq_getElem hlt⟩
    obtain ⟨g, t, ha, ht, ho, -⟩ := hf.ancestor hs hlayer
    have hle := w.le_bind g name
    have hd : t.opening.Declares name := ho ▸ hu.declares i layer rfl hlayer
    refine .ofOk (Exec.assignAt_apply m ha name v) ?_ hle rfl (h.bind ht hd (hv.mono hle)) (hv.mono hle)
    -- the other side climbs as this one does, or it searches and finds the same frame
    obtain rfl | ⟨hsearches, rfl, hfirst⟩ := hu.alike
    · have ha' : m'.store.ancestor? f i = some g := by rw [h.stores.ancestor?_eq, ha]
      exact Exec.assignAt_apply m' ha' name v
    · have hq : w.lent = [] := h.lent.trans (sides.quiet hsearches)
      rw [hf.owner?_of_first hs hq (hfirst i rfl).1 (hfirst i rfl).2, ha] at hy
      exact hy

/-! ### The store -/

theorem newFrame {f : FrameId} {layers : List Layer} (hf : Fits w f layers) {opening : Opening}
    (hi : Instance w.visits m.store.nextFrame opening) :
    Holds programs sides w m m' (liftM (Exec.newFrame (some f) [])) (Exec.newFrame (some f) [])
      fun w₁ g => Fits w₁ g (⟨opening, []⟩ :: layers) := by
  refine .ofOk (Exec.newFrame_apply m f []) ?_ (w.le_pushFrame ⟨opening, layers, m.store.chain f⟩) rfl
    (h.pushFrame [] hf hi fun name v hv => by cases hv) ?_
  · rw [Exec.newFrame_apply, h.stores.nextFrame_eq]
  · exact ⟨_, [], h.stores.sound.frameCount ▸ w.frame_pushFrame _, rfl, fun name hr => by cases hr⟩

theorem newClosure {site : List Layer} {c c' : Closure}
    (hc : TwinClosure programs sides.toKinship ⟨site, c.params, c.frame⟩ c c') :
    Holds programs sides w m m' (liftM (Exec.newClosure c)) (Exec.newClosure c')
      fun w₁ i => i = w.closures.length ∧ w₁ = w.pushClosure ⟨site, c.params, c.frame⟩ :=
  .ofOk (Exec.newClosure_apply m c) (by rw [Exec.newClosure_apply, h.stores.closureCount]) (w.le_pushClosure _) rfl
    (h.pushClosure hc) ⟨h.stores.sound.closureCount.symm, rfl⟩

theorem newObject {info : ClassInfo} (hi : ClassSound w info) :
    Holds programs sides w m m' (liftM (Exec.newObject info)) (Exec.newObject info) fun _ _ => True :=
  .ofOk (Exec.newObject_apply m info) (by rw [Exec.newObject_apply, h.stores.nextObject_eq]) w.le_refl rfl
    (h.pushObject hi) trivial

theorem setField (o : ObjectId) (name : String) {v : Value} (hv : ValueSound w v) :
    Holds programs sides w m m' (liftM (Exec.update (·.setField o name v))) (Exec.update (·.setField o name v))
      fun _ _ => True :=
  .ofOk rfl rfl w.le_refl rfl (h.setField o name hv) trivial

/-! ### Calls and effects -/

theorem emit (message : String) {line line' : Line} (hl : sides.lines line line') :
    Holds programs sides w m m' (liftM (Exec.emit message line)) (Exec.emit message line') fun _ _ => True := by
  have hx := Exec.emit_apply m message line
  have hy := Exec.emit_apply m' message line'
  rw [h.surface.refusesLine, h.surface.writes] at hy
  have hnext : Lockstep programs sides w (Exec.emitted m message) (Exec.emitted m' message) :=
    h.withSurface rfl rfl rfl (h.surface.emitted message)
  by_cases hrefused : m.refusesLine m.writes = true
  · rw [if_pos hrefused] at hx hy
    exact .ofError hx hy (.runtime hl) hnext
  · rw [if_neg hrefused] at hx hy
    exact .ofOk hx hy w.le_refl rfl hnext trivial

theorem readClock : Holds programs sides w m m' (liftM Exec.readClock) Exec.readClock ValueSound := by
  have ht : m'.clock m'.ticks = m.clock m.ticks := by rw [h.surface.clock, h.surface.ticks]
  have hy : Exec.readClock m' = .ok (.number (m.clock m.ticks)) { m' with ticks := m'.ticks + 1 } := by
    rw [Exec.readClock_apply, ht]
  exact .ofOk (Exec.readClock_apply m) hy w.le_refl rfl (h.withSurface rfl rfl rfl h.surface.ticked)
    (.of_plain trivial rfl)

theorem enterCall {a a' : Activation} (ha : a.Alike sides.lines a') (ht : w.lent = [] → a.hasText = true) :
    Holds programs sides w m m' (liftM (Exec.enterCall a)) (Exec.enterCall a') fun _ _ => True := by
  have hx := Exec.enterCall_apply m a
  have hy := Exec.enterCall_apply m' a'
  rw [h.surface.depth, h.surface.callLimit, h.surface.log.refusesNext_eq] at hy
  have hnext : Lockstep programs sides w (Exec.entered m a) (Exec.entered m' a') :=
    h.withSurface rfl rfl rfl (h.surface.entered ha fun hl => ht (h.lent.trans hl))
  by_cases hrefused : m.log.refusesNext = true
  · rw [if_pos hrefused] at hx hy
    exact .ofError hx hy (.raised fun _ => ⟨rfl, h.surface.closes (DebugLog.canClose_of_refusesNext hrefused)⟩)
      (h.withSurface rfl rfl rfl (h.surface.logged a a'))
  · rw [if_neg hrefused] at hx hy
    by_cases hd : m.callLimit < m.activations.size + 1
    · rw [if_pos hd] at hx hy
      exact .ofError hx hy .overflow hnext
    · rw [if_neg hd] at hx hy
      exact .ofOk hx hy w.le_refl rfl hnext trivial

theorem leaveCall : Holds programs sides w m m' (liftM Exec.leaveCall) Exec.leaveCall fun _ _ => True :=
  .ofOk (Exec.leaveCall_apply m) (Exec.leaveCall_apply m') w.le_refl rfl (h.withSurface rfl rfl rfl h.surface.left)
    trivial

/-! ### Hosts -/

/-- A host replies with what it was handed, now or before, and keeps no more. -/
theorem askHost (hl : w.lent ≠ []) (index : Nat) {call : HostCall} (hv : ∀ v ∈ call.arguments, ValueSound w v) :
    Holds programs sides w m m' (liftM (Exec.askHost index call)) (Exec.askHost index call) ReplySound := by
  cases hhost : m.hosts[index]? with
  | none =>
    have hhost' : m'.hosts[index]? = none := by rw [h.surface.hosts, hhost]
    exact .ofOk (Exec.askHost_of_none hhost call) (Exec.askHost_of_none hhost' call) w.le_refl rfl h .nil
  | some host =>
    have hx := Exec.askHost_of_some hhost call
    have hy := Exec.askHost_of_some (m := m') (by rw [h.surface.hosts, hhost]) call
    rw [h.surface.hosts] at hy
    obtain ⟨hfaithful, hkept⟩ := h.hosts host (Array.mem_of_getElem? hhost)
    have hknown : ∀ r ∈ Value.referencesOf call.arguments ++ Value.referencesOf host.memory.kept, RoleSound w r.1 r.2 :=
      fun r hr => (List.mem_append.mp hr).elim (ValueSound.role_of_mem hv r) (hkept r)
    refine .ofOk hx hy w.le_refl rfl (h.remember ⟨⟨hfaithful.reply, hfaithful.memory⟩, fun r hr => ?_⟩) ?_
    · exact hknown r (hfaithful.memory call host.memory hr)
    · have hreply := hfaithful.reply call host.memory
      revert hreply
      cases (host.respond call host.memory).1 with
      | value v => exact fun hreply => ⟨fun hnone => absurd hnone hl, fun r hr => hknown r (hreply hr)⟩
      | _ => exact fun _ => trivial

theorem acceptReply (hl : w.lent ≠ []) {name : String} {line line' : Line} (hlines : sides.lines line line')
    {reply : HostReply} (hr : ReplySound w reply) :
    Holds programs sides w m m' (liftM (Exec.acceptReply name line reply)) (Exec.acceptReply name line' reply)
      ValueSound := by
  cases reply with
  | value v => exact .ofOk rfl rfl w.le_refl rfl h hr
  | failure text => exact .failAt h hlines fun hnone => absurd hnone hl
  | raised d =>
    unfold Exec.acceptReply
    dsimp only
    split
    · exact .failAt h (sides.same d.line) fun hnone => absurd hnone hl
    · exact .throw h (.raised fun hnone => absurd (h.lent.trans hnone) hl)
  | overflow => exact .throw h .overflow

end Holds

end LoxLang
